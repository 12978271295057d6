import Fexpr.Context
import Fexpr.Proofs.Relocation

/-!
# Runs keep to what they can get at

A run from one store is compared with a run from another that looks the same from the scope of the
run. They do the same, whatever the stores hold out of reach, and leave that as it was. New names
are bound in the frame of the run and in frames of its own making only.
-/

namespace Fexpr

namespace Code

variable {σ : Store} {s : Scope}

/-- A run leaves every frame its parent and its keywords. The names bound in its own frame stay and
keep their order, and new ones come after them. In other frames there are no new names, and a block
binds none in the frame around it. -/
theorem names_eval (code : Code) (hcode : ∀ k ∈ code.keywords, k.isBuiltin) (host : Host)
    (limit : Nat) (hσ : σ.KnowsOnlyBuiltins s) {t : Scope} {f : Frame} (hf : σ.frame? t = some f) :
    ∃ g, (code.eval host limit s σ).2.frame? t = some g ∧ g.outer = f.outer ∧
      f.bindings.names <+: g.bindings.names ∧
      (t ≠ s ∨ code.body?.isSome → g.bindings.names = f.bindings.names) := by
  have hself : (Relocation.refl (σ.viewFrom s)).Stores σ σ := Relocation.stores_refl (.viewFrom hσ)
  cases code with
  | block p items =>
    cases limit with
    | zero => exact ⟨f, hf, rfl, List.prefix_rfl, fun _ => rfl⟩
    | succ limit =>
      -- the frame of the block is a new one
      have hlt := Store.lt_size_of_frame? hf
      have hf' : (σ.addChild s).2.frame? t = some f := by
        rw [Store.addChild, Store.frame?_addFrame, if_neg (Nat.ne_of_lt hlt), hf]
      have hran := (hself.addChild Store.viewFrom_self).runItems (· = ⟨σ.frames.size⟩) host host
        limit hcode (hself.covers.scope (Nat.le_refl _)) rfl
      obtain ⟨g, hg, houter, hprefix, hnames⟩ := hran.left.names hf'
      refine ⟨g, hg, houter, hprefix, fun _ => hnames ?_⟩
      rintro rfl
      exact Nat.lt_irrefl _ hlt
  | literal | lookup | reference | call =>
    have hran := hself.eval (· = s) host host limit hcode Store.viewFrom_self rfl
    obtain ⟨g, hg, houter, hprefix, hnames⟩ := hran.left.names hf
    refine ⟨g, hg, houter, hprefix, ?_⟩
    rintro (hne | hblock)
    · exact hnames hne
    · cases hblock

theorem names_eval_var :
    ∃ g, (eval Host.absent 9 (.block default
        [.call default (.keyword (.builtin 0 .var)) [.reference default "x"]]) ⟨0⟩
        ⟨#[⟨Context.constants, .root (.builtins 0)⟩], #[], #[]⟩).2.frame? ⟨0⟩ = some g ∧
      g.outer = .root (.builtins 0) ∧ g.bindings.names = ["null", "true", "false"] := by
  have hσ := Store.knowsOnlyBuiltins_of_forall
    (σ := ⟨#[⟨Context.constants, .root (.builtins 0)⟩], #[], #[]⟩) (by decide) (by decide) ⟨0⟩
  obtain ⟨g, hg, houter, -, hnames⟩ := names_eval
    (.block default [.call default (.keyword (.builtin 0 .var)) [.reference default "x"]])
    (by decide) Host.absent 9 hσ (t := ⟨0⟩) rfl
  exact ⟨g, hg, houter, hnames (.inr rfl)⟩

end Code

namespace Store

/-- Stores with equally many frames that agree on what can be got at from a scope: on the frames and
on the functions bound there. -/
structure AgreesFrom (σ : Store) (s : Scope) (τ : Store) : Prop where
  size : τ.frames.size = σ.frames.size
  frame : ∀ {t : Scope}, σ.Reaches s t → τ.frame? t = σ.frame? t
  function : ∀ {t : Scope} {i : Nat}, σ.Reaches s t → .function i ∈ (σ.bindings t).values →
    ∃ f, σ.function? i = some f ∧ τ.function? i = some f

/-- A run in a scope that changes nothing out of reach of the scope, gains no way to get at it, and
does not depend on it. In stores with different numbers of functions, new functions differ in their
numbers. -/
structure Isolates (σ : Store) (s : Scope) (run : Host → Eval Value) : Prop where
  kept : ∀ host {t : Scope}, t.index < σ.frames.size → ¬ σ.Reaches s t →
    (run host σ).2.frame? t = σ.frame? t
  reaches : ∀ host {t : Scope}, (run host σ).2.Reaches s t →
    σ.Reaches s t ∨ σ.frames.size ≤ t.index
  outcome : ∀ host host' {τ : Store}, σ.AgreesFrom s τ →
    (run host' τ).1 = (run host σ).1.map (Value.renumber (σ.renumber τ))
  size : ∀ host host' {τ : Store}, σ.AgreesFrom s τ →
    (run host' τ).2.frames.size = (run host σ).2.frames.size
  frame : ∀ host host' {τ : Store}, σ.AgreesFrom s τ →
    ∀ {t : Scope}, σ.Reaches s t ∨ σ.frames.size ≤ t.index →
      (run host' τ).2.frame? t = ((run host σ).2.frame? t).map (Frame.renumber (σ.renumber τ))
  function : ∀ host host' {τ : Store}, σ.AgreesFrom s τ → ∀ {i : Nat}, σ.functions.size ≤ i →
    (run host' τ).2.function? (σ.renumber τ i) = (run host σ).2.function? i

variable {σ τ : Store} {s : Scope}

namespace AgreesFrom

variable {i : Nat}

theorem renumber_cases (h : σ.AgreesFrom s τ) (hi : (σ.viewFrom s).function i) :
    (∃ f, σ.function? i = some f ∧ τ.function? i = some f ∧ σ.renumber τ i = i) ∨
      σ.functions.size ≤ i ∧ σ.renumber τ i = τ.functions.size + (i - σ.functions.size) := by
  rcases hi with ⟨t, ht, hbound⟩ | hi
  · obtain ⟨f, hf, hf'⟩ := h.function ht hbound
    exact .inl ⟨f, hf, hf', if_pos (Array.getElem?_eq_some_iff.mp hf).1⟩
  · exact .inr ⟨hi, renumber_new hi⟩

theorem renumber_inj {j : Nat} (h : σ.AgreesFrom s τ) (hi : (σ.viewFrom s).function i)
    (hj : (σ.viewFrom s).function j) (hij : σ.renumber τ i = σ.renumber τ j) : i = j := by
  have hlt : ∀ {i : Nat} {f : Function}, τ.function? i = some f → i < τ.functions.size :=
    fun hf => (Array.getElem?_eq_some_iff.mp hf).1
  rcases h.renumber_cases hi with ⟨f, -, hf, hri⟩ | ⟨hi, hri⟩ <;>
    rcases h.renumber_cases hj with ⟨g, -, hg, hrj⟩ | ⟨hj, hrj⟩ <;> rw [hri, hrj] at hij
  · exact hij
  · have := hlt hf
    omega
  · have := hlt hg
    omega
  · omega

def relocation (h : σ.AgreesFrom s τ) : Relocation where
  view := σ.viewFrom s
  place := id
  number := σ.renumber τ
  place_inj _ _ := id
  number_inj := h.renumber_inj

theorem stores (h : σ.AgreesFrom s τ) (hσ : σ.KnowsOnlyBuiltins s) : h.relocation.Stores σ τ := by
  refine ⟨.viewFrom hσ, ?_, ?_, fun _ _ _ => Iff.rfl, ?_, ?_⟩
  · intro t ht
    cases hf : σ.frame? t with
    | none =>
      have hge := Array.getElem?_eq_none_iff.mp hf
      exact Array.getElem?_eq_none_iff.mpr (by rw [h.size]; exact hge)
    | some f =>
      have hreaches := reaches_of_viewFrom ht hf
      have htransfer : h.relocation.transfer f = f := by
        refine Relocation.transfer_eq_self (fun v hv => ?_) fun _ _ => rfl
        cases v with
        | function i =>
          obtain ⟨g, hg, -⟩ := h.function hreaches (by rwa [bindings_of_some hf])
          exact congrArg Value.function (if_pos (Array.getElem?_eq_some_iff.mp hg).1)
        | null | number | string | boolean | keyword | host => rfl
      rw [Option.map_some, htransfer]
      exact (h.frame hreaches).trans hf
  · intro i hi
    change τ.function? (σ.renumber τ i) = _
    rcases h.renumber_cases hi with ⟨f, hf, hf', hri⟩ | ⟨hge, hri⟩
    · rw [hri, hf, hf']
      rfl
    · rw [hri, function?, function?, Array.getElem?_eq_none hge,
        Array.getElem?_eq_none (Nat.le_add_right _ _)]
      rfl
  · intro i
    exact congrArg (fun n => (⟨n + i⟩ : Scope)) h.size.symm
  · intro i
    change σ.renumber τ (σ.functions.size + i) = _
    rw [renumber_new (Nat.le_add_right _ _), Nat.add_sub_cancel_left]

end AgreesFrom

theorem isolates_of_ran {run : Host → Eval Value} (hσ : σ.KnowsOnlyBuiltins s)
    (hrun : ∀ (R : Relocation) {σ τ : Store} (host host' : Host), R.Stores σ τ → R.view.scope s →
      R.place s = s → R.Ran (· = s) s σ τ (run host σ) (run host' τ)) :
    σ.Isolates s run := by
  have hself := fun host => hrun (.refl (σ.viewFrom s)) host host
    (Relocation.stores_refl (.viewFrom hσ)) viewFrom_self rfl
  have hpair : ∀ host host' {τ : Store} (h : σ.AgreesFrom s τ),
      h.relocation.Ran (· = s) s σ τ (run host σ) (run host' τ) := fun host host' _ h =>
    hrun h.relocation host host' (h.stores hσ) viewFrom_self rfl
  refine ⟨?_, ?_, ?_, ?_, ?_, ?_⟩
  · intro host t hlt ht
    obtain ⟨f, hf⟩ := Has.frame? (σ := σ) hlt
    rw [hf]
    refine (hself host).left.frame ?_ hf
    rintro (hreaches | hge)
    · exact ht hreaches
    · exact Nat.not_le_of_lt hlt hge
  · intro host t ht
    exact (hself host).stores.covers.closed.reaches viewFrom_self ht
  · intro host host' τ h
    exact (hpair host host' h).outcome
  · intro host host' τ h
    exact (congrArg Scope.index ((hpair host host' h).stores.next_frame 0)).symm
  · intro host host' τ h t ht
    refine ((hpair host host' h).stores.frame ht).trans ?_
    exact congrArg (Option.map · _) (funext fun f => Frame.move_id _)
  · intro host host' τ h i hi
    refine ((hpair host host' h).stores.function (.inr hi)).trans ?_
    exact congrFun Option.map_id _

/-- Runs of code and of bodies do not see or change what is out of reach of their scope. A body runs
in a frame inside the scope that its function has captured: the frame of the caller is out of its
reach, unless it is captured or was passed on in a function. -/
theorem isolates_run (hσ : σ.KnowsOnlyBuiltins s) :
    (∀ code : Code, (∀ k ∈ code.keywords, k.isBuiltin) → ∀ limit,
      σ.Isolates s fun host => code.eval host limit s) ∧
    (∀ body : Body, (∀ k ∈ body.keywords, k.isBuiltin) → ∀ limit,
      σ.Isolates s fun host => body.run host limit s) := by
  constructor
  · intro code hcode limit
    apply isolates_of_ran hσ
    intro R σ τ host host' hστ hs hplace
    have hran := hστ.eval (· = s) host host' limit hcode hs rfl
    rwa [hplace] at hran
  · intro body hbody limit
    apply isolates_of_ran hσ
    intro R σ τ host host' hστ hs hplace
    have hran := hστ.runItems (· = s) host host' limit hbody hs rfl
    rwa [hplace] at hran

def calling (x : Value) : Store where
  frames := #[⟨Context.constants, .root (.builtins 0)⟩, ⟨⟨[("x", x)]⟩, .child ⟨0⟩⟩,
    ⟨⟨[("f", .function 0)]⟩, .child ⟨0⟩⟩]
  functions := #[⟨[], ⟨[.lookup default "x"], default⟩, ⟨0⟩⟩]
  journal := #[]

theorem ne_of_reaches_calling {x : Value} {t : Scope} (h : (calling x).Reaches ⟨2⟩ t) :
    t ≠ ⟨1⟩ := by
  have hroot : (calling x).chain ⟨0⟩ = [⟨0⟩] := chain_of_root rfl rfl
  cases h with
  | chain ht =>
    rw [chain_of_child rfl rfl, if_pos (by decide), hroot] at ht
    rintro rfl
    simp at ht
  | @captured _ _ i f _ _ hf ht =>
    have hi : i < 1 := (Array.getElem?_eq_some_iff.mp hf).1
    obtain rfl : i = 0 := by omega
    obtain rfl : ⟨[], ⟨[.lookup default "x"], default⟩, ⟨0⟩⟩ = f := Option.some.inj hf
    rw [hroot] at ht
    rintro rfl
    simp at ht

theorem agreesFrom_calling (x y : Value) : (calling x).AgreesFrom ⟨2⟩ (calling y) := by
  refine ⟨rfl, ?_, ?_⟩
  · intro t ht
    have hne := ne_of_reaches_calling ht
    rcases t with ⟨_ | _ | _ | n⟩
    · rfl
    · exact absurd rfl hne
    · rfl
    · rfl
  · intro t i ht hi
    have hne := ne_of_reaches_calling ht
    rcases t with ⟨_ | _ | _ | n⟩
    · simp [bindings, frame?, calling, Context.constants, Bindings.values] at hi
    · exact absurd rfl hne
    · obtain rfl : i = 0 := by
        simpa [bindings, frame?, calling, Bindings.values] using hi
      exact ⟨_, rfl, rfl⟩
    · simp [bindings, frame?, calling, Bindings.values, Bindings.empty] at hi

/-- A function that is called, and one that it calls in turn, do not see the local `x` of the first
caller and leave it alone. -/
theorem isolates_run_calling :
    (calling .null).KnowsOnlyBuiltins ⟨2⟩ ∧
    (Code.eval Host.absent 9 (.call default (.name "f") []) ⟨2⟩ (calling (.boolean true))).1 =
      (Code.eval Host.absent 9 (.call default (.name "f") []) ⟨2⟩ (calling .null)).1.map
        (Value.renumber ((calling .null).renumber (calling (.boolean true)))) ∧
    (Code.eval Host.absent 9 (.call default (.name "f") []) ⟨2⟩ (calling .null)).2.frame? ⟨1⟩ =
      some ⟨⟨[("x", .null)]⟩, .child ⟨0⟩⟩ := by
  have hσ := knowsOnlyBuiltins_of_forall (σ := calling .null) (by decide) (by decide) ⟨2⟩
  have h := (isolates_run hσ).1 (.call default (.name "f") []) (by decide) 9
  refine ⟨hσ, h.outcome Host.absent Host.absent (agreesFrom_calling _ _), ?_⟩
  exact h.kept Host.absent (t := ⟨1⟩) (by decide) fun hreaches => ne_of_reaches_calling hreaches rfl

end Store

end Fexpr
