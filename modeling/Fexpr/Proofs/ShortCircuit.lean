import Mathlib.Data.List.Forall2
import Fexpr.Context
import Fexpr.Proofs.ErrorOrigin

/-!
# Short-circuit evaluation

The keywords `any` and `all` evaluate their arguments from left to right until the answer is known.
What they do is compared with evaluating the arguments of a prefix one after another, whatever
evaluation does to the store on the way. The two keywords are dual to each other.
-/

namespace Fexpr

@[simp] theorem Value.isTruthy_boolean (b : Bool) : (Value.boolean b).isTruthy = b := by
  cases b <;> rfl

namespace Builtin

variable {sought : Value → Bool} {ev : Evaluator} {s : Scope} {σ τ : Store} {arg : Code}
  {args : List Code} {v : Value} {k : Nat}

def Decides (sought : Value → Bool) (ev : Evaluator) (s : Scope) (args : List Code) (σ : Store) :
    Prop :=
  ∀ vs τ, args.mapM (ev · s) σ = (.value vs, τ) → vs.any sought = true

/-- The length of the shortest prefix that decides, or of the whole list if none does. -/
structure Needs (sought : Value → Bool) (ev : Evaluator) (s : Scope) (args : List Code) (σ : Store)
    (k : Nat) : Prop where
  le : k ≤ args.length
  before : ∀ j < k, ¬ Decides sought ev s (args.take j) σ
  here : k < args.length → Decides sought ev s (args.take k) σ

theorem not_decides_nil : ¬ Decides sought ev s [] σ := by
  intro h
  cases h [] σ rfl

theorem decides_cons_of_value (harg : ev arg s σ = (.value v, τ)) :
    Decides sought ev s (arg :: args) σ ↔ sought v = true ∨ Decides sought ev s args τ := by
  constructor
  · intro h
    by_cases hv : sought v = true
    · exact .inl hv
    · right
      intro vs τ' hvs
      have hmap : (arg :: args).mapM (ev · s) σ = (.value (v :: vs), τ') := by
        rw [List.mapM_cons, Eval.bind_of_value harg, Eval.bind_of_value hvs]
        rfl
      have hany := h _ _ hmap
      rw [List.any_cons, Bool.or_eq_true] at hany
      exact hany.resolve_left hv
  · intro h us τ' hus
    rw [List.mapM_cons, Eval.bind_of_value harg] at hus
    obtain ⟨vs, τ₁, hvs, hpure⟩ := Eval.bind_eq_value_iff.mp hus
    cases hpure
    rw [List.any_cons, Bool.or_eq_true]
    exact h.imp_right fun hrest => hrest vs τ' hvs

theorem decides_cons_of_not_value (harg : ∀ v τ, ev arg s σ ≠ (.value v, τ)) :
    Decides sought ev s (arg :: args) σ := by
  intro vs τ hvs
  rw [List.mapM_cons] at hvs
  obtain ⟨v, τ₁, hv, -⟩ := Eval.bind_eq_value_iff.mp hvs
  exact absurd hv (harg v τ₁)

theorem needs_one (h : Decides sought ev s [arg] σ) : Needs sought ev s (arg :: args) σ 1 := by
  refine ⟨by simp, ?_, fun _ => h⟩
  intro j hj
  obtain rfl : j = 0 := by omega
  exact not_decides_nil

theorem Needs.cons (harg : ev arg s σ = (.value v, τ)) (hv : sought v = false)
    (h : Needs sought ev s args τ k) : Needs sought ev s (arg :: args) σ (k + 1) := by
  obtain ⟨hle, hbefore, hhere⟩ := h
  have hrest : ∀ j, Decides sought ev s ((arg :: args).take (j + 1)) σ ↔
      Decides sought ev s (args.take j) τ := by
    intro j
    rw [List.take_succ_cons, decides_cons_of_value harg, hv]
    simp
  refine ⟨by simpa using hle, ?_, ?_⟩
  · intro j hj
    cases j with
    | zero => exact not_decides_nil
    | succ j => exact fun hdecides => hbefore j (by omega) ((hrest j).mp hdecides)
  · intro hlt
    rw [List.length_cons] at hlt
    exact (hrest k).mpr (hhere (by omega))

/-- A search does what evaluating the arguments that it needs does, and no more. -/
theorem exists_needs_search (sought : Value → Bool) (ev : Evaluator) (s : Scope) (args : List Code)
    (σ : Store) :
    ∃ k, Needs sought ev s args σ k ∧ search sought ev s args σ =
      (do
        let vs ← (args.take k).mapM (ev · s)
        return vs.any sought : Eval Bool) σ := by
  induction args generalizing σ with
  | nil =>
    refine ⟨0, ⟨Nat.le_refl 0, ?_, ?_⟩, rfl⟩
    · intro j hj
      omega
    · intro hlt
      cases hlt
  | cons arg args ih =>
    rcases harg : ev arg s σ with ⟨o, τ⟩
    cases o with
    | value v =>
      cases hv : sought v with
      | true =>
        have hone : Decides sought ev s [arg] σ := (decides_cons_of_value harg).mpr (.inl hv)
        refine ⟨1, needs_one hone, ?_⟩
        rw [search, Eval.bind_of_value harg, hv, List.take_succ_cons, List.mapM_cons, bind_assoc,
          Eval.bind_of_value harg]
        simp [Eval.pure_apply, hv]
      | false =>
        obtain ⟨k, hk, hsearch⟩ := ih τ
        refine ⟨k + 1, hk.cons harg hv, ?_⟩
        rw [search, Eval.bind_of_value harg, hv, List.take_succ_cons, List.mapM_cons, bind_assoc,
          Eval.bind_of_value harg]
        simpa [hv] using hsearch
    | error | tooDeep =>
      have hone : Decides sought ev s [arg] σ := by
        apply decides_cons_of_not_value
        intro v τ' h
        rw [harg] at h
        cases h
      refine ⟨1, needs_one hone, ?_⟩
      rw [search, List.take_succ_cons, List.mapM_cons, bind_assoc, Eval.bind_apply,
        Eval.bind_apply, harg]

theorem search_of_forall₂ {ev' : Evaluator} {g : Value → Value} {args args' : List Code}
    (h : List.Forall₂ (fun arg arg' => ev' arg' s = do return g (← ev arg s)) args args') :
    search sought ev' s args' = search (fun v => sought (g v)) ev s args := by
  induction h with
  | nil => rfl
  | cons harg _ ih =>
    rw [search, search, harg, bind_assoc, ih]
    simp only [pure_bind]

def call (b : Builtin) (table : Nat) (span : Span) (args : List Code) : Code :=
  .call span (.keyword (.builtin table b)) args

theorem run_any (ev : Evaluator) (c : Call) :
    any.run ev c = do return .boolean (← search Value.isTruthy ev c.scope c.args) :=
  Visit.run_of_accepts rfl

theorem run_all (ev : Evaluator) (c : Call) :
    all.run ev c = do return .boolean (!(← search (!·.isTruthy) ev c.scope c.args)) :=
  Visit.run_of_accepts rfl

theorem eval_call (b : Builtin) (host : Host) (n table : Nat) (span : Span) (args : List Code)
    (s : Scope) :
    (b.call table span args).eval host (n + 1) s =
      b.run (Code.eval host n) ⟨b.name, s, args, span⟩ := by
  rw [call, Code.eval]
  rfl

theorem eval_not (host : Host) (n table : Nat) (span : Span) (arg : Code) (s : Scope) :
    (not.call table span [arg]).eval host (n + 1) s =
      do return .boolean (!(← arg.eval host n s).isTruthy) := by
  rw [eval_call]
  exact Visit.run_of_accepts rfl

theorem eval_not_any_not (host : Host) (n table : Nat) (p q r : Span) {args negated : List Code}
    (h : List.Forall₂ (fun arg arg' => ∃ span, arg' = not.call table span [arg]) args negated)
    (s : Scope) :
    (not.call table p [any.call table q negated]).eval host (n + 3) s =
      (all.call table r args).eval host (n + 1) s := by
  have hsearch : search Value.isTruthy (Code.eval host (n + 1)) s negated =
      search (fun v => (Value.boolean (!v.isTruthy)).isTruthy) (Code.eval host n) s args := by
    refine search_of_forall₂ (g := fun v => .boolean (!v.isTruthy)) (h.imp ?_)
    rintro arg _ ⟨span, rfl⟩
    exact eval_not host n table span arg s
  rw [eval_not, eval_call, eval_call, run_any, run_all, hsearch]
  simp only [Value.isTruthy_boolean, bind_assoc, pure_bind]

/--
What `any` and `all` do is what evaluating the shortest prefix of their arguments does that ends in
an error or in a value that decides, or all of them if there is none. An error is passed on; otherwise
the answer is whether some value counts as true, or whether all do. `all` is the negation of `any`
of the negated arguments, with the same store at the end.
-/
theorem run_shortCircuit (ev : Evaluator) (c : Call) (σ : Store) :
    (∃ k, Needs Value.isTruthy ev c.scope c.args σ k ∧ any.run ev c σ =
      (do
        let vs ← (c.args.take k).mapM (ev · c.scope)
        return .boolean (vs.any Value.isTruthy) : Eval Value) σ) ∧
    (∃ k, Needs (!·.isTruthy) ev c.scope c.args σ k ∧ all.run ev c σ =
      (do
        let vs ← (c.args.take k).mapM (ev · c.scope)
        return .boolean (vs.all Value.isTruthy) : Eval Value) σ) ∧
    ∀ (host : Host) (n table : Nat) (p q r : Span) (negated : List Code),
      List.Forall₂ (fun arg arg' => ∃ span, arg' = not.call table span [arg]) c.args negated →
      (not.call table p [any.call table q negated]).eval host (n + 3) c.scope σ =
        (all.call table r c.args).eval host (n + 1) c.scope σ := by
  refine ⟨?_, ?_, ?_⟩
  · obtain ⟨k, hk, hsearch⟩ := exists_needs_search Value.isTruthy ev c.scope c.args σ
    refine ⟨k, hk, ?_⟩
    rw [run_any, Eval.bind_apply, hsearch, ← Eval.bind_apply, bind_assoc]
    rfl
  · obtain ⟨k, hk, hsearch⟩ := exists_needs_search (!·.isTruthy) ev c.scope c.args σ
    refine ⟨k, hk, ?_⟩
    rw [run_all, Eval.bind_apply, hsearch, ← Eval.bind_apply, bind_assoc]
    simp only [pure_bind, List.not_any_eq_all_not, Bool.not_not]
  · intro host n table p q r negated h
    rw [eval_not_any_not host n table p q r h]

def clearing : List Code :=
  [set.call 0 default [.reference default "x", .lookup default "false"], .lookup default "missing"]

def unset : Store := ⟨#[⟨Context.constants.insert "x" .null, .root (.builtins 0)⟩], #[], #[]⟩

/-- The assignment is made, and `missing` is not looked up. -/
theorem run_shortCircuit_clearing :
    List.Forall₂ (fun arg arg' => ∃ span, arg' = not.call 0 span [arg]) clearing
      (clearing.map (not.call 0 default [·])) ∧
    (not.call 0 default [any.call 0 default (clearing.map (not.call 0 default [·]))]).eval
      Host.absent 5 ⟨0⟩ unset = (all.call 0 default clearing).eval Host.absent 3 ⟨0⟩ unset ∧
    ((all.call 0 default clearing).eval Host.absent 3 ⟨0⟩ unset).1 = .value (.boolean false) := by
  have hnegated : List.Forall₂ (fun arg arg' => ∃ span, arg' = not.call 0 span [arg]) clearing
      (clearing.map (not.call 0 default [·])) := .cons ⟨_, rfl⟩ (.cons ⟨_, rfl⟩ .nil)
  refine ⟨hnegated, ?_, by decide +kernel⟩
  exact (run_shortCircuit (Code.eval Host.absent 2) ⟨"all", ⟨0⟩, clearing, default⟩ unset).2.2
    Host.absent 2 0 default default default _ hnegated

end Builtin

end Fexpr
