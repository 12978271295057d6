import Mathlib.Data.Nat.Basic
import Mathlib.Order.Basic
import Fexpr.Proofs.ReachableStore

/-!
# Evaluation without effects

Code has no effect if evaluation gives a value and leaves all that is there as it was, whatever else
has been made in the meantime. New frames and functions are no effect, for nothing that was there
leads to them. Within the language itself, one run that changes nothing is enough: in a store that
holds more, code does the same, with its new frames and functions in other places.
-/

namespace Fexpr

namespace Store

structure Keeps (σ τ : Store) : Prop where
  frame : ∀ {s : Scope} {f : Frame}, σ.frame? s = some f → τ.frame? s = some f
  function : ∀ {i : Nat} {f : Function}, σ.function? i = some f → τ.function? i = some f
  journal : τ.journal = σ.journal

/-- Frames that are made after one store has got more than another have places of their own in
each. -/
def placeIn (σ τ : Store) (s : Scope) : Scope :=
  if s.index < σ.frames.size then s else ⟨τ.frames.size + (s.index - σ.frames.size)⟩

variable {σ τ υ : Store} {s t : Scope}

theorem Keeps.refl (σ : Store) : σ.Keeps σ := ⟨id, id, rfl⟩

theorem Keeps.grows (h : σ.Keeps τ) : σ.Grows τ := by
  constructor
  · by_contra hlt
    have hnext : σ.frame? ⟨τ.frames.size⟩ = some _ :=
      Array.getElem?_eq_getElem (Nat.lt_of_not_le hlt)
    exact Nat.lt_irrefl _ (lt_size_of_frame? (h.frame hnext))
  · by_contra hlt
    have hnext : σ.function? τ.functions.size = some _ :=
      Array.getElem?_eq_getElem (Nat.lt_of_not_le hlt)
    exact Nat.lt_irrefl _ (Array.getElem?_eq_some_iff.mp (h.function hnext)).1

theorem index_placeIn (σ τ : Store) (s : Scope) :
    (σ.placeIn τ s).index =
      if s.index < σ.frames.size then s.index else τ.frames.size + (s.index - σ.frames.size) := by
  rw [placeIn]
  split <;> rfl

theorem placeIn_of_has (hs : σ.Has s) : σ.placeIn τ s = s := if_pos hs

theorem placeIn_new (hs : σ.frames.size ≤ s.index) :
    σ.placeIn τ s = ⟨τ.frames.size + (s.index - σ.frames.size)⟩ := if_neg (Nat.not_lt.mpr hs)

theorem placeIn_lt (h : σ.Grows τ) (hst : s.index < t.index) :
    (σ.placeIn τ s).index < (σ.placeIn τ t).index := by
  have hle := h.frames
  rw [index_placeIn, index_placeIn]
  split <;> split <;> omega

theorem placeIn_inj (h : σ.Grows τ) (hst : σ.placeIn τ s = σ.placeIn τ t) : s = t := by
  obtain ⟨i⟩ := s
  obtain ⟨j⟩ := t
  rcases Nat.lt_trichotomy i j with hlt | rfl | hlt
  · have := placeIn_lt (s := ⟨i⟩) (t := ⟨j⟩) h hlt
    rw [hst] at this
    omega
  · rfl
  · have := placeIn_lt (s := ⟨j⟩) (t := ⟨i⟩) h hlt
    rw [hst] at this
    omega

theorem renumber_inj (h : σ.Grows τ) {i j : Nat} (hij : σ.renumber τ i = σ.renumber τ j) :
    i = j := by
  have hle := h.functions
  rw [renumber, renumber] at hij
  split at hij <;> split at hij <;> omega

theorem renumber_of_knows {v : Value} (h : σ.Knows v) : v.renumber (σ.renumber τ) = v := by
  cases v with
  | function i => exact congrArg Value.function (if_pos h)
  | null | number | string | boolean | keyword | host => rfl

def known? (σ : Store) : Value → Option Value
  | .function i => if i < σ.functions.size then some (.function i) else none
  | v => some v

theorem known?_eq_some_iff {v w : Value} : σ.known? v = some w ↔ σ.Knows v ∧ v = w := by
  cases v <;> simp [known?, Knows]

theorem known?_eq_none_iff {v : Value} : σ.known? v = none ↔ ¬ σ.Knows v := by
  cases v <;> simp [known?, Knows]

theorem knows_renumber {σ' τ' : Store} {v : Value} (h : σ.Grows τ)
    (hgrown : σ.functions.size ≤ σ'.functions.size)
    (hsize : τ'.functions.size = σ.renumber τ σ'.functions.size) :
    τ'.Knows (v.renumber (σ.renumber τ)) ↔ σ'.Knows v := by
  cases v with
  | function i =>
    have hle := h.functions
    change σ.renumber τ i < τ'.functions.size ↔ i < σ'.functions.size
    rw [hsize, renumber_new hgrown, renumber]
    split <;> omega
  | null | number | string | boolean | keyword | host => exact Iff.rfl

theorem known?_renumber (h : σ.Grows τ) (v : Value) :
    τ.known? (v.renumber (σ.renumber τ)) = σ.known? v := by
  have hsize : τ.functions.size = σ.renumber τ σ.functions.size := by
    rw [renumber_new (Nat.le_refl _), Nat.sub_self, Nat.add_zero]
  have hknows : τ.Knows (v.renumber (σ.renumber τ)) ↔ σ.Knows v :=
    knows_renumber h (Nat.le_refl _) hsize
  by_cases hv : σ.Knows v
  · rw [known?_eq_some_iff.mpr ⟨hv, rfl⟩]
    exact known?_eq_some_iff.mpr ⟨hknows.mpr hv, renumber_of_knows hv⟩
  · rw [known?_eq_none_iff.mpr hv]
    exact known?_eq_none_iff.mpr (mt hknows.mp hv)

end Store

namespace Outcome

variable {α β γ : Type} {f : α → β} {g : β → γ} {o : Outcome α}

theorem map_map : (o.map f).map g = o.map (g ∘ f) := by
  cases o <;> rfl

theorem map_eq_value_iff {b : β} : o.map f = .value b ↔ ∃ a, o = .value a ∧ f a = b := by
  cases o <;> simp [map]

end Outcome

namespace Store.Keeps

variable {σ τ : Store} {s : Scope}

def relocation (h : σ.Keeps τ) (s : Scope) : Relocation where
  view := σ.viewFrom s
  place := σ.placeIn τ
  number := σ.renumber τ
  place_inj _ _ := placeIn_inj h.grows
  number_inj _ _ := renumber_inj h.grows

theorem stores (h : σ.Keeps τ) (hσ : σ.WellFormed) (hknows : σ.KnowsOnlyBuiltins s) :
    (h.relocation s).Stores σ τ := by
  refine ⟨.viewFrom hknows, ?_, ?_, ?_, ?_, ?_⟩
  · intro t _
    change τ.frame? (σ.placeIn τ t) = _
    cases hf : σ.frame? t with
    | none =>
      have hge : σ.frames.size ≤ t.index := Array.getElem?_eq_none_iff.mp hf
      rw [placeIn_new hge]
      exact Array.getElem?_eq_none (Nat.le_add_right _ _)
    | some f =>
      rw [placeIn_of_has (lt_size_of_frame? hf), h.frame hf, Option.map_some,
        Relocation.transfer_eq_self]
      · exact fun v hv => renumber_of_knows (hσ.known hf hv)
      · exact fun p ho => placeIn_of_has (hσ.has_parent hf ho)
  · intro i _
    change τ.function? (σ.renumber τ i) = _
    cases hf : σ.function? i with
    | none =>
      have hge : σ.functions.size ≤ i := Array.getElem?_eq_none_iff.mp hf
      rw [renumber_new hge]
      exact Array.getElem?_eq_none (Nat.le_add_right _ _)
    | some f =>
      have hlt : i < σ.functions.size := (Array.getElem?_eq_some_iff.mp hf).1
      have hcaptured : σ.placeIn τ f.captured = f.captured := placeIn_of_has (hσ.captured hf)
      rw [renumber, if_pos hlt, h.function hf, Option.map_some, Function.move]
      exact congrArg (fun s => some { f with captured := s }) hcaptured.symm
  · intro t p f _ hf ho
    have hlt := hσ.parent hf ho
    exact iff_of_true hlt (placeIn_lt h.grows hlt)
  · intro i
    change σ.placeIn τ _ = _
    rw [placeIn_new (Nat.le_add_right _ _), Nat.add_sub_cancel_left]
  · intro i
    change σ.renumber τ _ = _
    rw [renumber_new (Nat.le_add_right _ _), Nat.add_sub_cancel_left]

end Store.Keeps

theorem Relocation.Ran.keeps {R : Relocation} {own : Scope → Prop} {s : Scope} {σ τ : Store}
    {r r' : Outcome Value × Store} (hran : R.Ran own s σ τ r r') (hστ : R.Stores σ τ)
    (h : σ.Keeps r.2) : τ.Keeps r'.2 := by
  refine ⟨?_, hran.right.function, hran.right.journal⟩
  intro u f hf
  by_cases hu : R.Image u
  · obtain ⟨t, ht, rfl⟩ := hu
    rw [hστ.frame ht] at hf
    obtain ⟨g, hg, rfl⟩ := Option.map_eq_some_iff.mp hf
    rw [hran.stores.frame ht, h.frame hg, Option.map_some]
  · exact hran.right.frame hu hf

namespace Code

variable {x y : Code} {host : Host} {n : Nat} {s : Scope} {σ τ : Store} {v : Value}

theorem eval_of_keeps (host : Host) (n : Nat) (hx : x.OnlyBuiltins) (hσ : σ.WellFormed)
    (hs : σ.Has s) (hknows : σ.KnowsOnlyBuiltins s) (hkeeps : σ.Keeps τ) :
    (x.eval host n s τ).1 = (x.eval host n s σ).1.map (Value.renumber (σ.renumber τ)) ∧
    (σ.Keeps (x.eval host n s σ).2 → τ.Keeps (x.eval host n s τ).2) ∧
    (x.eval host n s τ).2.functions.size =
      σ.renumber τ (x.eval host n s σ).2.functions.size ∧
    σ.functions.size ≤ (x.eval host n s σ).2.functions.size := by
  have hstores := hkeeps.stores hσ hknows
  have hran := hstores.eval (fun _ => True) host host n hx Store.viewFrom_self trivial
  rw [show (hkeeps.relocation s).place s = s from Store.placeIn_of_has hs] at hran
  exact ⟨hran.outcome, hran.keeps hstores, (hran.stores.next_function 0).symm,
    hran.left.grows.functions⟩

theorem knows_eval (hx : x.OnlyBuiltins) (hσ : σ.WellFormed) (hs : σ.Has s)
    (hknows : σ.KnowsOnlyBuiltins s) (h : (x.eval host n s σ).1 = .value v) :
    (x.eval host n s σ).2.Knows v := by
  -- keywords of an embedding program are not called, so there might as well be none
  have hran := (Relocation.stores_refl (.viewFrom hknows)).eval (fun _ => True) host Host.absent n hx
    Store.viewFrom_self trivial
  have houtcome := hran.outcome
  rw [h] at houtcome
  have hsize : (x.eval host n s σ).2.functions.size = (x.eval Host.absent n s σ).2.functions.size :=
    hran.stores.next_function 0
  have hsafe := ((Host.lawful_absent σ).tame n).eval x (.refl σ) hσ hs
  have hknown := hsafe.result v (houtcome.trans (congrArg Outcome.value v.renumber_id))
  cases v with
  | function i => exact Nat.lt_of_lt_of_eq hknown hsize.symm
  | null | number | string | boolean | keyword | host => trivial

/--
Evaluation changes nothing, also after more has been made, and it comes out the same every time,
but that a function which it makes is a new one each time.
-/
structure EffectFree (host : Host) (n : Nat) (s : Scope) (σ : Store) (x : Code) : Prop where
  keeps : ∀ {τ : Store}, σ.Keeps τ → τ.Keeps (x.eval host n s τ).2
  knows : ∀ {τ : Store} {v : Value}, σ.Keeps τ → (x.eval host n s τ).1 = .value v →
    (x.eval host n s τ).2.Knows v
  same : ∀ {τ : Store}, σ.Keeps τ →
    (x.eval host n s τ).1.map τ.known? = (x.eval host n s σ).1.map σ.known?

/-- Within the language, it is enough that one evaluation changes nothing. -/
theorem effectFree_iff (hx : x.OnlyBuiltins) (hσ : σ.WellFormed) (hs : σ.Has s)
    (hknows : σ.KnowsOnlyBuiltins s) :
    x.EffectFree host n s σ ↔ σ.Keeps (x.eval host n s σ).2 := by
  constructor
  · exact fun h => h.keeps (.refl σ)
  · intro hkept
    refine ⟨?_, ?_, ?_⟩
    · intro τ hkeeps
      exact (eval_of_keeps host n hx hσ hs hknows hkeeps).2.1 hkept
    · intro τ v hkeeps heval
      obtain ⟨houtcome, -, hsize, hgrown⟩ := eval_of_keeps host n hx hσ hs hknows hkeeps
      rw [heval] at houtcome
      obtain ⟨a, ha, rfl⟩ := Outcome.map_eq_value_iff.mp houtcome.symm
      exact (Store.knows_renumber hkeeps.grows hgrown hsize).mpr
        (knows_eval hx hσ hs hknows ha)
    · intro τ hkeeps
      rw [(eval_of_keeps host n hx hσ hs hknows hkeeps).1, Outcome.map_map]
      exact congrArg (Outcome.map · _) (funext (Store.known?_renumber hkeeps.grows))

end Code

end Fexpr
