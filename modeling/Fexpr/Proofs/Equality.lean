import Fexpr.Context
import Fexpr.Proofs.EffectFree
import Fexpr.Proofs.PrintedNumbers
import Fexpr.Proofs.ShortCircuit

/-!
# Equality of values

Two values are equal if they are the same up to the sign of a zero, and not not-a-number. Nothing
that a value shows depends on the sign of a zero, so equal values cannot be told apart by it; and
null, booleans, strings and finite numbers are told apart by their texts.

If the arguments of `eq` have no effect, then their order does not matter. A function that one of
them makes is equal to nothing that the other gives, in either order.
-/

namespace Fexpr

variable {σ τ : Store}

namespace Number

theorem unsignedZero_eq_nan_iff {n : Number} : n.unsignedZero = nan ↔ n = nan := by
  cases n <;> simp [unsignedZero]

theorem equal_iff {m n : Number} :
    m.equal n ↔ m.unsignedZero ≠ nan ∧ m.unsignedZero = n.unsignedZero := by
  rw [Ne, unsignedZero_eq_nan_iff]
  cases m with
  | nan => simp [equal]
  | infinity a => cases n <;> simp [equal, unsignedZero]
  | finite a r =>
    cases n with
    | nan | infinity => simp [equal, unsignedZero]
    | finite b s => simp [equal_iff_unsignedZero (m := finite a r) (n := finite b s) rfl rfl]

end Number

namespace Value

variable {a b c : Value}

def unsignedZero : Value → Value
  | number n => .number n.unsignedZero
  | v => v

theorem unsignedZero_eq_nan_iff : a.unsignedZero = .number .nan ↔ a = .number .nan := by
  cases a <;> simp [unsignedZero, Number.unsignedZero_eq_nan_iff]

theorem equal_iff :
    a.equal b ↔ a.unsignedZero ≠ .number .nan ∧ a.unsignedZero = b.unsignedZero := by
  cases a with
  | number m => cases b <;> simp [equal, unsignedZero, Number.equal_iff]
  | null | string | boolean | function | keyword | host =>
    cases b <;> simp [equal, unsignedZero]

theorem equal_self_iff : a.equal a ↔ a ≠ .number .nan := by
  rw [equal_iff, Ne, unsignedZero_eq_nan_iff]
  exact and_iff_left rfl

theorem equal_symm (h : a.equal b) : b.equal a := by
  obtain ⟨hnan, hsame⟩ := equal_iff.mp h
  exact equal_iff.mpr ⟨hsame ▸ hnan, hsame.symm⟩

theorem equal_comm (a b : Value) : a.equal b = b.equal a :=
  Bool.eq_iff_iff.mpr ⟨equal_symm, equal_symm⟩

theorem equal_trans (hab : a.equal b) (hbc : b.equal c) : a.equal c := by
  rw [equal_iff] at hab hbc ⊢
  exact ⟨hab.1, hab.2.trans hbc.2⟩

theorem eq_of_equal {α : Type} {f : Value → α} (hf : ∀ v : Value, f v.unsignedZero = f v)
    (h : a.equal b) : f a = f b := by
  rw [← hf a, ← hf b, (equal_iff.mp h).2]

theorem typeName_unsignedZero (v : Value) : v.unsignedZero.typeName = v.typeName := by
  cases v <;> rfl

theorem isTruthy_unsignedZero (v : Value) : v.unsignedZero.isTruthy = v.isTruthy := by
  cases v <;> rfl

theorem display_unsignedZero (σ : Store) (v : Value) : σ.display v.unsignedZero = σ.display v := by
  cases v with
  | number n => exact n.display_unsignedZero
  | null | string | boolean | function | keyword | host => rfl

theorem debug_unsignedZero (σ : Store) (v : Value) : σ.debug v.unsignedZero = σ.debug v := by
  cases v with
  | number n => exact n.display_unsignedZero
  | null | string | boolean | function | keyword | host => rfl

theorem knows_unsignedZero (σ : Store) (v : Value) : σ.Knows v.unsignedZero = σ.Knows v := by
  cases v <;> rfl

/-- Let what comes out as `b` in one store come out as `v` in a later one. If that is a new function
each time, then it equals nothing that the later store knows. -/
theorem equal_iff_of_known? {v : Value} (ha : τ.Knows a) (hv : τ.known? v = σ.known? b) :
    a.equal v ↔ σ.Knows a ∧ σ.Knows b ∧ a.equal b := by
  have hknows : ∀ {υ : Store} {w : Value}, a.equal w → (υ.Knows a ↔ υ.Knows w) :=
    fun h => iff_of_eq (eq_of_equal (knows_unsignedZero _) h)
  by_cases hb : σ.Knows b
  · rw [Store.known?_eq_some_iff.mpr ⟨hb, rfl⟩] at hv
    obtain ⟨-, rfl⟩ := Store.known?_eq_some_iff.mp hv
    constructor
    · exact fun h => ⟨(hknows h).mpr hb, hb, h⟩
    · exact fun h => h.2.2
  · rw [Store.known?_eq_none_iff.mpr hb] at hv
    have hnew := Store.known?_eq_none_iff.mp hv
    constructor
    · exact fun h => absurd ((hknows h).mp ha) hnew
    · exact fun h => absurd h.2.1 hb

inductive SameKind : Value → Value → Prop where
  | null : SameKind .null .null
  | boolean (a b : Bool) : SameKind (.boolean a) (.boolean b)
  | string (a b : String) : SameKind (.string a) (.string b)
  | number {m n : Number} (hm : m.isFinite) (hn : n.isFinite) : SameKind (.number m) (.number n)

theorem SameKind.equal_of_display (h : a.SameKind b) (hdisplay : σ.display a = σ.display b) :
    a.equal b := by
  cases h with
  | null => rfl
  | boolean a b =>
    cases a <;> cases b
    · rfl
    · simp [Store.display] at hdisplay
    · simp [Store.display] at hdisplay
    · rfl
  | string a b => exact beq_iff_eq.mpr hdisplay
  | number hm hn => exact (Number.display_eq_iff hm hn).mp hdisplay

end Value

def Outcome.Fails {α : Type} (o : Outcome α) : Prop := ∀ a, o ≠ .value a

theorem Outcome.fails_or_value {α : Type} (o : Outcome α) : o.Fails ∨ ∃ a, o = .value a := by
  by_cases h : ∃ a, o = .value a
  · exact .inr h
  · exact .inl fun a ha => h ⟨a, ha⟩

theorem Outcome.Fails.eq_of_map {α β : Type} {f g : α → β} {o o' : Outcome α} (h : o.Fails)
    (hmap : o'.map g = o.map f) : o' = o := by
  cases o with
  | value a => exact absurd rfl (h a)
  | error e =>
    cases o' with
    | error e' => cases hmap; rfl
    | value | tooDeep => cases hmap
  | tooDeep =>
    cases o' with
    | tooDeep => rfl
    | value | error => cases hmap

theorem Eval.bind_of_fst {α β : Type} {x : Eval α} {f : α → Eval β} {a : α}
    (h : (x σ).1 = .value a) : (x >>= f) σ = f a (x σ).2 :=
  bind_of_value (Prod.ext h rfl)

theorem Eval.bind_of_fails {α : Type} {x : Eval α} {f : α → Eval α} (h : (x σ).1.Fails) :
    (x >>= f) σ = x σ := by
  rw [bind_apply]
  generalize x σ = r at h
  obtain ⟨o, τ⟩ := r
  cases o with
  | value a => exact absurd rfl (h a)
  | error e => rfl
  | tooDeep => rfl

namespace Code.EffectFree

variable {host : Host} {n : Nat} {s : Scope} {x : Code} {a : Value}

theorem fails (hx : x.EffectFree host n s σ) (hkeeps : σ.Keeps τ)
    (h : (x.eval host n s σ).1.Fails) : (x.eval host n s τ).1 = (x.eval host n s σ).1 :=
  h.eq_of_map (hx.same hkeeps)

theorem value (hx : x.EffectFree host n s σ) (hkeeps : σ.Keeps τ)
    (h : (x.eval host n s σ).1 = .value a) :
    ∃ v, (x.eval host n s τ).1 = .value v ∧ τ.known? v = σ.known? a := by
  have hsame := hx.same hkeeps
  rw [h] at hsame
  exact Outcome.map_eq_value_iff.mp hsame

end Code.EffectFree

namespace Builtin

variable {host : Host} {n : Nat} {s : Scope} {x y : Code} {a b : Value}

theorem eval_eq (host : Host) (n table : Nat) (p : Span) (x y : Code) (s : Scope) :
    (eq.call table p [x, y]).eval host (n + 1) s = do
      let a ← x.eval host n s
      let b ← y.eval host n s
      return .boolean (a.equal b) := by
  rw [eval_call]
  exact Visit.run_of_accepts rfl

theorem eval_eq_of_values (hx : x.EffectFree host n s σ) (hy : y.EffectFree host n s σ)
    (ha : (x.eval host n s σ).1 = .value a) (hb : (y.eval host n s σ).1 = .value b)
    (table : Nat) (p : Span) :
    ∃ answer : Bool, (answer ↔ σ.Knows a ∧ σ.Knows b ∧ a.equal b) ∧
      ((eq.call table p [x, y]).eval host (n + 1) s σ).1 = .value (.boolean answer) := by
  have hkeeps := hx.keeps (.refl σ)
  obtain ⟨v, hv, hknown⟩ := hy.value hkeeps hb
  refine ⟨a.equal v, Value.equal_iff_of_known? (hx.knows (.refl σ) ha) hknown, ?_⟩
  rw [eval_eq, Eval.bind_of_fst ha, Eval.bind_of_fst hv]
  rfl

theorem eval_eq_of_fails (hx : x.EffectFree host n s σ) (hy : y.EffectFree host n s σ)
    (h : (x.eval host n s σ).1.Fails ∨ (y.eval host n s σ).1.Fails) (table : Nat) (p : Span) :
    ((eq.call table p [x, y]).eval host (n + 1) s σ).1.Fails ∧
      ((eq.call table p [x, y]).eval host (n + 1) s σ).1 ∈
        [(x.eval host n s σ).1, (y.eval host n s σ).1] := by
  rw [eval_eq]
  obtain hfails | ⟨a, ha⟩ := (x.eval host n s σ).1.fails_or_value
  · rw [Eval.bind_of_fails hfails]
    exact ⟨hfails, List.mem_cons_self⟩
  · have hfails := h.resolve_left fun hnot => hnot a ha
    have hsame := hy.fails (hx.keeps (.refl σ)) hfails
    rw [Eval.bind_of_fst ha, Eval.bind_of_fails (hsame ▸ hfails), hsame]
    exact ⟨hfails, List.mem_cons_of_mem _ List.mem_cons_self⟩

/--
How comparison comes out in both orders, and its negation, for arguments that come out as `x` and
`y`: with the same answer, or else with the failure of an argument.
-/
structure Comparison (σ : Store) (x y forth back negated : Outcome Value) : Prop where
  values : ∀ {a b : Value}, x = .value a → y = .value b → ∃ answer : Bool,
    (answer ↔ σ.Knows a ∧ σ.Knows b ∧ a.equal b) ∧ forth = .value (.boolean answer) ∧
    back = .value (.boolean answer) ∧ negated = .value (.boolean !answer)
  failures : x.Fails ∨ y.Fails → forth.Fails ∧ back.Fails ∧ negated = forth ∧
    forth ∈ [x, y] ∧ back ∈ [x, y]

theorem comparison (hx : x.EffectFree host n s σ) (hy : y.EffectFree host n s σ) (table : Nat)
    (p q r : Span) :
    Comparison σ (x.eval host n s σ).1 (y.eval host n s σ).1
      ((eq.call table p [x, y]).eval host (n + 1) s σ).1
      ((eq.call table q [y, x]).eval host (n + 1) s σ).1
      ((not.call table r [eq.call table p [x, y]]).eval host (n + 2) s σ).1 where
  values := by
    intro a b ha hb
    obtain ⟨answer, hanswer, hforth⟩ := eval_eq_of_values hx hy ha hb table p
    obtain ⟨answer', hanswer', hback⟩ := eval_eq_of_values hy hx hb ha table q
    obtain rfl : answer' = answer := by
      rw [Bool.eq_iff_iff, hanswer', hanswer, Value.equal_comm b a]
      exact ⟨fun h => ⟨h.2.1, h.1, h.2.2⟩, fun h => ⟨h.2.1, h.1, h.2.2⟩⟩
    refine ⟨answer', hanswer, hforth, hback, ?_⟩
    rw [eval_not, Eval.bind_of_fst hforth, Value.isTruthy_boolean]
    rfl
  failures := by
    intro h
    obtain ⟨hforth, hcause⟩ := eval_eq_of_fails hx hy h table p
    obtain ⟨hback, hcause'⟩ := eval_eq_of_fails hy hx h.symm table q
    refine ⟨hforth, hback, ?_, hcause, (List.Perm.swap _ _ _).mem_iff.mp hcause'⟩
    rw [eval_not, Eval.bind_of_fails hforth]

end Builtin

/--
Equality holds between a value and itself unless it is not-a-number, in both directions or in none,
and from the first to the third of three values if it holds along them. Equal values have the same
type name, count as the same truth value and have the same texts; null, booleans, strings and finite
numbers with the same text are equal. So for arguments without effects, the order does not matter
to `eq`, and `not` negates it; if an argument fails, then so do all three. Within the language,
arguments are such if evaluating them once changes nothing.
-/
theorem Value.equal_sound :
    (∀ a : Value, a.equal a ↔ a ≠ .number .nan) ∧
    (∀ a b : Value, a.equal b = b.equal a) ∧
    (∀ a b c : Value, a.equal b → b.equal c → a.equal c) ∧
    (∀ (σ : Store) (a b : Value), a.equal b → a.typeName = b.typeName ∧
      a.isTruthy = b.isTruthy ∧ σ.display a = σ.display b ∧ σ.debug a = σ.debug b) ∧
    (∀ (σ : Store) (a b : Value), a.SameKind b → σ.display a = σ.display b → a.equal b) ∧
    (∀ (host : Host) (n : Nat) (s : Scope) (σ : Store) (x y : Code),
      x.EffectFree host n s σ → y.EffectFree host n s σ → ∀ (table : Nat) (p q r : Span),
      Builtin.Comparison σ (x.eval host n s σ).1 (y.eval host n s σ).1
        ((Builtin.eq.call table p [x, y]).eval host (n + 1) s σ).1
        ((Builtin.eq.call table q [y, x]).eval host (n + 1) s σ).1
        ((Builtin.not.call table r [Builtin.eq.call table p [x, y]]).eval host (n + 2) s σ).1) ∧
    (∀ (host : Host) (n : Nat) (s : Scope) (σ : Store) (x : Code), x.OnlyBuiltins →
      σ.WellFormed → σ.Has s → σ.KnowsOnlyBuiltins s →
      (x.EffectFree host n s σ ↔ σ.Keeps (x.eval host n s σ).2)) := by
  refine ⟨fun _ => equal_self_iff, equal_comm, fun _ _ _ => equal_trans, ?_, ?_, ?_, ?_⟩
  · intro σ a b h
    exact ⟨eq_of_equal typeName_unsignedZero h, eq_of_equal isTruthy_unsignedZero h,
      eq_of_equal (display_unsignedZero σ) h, eq_of_equal (debug_unsignedZero σ) h⟩
  · exact fun _ _ _ h => h.equal_of_display
  · exact fun _ _ _ _ _ _ hx hy => Builtin.comparison hx hy
  · exact fun _ _ _ _ _ hx hσ hs hknows => Code.effectFree_iff hx hσ hs hknows

def Code.making : Code := Builtin.function.call 0 default [.block default []]

def Code.comparing : Code := Builtin.eq.call 0 default [.making, .making]

def Store.outermost : Store := ((Context.builtin 0).newScope .empty).2

/-- The two zeros are equal and have the same text. Two functions that are made alike are not equal,
in either order. -/
theorem Value.equal_sound_making :
    (number (.ofRank false 0)).equal (number (.ofRank true 0)) ∧
    Store.outermost.display (number (.ofRank false 0)) =
      Store.outermost.display (number (.ofRank true 0)) ∧
    Code.making.EffectFree Host.absent 3 ⟨0⟩ Store.outermost ∧
    (Code.comparing.eval Host.absent 4 ⟨0⟩ Store.outermost).1 = .value (.boolean false) ∧
    ((Builtin.not.call 0 default [.comparing]).eval Host.absent 5 ⟨0⟩ Store.outermost).1 =
      .value (.boolean true) := by
  have hzeros : (number (.ofRank false 0)).equal (number (.ofRank true 0)) := by decide
  have hwf : Store.outermost.WellFormed := by
    have hmade : (Context.builtin 0).Made Store.empty.Knows := .ofKeywords _
    apply Store.WellFormed.empty.addFrame
    · rintro p ⟨⟩
    · exact hmade.nodup_names
    · exact hmade.known trivial fun _ => trivial
  have hkeeps : Store.outermost.Keeps (Code.making.eval Host.absent 3 ⟨0⟩ Store.outermost).2 := by
    refine ⟨id, fun hf => ?_, rfl⟩
    cases hf
  have hbuiltins : Code.making.OnlyBuiltins := show ∀ k ∈ _, _ by decide
  have hknows := Store.knowsOnlyBuiltins_of_forall (σ := Store.outermost) (by decide) (by decide)
  obtain ⟨-, -, -, hshown, -, hcomparison, heffectFree⟩ := equal_sound
  have hmaking := (heffectFree Host.absent 3 ⟨0⟩ _ _ hbuiltins hwf (by decide) (hknows _)).mpr hkeeps
  obtain ⟨answer, hanswer, hforth, -, hnegated⟩ :=
    (hcomparison _ _ _ _ _ _ hmaking hmaking 0 default default default).values rfl rfl
  obtain rfl : answer = false := by
    rw [Bool.eq_false_iff, Ne, hanswer]
    exact fun h => Nat.not_lt_zero _ h.1
  exact ⟨hzeros, (hshown _ _ _ hzeros).2.2.1, hmaking, hforth, hnegated⟩

end Fexpr
