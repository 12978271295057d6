import Mathlib.Data.List.Basic
import Fexpr.Eval.Code

/-!
# Where errors are raised

Evaluation fails either with an error of its own or because some part fails that it evaluates on the
way. Followed from part to part, an error leads to the code that raises it, in the scope and the store
of that time.
-/

namespace Fexpr

variable {α β : Type}

namespace Eval

variable {x : Eval α} {f : α → Eval β} {σ : Store} {e : RuntimeError}

theorem bind_eq_error_iff :
    ((x >>= f) σ).1 = .error e ↔
      (x σ).1 = .error e ∨ ∃ a τ, x σ = (.value a, τ) ∧ (f a τ).1 = .error e := by
  rw [bind_apply]
  generalize x σ = r
  obtain ⟨o, τ⟩ := r
  cases o <;> simp

theorem bind_eq_value_iff {b : β} {τ : Store} :
    (x >>= f) σ = (.value b, τ) ↔ ∃ a τ₁, x σ = (.value a, τ₁) ∧ f a τ₁ = (.value b, τ) := by
  rw [bind_apply]
  generalize x σ = r
  obtain ⟨o, τ⟩ := r
  cases o <;> simp

theorem bind_of_value {a : α} {τ : Store} (h : x σ = (.value a, τ)) : (x >>= f) σ = f a τ := by
  rw [bind_apply, h]

theorem resolve_eq_error_iff {s : Scope} {n : String} {p : Span} :
    (resolve s n p σ).1 = .error e ↔ σ.lookup s n = none ∧ e = .unresolved n p := by
  rw [resolve, bind_apply, read]
  cases σ.lookup s n with
  | none => simp [fail, eq_comm]
  | some v => simp [pure_apply]

theorem mapM_store {g : α → Eval β} (hg : ∀ a σ, (g a σ).2 = σ) (l : List α)
    (σ : Store) : (l.mapM g σ).2 = σ := by
  induction l with
  | nil => rfl
  | cons a l ih =>
    have ha := hg a σ
    rw [List.mapM_cons, bind_apply]
    generalize g a σ = r at ha
    obtain ⟨o, τ⟩ := r
    obtain rfl : τ = σ := ha
    cases o with
    | value b =>
      simp only [bind_apply]
      generalize l.mapM g τ = r at ih
      obtain ⟨o, υ⟩ := r
      obtain rfl : υ = τ := ih
      cases o <;> rfl
    | error | tooDeep => rfl

end Eval

variable {ev : Evaluator} {s : Scope} {σ : Store} {e : RuntimeError}

theorem foldlM_eq_error_iff {items : List Code} {v : Value} :
    (items.foldlM (fun _ code => ev code s) v σ).1 = .error e ↔
      ∃ i item x τ, items[i]? = some item ∧
        (items.take i).foldlM (fun _ code => ev code s) v σ = (.value x, τ) ∧
        (ev item s τ).1 = .error e := by
  induction items generalizing v σ with
  | nil =>
    constructor
    · intro h
      cases h
    · rintro ⟨i, item, x, τ, hitem, -⟩
      cases hitem
  | cons code items ih =>
    rw [List.foldlM_cons, Eval.bind_eq_error_iff]
    constructor
    · rintro (h | ⟨v, τ, hcode, h⟩)
      · exact ⟨0, code, v, σ, rfl, rfl, h⟩
      · obtain ⟨i, item, x, τ', hitem, hbefore, h⟩ := ih.mp h
        refine ⟨i + 1, item, x, τ', hitem, ?_, h⟩
        rw [List.take_succ_cons, List.foldlM_cons, Eval.bind_of_value hcode, hbefore]
    · rintro ⟨i, item, x, τ, hitem, hbefore, h⟩
      cases i with
      | zero =>
        cases hitem
        cases hbefore
        exact .inl h
      | succ i =>
        rw [List.take_succ_cons, List.foldlM_cons] at hbefore
        obtain ⟨v, τ₁, hcode, hrest⟩ := Eval.bind_eq_value_iff.mp hbefore
        exact .inr ⟨v, τ₁, hcode, ih.mpr ⟨i, item, x, τ, hitem, hrest, h⟩⟩

theorem runItems_eq_error_iff {items : List Code} :
    (runItems ev s items σ).1 = .error e ↔
      ∃ i item x τ, items[i]? = some item ∧ runItems ev s (items.take i) σ = (.value x, τ) ∧
        (ev item s τ).1 = .error e :=
  foldlM_eq_error_iff

theorem Builtin.search_eq_error_iff {sought : Value → Bool} {args : List Code} :
    (search sought ev s args σ).1 = .error e ↔
      ∃ i arg τ, args[i]? = some arg ∧ search sought ev s (args.take i) σ = (.value false, τ) ∧
        (ev arg s τ).1 = .error e := by
  induction args generalizing σ with
  | nil =>
    constructor
    · intro h
      cases h
    · rintro ⟨i, arg, τ, harg, -⟩
      cases harg
  | cons code args ih =>
    rw [search, Eval.bind_eq_error_iff]
    constructor
    · rintro (h | ⟨v, τ, hcode, h⟩)
      · exact ⟨0, code, σ, rfl, rfl, h⟩
      · cases hv : sought v with
        | true =>
          rw [hv] at h
          cases h
        | false =>
          rw [hv] at h
          obtain ⟨i, arg, τ', harg, hbefore, h⟩ := ih.mp h
          refine ⟨i + 1, arg, τ', harg, ?_, h⟩
          rw [List.take_succ_cons, search, Eval.bind_of_value hcode, hv]
          exact hbefore
    · rintro ⟨i, arg, τ, harg, hbefore, h⟩
      cases i with
      | zero =>
        cases harg
        cases hbefore
        exact .inl h
      | succ i =>
        rw [List.take_succ_cons, search] at hbefore
        obtain ⟨v, τ₁, hcode, hrest⟩ := Eval.bind_eq_value_iff.mp hbefore
        refine .inr ⟨v, τ₁, hcode, ?_⟩
        cases hv : sought v with
        | true =>
          rw [hv] at hrest
          cases hrest
        | false =>
          rw [hv] at hrest
          exact ih.mpr ⟨i, arg, τ, harg, hrest, h⟩

namespace Function

variable {frame : Scope} {params : List String} {args : List Code}

def bindHead (frame : Scope) (v : Value) : List String → Eval Unit
  | [] => pure ()
  | param :: _ => Eval.declare frame param v

theorem bindHead_eq (frame : Scope) (v : Value) (params : List String) (σ : Store) :
    ∃ τ, bindHead frame v params σ = (.value (), τ) := by
  cases params <;> exact ⟨_, rfl⟩

theorem bindHead_take (i : Nat) (v : Value) :
    bindHead frame v (params.take (i + 1)) = bindHead frame v params := by
  cases params <;> rfl

theorem tail_take_succ (params : List String) (i : Nat) :
    (params.take (i + 1)).tail = params.tail.take i := by
  cases params <;> simp

theorem bindParams_cons (arg : Code) :
    bindParams ev s frame params (arg :: args) = (do
      let v ← ev arg s
      bindHead frame v params
      bindParams ev s frame params.tail args) := by
  cases params with
  | nil =>
    rw [bindParams]
    rfl
  | cons param params =>
    rw [bindParams]
    rfl

theorem bindParams_nil (params : List String) (σ : Store) :
    ∃ τ, bindParams ev s frame params [] σ = (.value (), τ) := by
  induction params generalizing σ with
  | nil =>
    rw [bindParams]
    exact ⟨σ, rfl⟩
  | cons param params ih =>
    rw [bindParams]
    exact ih (σ.declare frame param .null)

theorem bindParams_eq_error_iff :
    (bindParams ev s frame params args σ).1 = .error e ↔
      ∃ i arg τ, args[i]? = some arg ∧
        bindParams ev s frame (params.take i) (args.take i) σ = (.value (), τ) ∧
        (ev arg s τ).1 = .error e := by
  induction args generalizing params σ with
  | nil =>
    constructor
    · intro h
      obtain ⟨τ, hτ⟩ : ∃ τ, bindParams ev s frame params [] σ = (.value (), τ) :=
        bindParams_nil params σ
      rw [hτ] at h
      cases h
    · rintro ⟨i, arg, τ, harg, -⟩
      cases harg
  | cons code args ih =>
    rw [bindParams_cons, Eval.bind_eq_error_iff]
    constructor
    · rintro (h | ⟨v, τ, hcode, h⟩)
      · refine ⟨0, code, σ, rfl, ?_, h⟩
        rw [List.take_zero, List.take_zero, bindParams]
        rfl
      · obtain ⟨τ₁, hhead⟩ := bindHead_eq frame v params τ
        rw [Eval.bind_of_value hhead] at h
        obtain ⟨i, arg, τ', harg, hbefore, h⟩ := ih.mp h
        refine ⟨i + 1, arg, τ', harg, ?_, h⟩
        rw [List.take_succ_cons, bindParams_cons, Eval.bind_of_value hcode, bindHead_take,
          Eval.bind_of_value hhead, tail_take_succ]
        exact hbefore
    · rintro ⟨i, arg, τ, harg, hbefore, h⟩
      cases i with
      | zero =>
        cases harg
        rw [List.take_zero, List.take_zero, bindParams] at hbefore
        cases hbefore
        exact .inl h
      | succ i =>
        rw [List.take_succ_cons, bindParams_cons] at hbefore
        obtain ⟨v, τ₁, hcode, hrest⟩ := Eval.bind_eq_value_iff.mp hbefore
        obtain ⟨τ₂, hhead⟩ := bindHead_eq frame v params τ₁
        rw [bindHead_take, Eval.bind_of_value hhead, tail_take_succ] at hrest
        refine .inr ⟨v, τ₁, hcode, ?_⟩
        rw [Eval.bind_of_value hhead]
        exact ih.mpr ⟨i, arg, τ, harg, hrest, h⟩

end Function

namespace Call

variable {c : Call} {i : Nat} {arg : Code}

theorem eval_of_some (h : c.args[i]? = some arg) : c.eval ev i = ev arg c.scope := by
  rw [eval, evalIn, h]

theorem eval_eq_error_iff :
    (c.eval ev i σ).1 = .error e ↔
      ∃ arg, c.args[i]? = some arg ∧ (ev arg c.scope σ).1 = .error e := by
  rw [eval, evalIn]
  cases c.args[i]? with
  | none =>
    constructor
    · intro h
      cases h
    · rintro ⟨arg, harg, -⟩
      cases harg
  | some arg => simp

theorem mismatch_of_some (h : c.args[i]? = some arg) (expected : String) :
    (c.mismatch i expected (c.describe i) : Eval α) =
      Eval.fail (.mismatch c.name (i + 1) expected arg.describe arg.span) := by
  rw [mismatch, describe, h]

theorem reference_cases (h : c.args[i]? = some arg) :
    (∃ p m, arg = .reference p m ∧ c.reference i = pure m) ∨
      arg.referenceName? = none ∧
        c.reference i = Eval.fail (.mismatch c.name (i + 1) "an @reference" arg.describe arg.span) := by
  rw [reference, h, Option.bind_some]
  cases arg with
  | reference p m => exact .inl ⟨p, m, rfl, rfl⟩
  | literal | lookup | call | block => exact .inr ⟨rfl, mismatch_of_some h _⟩

theorem block_cases (h : c.args[i]? = some arg) :
    (∃ body, arg.body? = some body ∧ c.block i = pure body) ∨
      arg.body? = none ∧
        c.block i = Eval.fail (.mismatch c.name (i + 1) "a block" arg.describe arg.span) := by
  rw [block, h, Option.bind_some]
  cases arg with
  | block p items => exact .inl ⟨_, rfl, rfl⟩
  | literal | lookup | reference | call => exact .inr ⟨rfl, mismatch_of_some h _⟩

theorem reference_store (c : Call) (i : Nat) (σ : Store) : (c.reference i σ).2 = σ := by
  rw [reference]
  cases c.args[i]?.bind Code.referenceName? <;> rfl

theorem references_eq_error_iff {k : Nat} (hk : i + k ≤ c.args.length) :
    ((List.range' i k).mapM c.reference σ).1 = .error e ↔
      ∃ j arg, j < k ∧ (∀ l < j, ∃ p m, c.args[l + i]? = some (.reference p m)) ∧
        c.args[j + i]? = some arg ∧ arg.referenceName? = none ∧
        e = .mismatch c.name (j + i + 1) "an @reference" arg.describe arg.span := by
  induction k generalizing i with
  | zero =>
    constructor
    · intro h
      cases h
    · rintro ⟨j, _, hj, -⟩
      omega
  | succ k ih =>
    obtain ⟨first, hi⟩ : ∃ first, c.args[i]? = some first :=
      ⟨_, List.getElem?_eq_getElem (by omega)⟩
    rw [List.range'_succ, List.mapM_cons]
    rcases reference_cases hi with ⟨p, m, harg, href⟩ | ⟨hnone, href⟩
    · have hrest : ((c.reference i >>= fun a => (List.range' (i + 1) k).mapM c.reference >>=
          fun as => pure (a :: as)) σ).1 = .error e ↔
          ((List.range' (i + 1) k).mapM c.reference σ).1 = .error e := by
        rw [href, pure_bind, Eval.bind_eq_error_iff, or_iff_left]
        rintro ⟨_, _, _, h⟩
        cases h
      rw [hrest, ih (by omega)]
      constructor
      · rintro ⟨j, arg, hj, hbefore, h⟩
        refine ⟨j + 1, arg, by omega, ?_, ?_⟩
        · intro l hl
          cases l with
          | zero => exact ⟨p, m, by rw [Nat.zero_add, hi, harg]⟩
          | succ l =>
            rw [Nat.add_right_comm]
            exact hbefore l (by omega)
        · rw [Nat.add_right_comm]
          exact h
      · rintro ⟨j, arg, hj, hbefore, h⟩
        cases j with
        | zero =>
          obtain ⟨ha, hnone, -⟩ := h
          rw [Nat.zero_add, hi, harg] at ha
          cases ha
          cases hnone
        | succ j =>
          refine ⟨j, arg, by omega, ?_, ?_⟩
          · intro l hl
            have hbefore := hbefore (l + 1) (by omega)
            rwa [Nat.add_right_comm] at hbefore
          · rwa [Nat.add_right_comm] at h
    · rw [href]
      constructor
      · intro h
        cases h
        exact ⟨0, _, by omega, fun l hl => absurd hl (by omega), by rw [Nat.zero_add, hi], hnone,
          by rw [Nat.zero_add]⟩
      · rintro ⟨j, arg, hj, hbefore, ha, -, rfl⟩
        cases j with
        | zero =>
          rw [Nat.zero_add, hi] at ha
          cases ha
          rw [Nat.zero_add]
          rfl
        | succ j =>
          obtain ⟨p, m, hfirst⟩ := hbefore 0 (by omega)
          rw [Nat.zero_add, hi] at hfirst
          cases hfirst
          cases hnone

end Call

namespace Builtin

inductive Rejects (args : List Code) : Builtin → Nat → String → Code → Prop where
  | var {arg : Code} (harg : args[0]? = some arg) (h : arg.referenceName? = none) :
    Rejects args .var 0 "an @reference" arg
  | set {arg : Code} (harg : args[0]? = some arg) (h : arg.referenceName? = none) :
    Rejects args .set 0 "an @reference" arg
  | body {arg : Code} (harg : args[0]? = some arg) (h : arg.body? = none) :
    Rejects args .function 0 "a block" arg
  | param {body arg : Code} {i : Nat} (hbody : args[0]? = some body) (hblock : body.body?.isSome)
    (hbefore : ∀ j, j < i → ∃ p m, args[j + 1]? = some (.reference p m))
    (harg : args[i + 1]? = some arg) (h : arg.referenceName? = none) :
    Rejects args .function (i + 1) "an @reference" arg

inductive Reads (ev : Evaluator) (c : Call) (σ : Store) : Builtin → Nat → Store → Prop where
  | var {p : Span} {m : String} (h : c.args[0]? = some (.reference p m)) : Reads ev c σ .var 1 σ
  | set {p : Span} {m : String} (h : c.args[0]? = some (.reference p m)) : Reads ev c σ .set 1 σ
  | test : Reads ev c σ .cond 0 σ
  | yes {v : Value} {τ : Store} (h : c.eval ev 0 σ = (.value v, τ)) (hv : v.isTruthy = true) :
    Reads ev c σ .cond 1 τ
  | no {v : Value} {τ : Store} (h : c.eval ev 0 σ = (.value v, τ)) (hv : v.isTruthy = false) :
    Reads ev c σ .cond 2 τ
  | left : Reads ev c σ .eq 0 σ
  | right {v : Value} {τ : Store} (h : c.eval ev 0 σ = (.value v, τ)) : Reads ev c σ .eq 1 τ
  | not : Reads ev c σ .not 0 σ
  | any {i : Nat} {τ : Store}
    (h : search Value.isTruthy ev c.scope (c.args.take i) σ = (.value false, τ)) :
    Reads ev c σ .any i τ
  | all {i : Nat} {τ : Store}
    (h : search (!·.isTruthy) ev c.scope (c.args.take i) σ = (.value false, τ)) :
    Reads ev c σ .all i τ

inductive Fails (ev : Evaluator) (c : Call) (σ : Store) : Builtin → RuntimeError → Prop where
  | rejects {b : Builtin} {i : Nat} {expected : String} {arg : Code}
    (h : Rejects c.args b i expected arg) :
    Fails ev c σ b (.mismatch c.name (i + 1) expected arg.describe arg.span)
  | unbound {p : Span} {m : String} {value : Code} {x : Value} {τ : Store}
    (hargs : c.args = [.reference p m, value]) (hvalue : ev value c.scope σ = (.value x, τ))
    (h : τ.binder? c.scope m = none) : Fails ev c σ .set (.unresolved m c.span)
  | argument {b : Builtin} {i : Nat} {arg : Code} {τ : Store} {e : RuntimeError}
    (hreads : Reads ev c σ b i τ) (harg : c.args[i]? = some arg)
    (h : (ev arg c.scope τ).1 = .error e) : Fails ev c σ b e

variable {c : Call}

theorem Fails.of_eval {b : Builtin} {i : Nat} {τ : Store} (hreads : Reads ev c σ b i τ)
    (h : (c.eval ev i τ).1 = .error e) : Fails ev c σ b e := by
  obtain ⟨arg, harg, h⟩ := Call.eval_eq_error_iff.mp h
  exact .argument hreads harg h

theorem Fails.of_search {b : Builtin} {sought : Value → Bool}
    (hreads : ∀ i τ, search sought ev c.scope (c.args.take i) σ = (.value false, τ) →
      Reads ev c σ b i τ)
    (h : (search sought ev c.scope c.args σ).1 = .error e) : Fails ev c σ b e := by
  obtain ⟨i, arg, τ, harg, hbefore, h⟩ := search_eq_error_iff.mp h
  exact .argument (hreads i τ hbefore) harg h

theorem assign_eq_error_iff {m : String} {v : Value} {err : RuntimeError} :
    ((do if ← Eval.assign s m v then return v else Eval.fail err : Eval Value) σ).1 = .error e ↔
      σ.binder? s m = none ∧ e = err := by
  rw [Eval.bind_apply, Eval.assign, Store.assign?]
  cases σ.binder? s m with
  | none => simp [Eval.fail, eq_comm]
  | some t => simp [Eval.pure_apply]

theorem least_le {a : Arity} {n : Nat} (h : a.accepts n = true) : a.least ≤ n := by
  rw [Arity.accepts, Bool.and_eq_true, decide_eq_true_eq] at h
  exact h.1

theorem length_eq_of_exactly {m n : Nat} (h : (Arity.exactly m).accepts n = true) : n = m := by
  rw [Arity.exactly, Arity.accepts, Bool.and_eq_true, decide_eq_true_eq, decide_eq_true_eq] at h
  exact Nat.le_antisymm h.2 h.1

theorem fails_of_apply {b : Builtin} (haccepts : b.arity.accepts c.args.length = true)
    (h : (b.apply ev c σ).1 = .error e) : Fails ev c σ b e := by
  cases b with
  | var =>
    obtain ⟨arg, harg⟩ : ∃ arg, c.args[0]? = some arg :=
      ⟨_, List.getElem?_eq_getElem (least_le haccepts)⟩
    rcases Call.reference_cases harg with ⟨p, m, rfl, href⟩ | ⟨hnone, href⟩
    · rw [apply, href, pure_bind, Eval.bind_eq_error_iff] at h
      rcases h with h | ⟨v, τ, hv, h⟩
      · exact .of_eval (.var harg) h
      · cases h
    · rw [apply, href] at h
      cases h
      exact .rejects (.var harg hnone)
  | set =>
    obtain ⟨arg, value, hargs⟩ := List.length_eq_two.mp (length_eq_of_exactly haccepts)
    have harg : c.args[0]? = some arg := by rw [hargs]; rfl
    have hvalue : c.args[1]? = some value := by rw [hargs]; rfl
    rcases Call.reference_cases harg with ⟨p, m, rfl, href⟩ | ⟨hnone, href⟩
    · rw [apply, href, pure_bind, Eval.bind_eq_error_iff] at h
      rcases h with h | ⟨x, τ, hx, h⟩
      · exact .of_eval (.set harg) h
      · rw [Call.eval_of_some hvalue] at hx
        obtain ⟨hbinder, rfl⟩ := assign_eq_error_iff.mp h
        exact .unbound hargs hx hbinder
    · rw [apply, href] at h
      cases h
      exact .rejects (.set harg hnone)
  | cond =>
    rw [apply, Eval.bind_eq_error_iff] at h
    rcases h with h | ⟨v, τ, hv, h⟩
    · exact .of_eval .test h
    · cases htruthy : v.isTruthy with
      | true =>
        rw [htruthy] at h
        exact .of_eval (.yes hv htruthy) h
      | false =>
        rw [htruthy] at h
        exact .of_eval (.no hv htruthy) h
  | function =>
    have hlength : 1 ≤ c.args.length := least_le haccepts
    obtain ⟨arg, harg⟩ : ∃ arg, c.args[0]? = some arg := ⟨_, List.getElem?_eq_getElem hlength⟩
    rcases Call.block_cases harg with ⟨body, hbody, hblock⟩ | ⟨hnone, hblock⟩
    · rw [apply, hblock, pure_bind, Call.referencesFrom, Eval.bind_eq_error_iff] at h
      rcases h with h | ⟨params, τ, _, h⟩
      · obtain ⟨j, param, -, hbefore, hparam, hnone, rfl⟩ :=
          (Call.references_eq_error_iff (by omega)).mp h
        exact .rejects (.param harg (by rw [hbody]; rfl) hbefore hparam hnone)
      · cases h
    · rw [apply, hblock] at h
      cases h
      exact .rejects (.body harg hnone)
  | eq =>
    rw [apply, Eval.bind_eq_error_iff] at h
    rcases h with h | ⟨v, τ, hv, h⟩
    · exact .of_eval .left h
    · rw [Eval.bind_eq_error_iff] at h
      rcases h with h | ⟨_, _, _, h⟩
      · exact .of_eval (.right hv) h
      · cases h
  | not =>
    rw [apply, Eval.bind_eq_error_iff] at h
    rcases h with h | ⟨v, τ, hv, h⟩
    · exact .of_eval .not h
    · cases h
  | any =>
    rw [apply, Eval.bind_eq_error_iff] at h
    rcases h with h | ⟨v, τ, hv, h⟩
    · exact .of_search (fun _ _ => .any) h
    · cases h
  | all =>
    rw [apply, Eval.bind_eq_error_iff] at h
    rcases h with h | ⟨v, τ, hv, h⟩
    · exact .of_search (fun _ _ => .all) h
    · cases h

theorem Rejects.apply_eq {b : Builtin} {i : Nat} {expected : String} {arg : Code}
    (h : Rejects c.args b i expected arg) :
    b.apply ev c σ =
      (.error (.mismatch c.name (i + 1) expected arg.describe arg.span), σ) := by
  cases h with
  | var harg hnone | set harg hnone =>
    rcases Call.reference_cases harg with ⟨p, m, rfl, -⟩ | ⟨-, href⟩
    · cases hnone
    · rw [Builtin.apply, href]
      rfl
  | body harg hnone =>
    rcases Call.block_cases harg with ⟨body, hbody, -⟩ | ⟨-, hblock⟩
    · rw [hnone] at hbody
      cases hbody
    · rw [Builtin.apply, hblock]
      rfl
  | @param body arg i hbody hblock hbefore harg hnone =>
    have hlt : i + 1 < c.args.length := (List.getElem?_eq_some_iff.mp harg).1
    -- the references before the one that is none are read, which leaves the store alone
    have hparams : (List.range' 1 (c.args.length - 1)).mapM c.reference σ =
        (.error (.mismatch c.name (i + 1 + 1) "an @reference" arg.describe arg.span), σ) := by
      refine Prod.ext ?_ (Eval.mapM_store c.reference_store _ σ)
      exact (Call.references_eq_error_iff (by omega)).mpr
        ⟨i, arg, by omega, hbefore, harg, hnone, rfl⟩
    rcases Call.block_cases hbody with ⟨body, -, heq⟩ | ⟨hnot, -⟩
    · rw [Builtin.apply, heq, pure_bind, Call.referencesFrom, Eval.bind_apply, hparams]
    · rw [hnot] at hblock
      cases hblock

theorem Reads.apply {b : Builtin} {i : Nat} {arg : Code} {τ : Store} (h : Reads ev c σ b i τ)
    (harg : c.args[i]? = some arg) (he : (ev arg c.scope τ).1 = .error e) :
    (b.apply ev c σ).1 = .error e := by
  have heval : (c.eval ev i τ).1 = .error e := by rwa [Call.eval_of_some harg]
  cases h with
  | var hname | set hname =>
    rcases Call.reference_cases hname with ⟨p, m, -, href⟩ | ⟨hnone, -⟩
    · rw [Builtin.apply, href, pure_bind, Eval.bind_eq_error_iff]
      exact .inl heval
    · cases hnone
  | test | left | not =>
    rw [Builtin.apply, Eval.bind_eq_error_iff]
    exact .inl heval
  | yes hv htruthy | no hv htruthy =>
    rw [Builtin.apply, Eval.bind_of_value hv, htruthy]
    exact heval
  | right hv =>
    rw [Builtin.apply, Eval.bind_of_value hv, Eval.bind_eq_error_iff]
    exact .inl heval
  | any hbefore | all hbefore =>
    rw [Builtin.apply, Eval.bind_eq_error_iff, search_eq_error_iff]
    exact .inl ⟨i, arg, τ, harg, hbefore, he⟩

theorem apply_eq_error_iff {b : Builtin} (haccepts : b.arity.accepts c.args.length = true) :
    (b.apply ev c σ).1 = .error e ↔ Fails ev c σ b e := by
  constructor
  · exact fails_of_apply haccepts
  · intro h
    cases h with
    | rejects h => exact congrArg Prod.fst h.apply_eq
    | argument hreads harg h => exact hreads.apply harg h
    | @unbound p m value x τ hargs hvalue h =>
      have hname : c.args[0]? = some (.reference p m) := by rw [hargs]; rfl
      have hlast : c.args[1]? = some value := by rw [hargs]; rfl
      rcases Call.reference_cases hname with ⟨_, _, heq, href⟩ | ⟨hnone, -⟩
      · cases heq
        rw [apply, href, pure_bind, Call.eval_of_some hlast, Eval.bind_of_value hvalue]
        exact assign_eq_error_iff.mpr ⟨h, rfl⟩
      · cases hnone

end Builtin

structure Visit where
  code : Code
  scope : Scope
  store : Store

def Store.callable (σ : Store) : Value → Bool
  | .keyword _ => true
  | .function i => (σ.function? i).isSome
  | _ => false

namespace Visit

inductive Runs : Visit → Keyword → Call → Prop where
  | keyword {p : Span} {k : Keyword} {args : List Code} {s : Scope} {σ : Store} :
    Runs ⟨.call p (.keyword k) args, s, σ⟩ k ⟨k.name, s, args, p⟩
  | name {p : Span} {n : String} {k : Keyword} {args : List Code} {s : Scope} {σ : Store}
    (h : σ.lookup s n = some (.keyword k)) :
    Runs ⟨.call p (.name n) args, s, σ⟩ k ⟨k.name, s, args, p⟩

inductive Enters : Visit → Function → List Code → Prop where
  | name {p : Span} {n : String} {j : Nat} {f : Function} {args : List Code} {s : Scope} {σ : Store}
    (h : σ.lookup s n = some (.function j)) (hf : σ.function? j = some f) :
    Enters ⟨.call p (.name n) args, s, σ⟩ f args

/-- Errors that code raises itself. A keyword of the embedding program raises what it fails with. -/
inductive Raises (I : Interpreter) (host : Host) : Visit → RuntimeError → Prop where
  | lookup {p : Span} {n : String} {s : Scope} {σ : Store} (h : σ.lookup s n = none) :
    Raises I host ⟨.lookup p n, s, σ⟩ (.unresolved n p)
  | reference {p : Span} {n : String} {s : Scope} {σ : Store} (h : σ.lookup s n = none) :
    Raises I host ⟨.reference p n, s, σ⟩ (.unresolved n p)
  | callee {p : Span} {n : String} {args : List Code} {s : Scope} {σ : Store}
    (h : σ.lookup s n = none) : Raises I host ⟨.call p (.name n) args, s, σ⟩ (.unresolved n p)
  | notCallable {p : Span} {n : String} {args : List Code} {s : Scope} {σ : Store} {w : Value}
    (h : σ.lookup s n = some w) (hw : σ.callable w = false) :
    Raises I host ⟨.call p (.name n) args, s, σ⟩ (.notCallable n w.typeName p)
  | arity {v : Visit} {table : Nat} {b : Builtin} {c : Call} (hv : v.Runs (.builtin table b) c)
    (h : b.arity.accepts c.args.length = false) :
    Raises I host v (.arity b.name b.arity c.args.length c.span)
  | mismatch {v : Visit} {table : Nat} {b : Builtin} {c : Call} {i : Nat} {expected : String}
    {arg : Code} (hv : v.Runs (.builtin table b) c)
    (haccepts : b.arity.accepts c.args.length = true) (h : b.Rejects c.args i expected arg) :
    Raises I host v (.mismatch b.name (i + 1) expected arg.describe arg.span)
  | set {v : Visit} {table : Nat} {c : Call} {p : Span} {m : String} {value : Code} {x : Value}
    {τ : Store} (hv : v.Runs (.builtin table .set) c) (hargs : c.args = [.reference p m, value])
    (hvalue : I.eval value c.scope v.store = (.value x, τ)) (h : τ.binder? c.scope m = none) :
    Raises I host v (.unresolved m c.span)
  | host {v : Visit} {id : Nat} {name : String} {c : Call} {e : RuntimeError}
    (hv : v.Runs (.host id name) c) (h : (host id I c v.store).1 = .error e) : Raises I host v e

/-- Parts that are evaluated on the way: items of a block, arguments of a keyword, arguments of a
function and items of its body. -/
inductive Leads (ev : Evaluator) : Visit → Visit → Prop where
  | item {p : Span} {items : List Code} {s : Scope} {σ τ : Store} {i : Nat} {item : Code} {x : Value}
    (hitem : items[i]? = some item)
    (h : runItems ev ⟨σ.frames.size⟩ (items.take i) (σ.addChild s).2 = (.value x, τ)) :
    Leads ev ⟨.block p items, s, σ⟩ ⟨item, ⟨σ.frames.size⟩, τ⟩
  | argument {v : Visit} {table : Nat} {b : Builtin} {c : Call} {i : Nat} {arg : Code} {τ : Store}
    (hv : v.Runs (.builtin table b) c) (haccepts : b.arity.accepts c.args.length = true)
    (harg : c.args[i]? = some arg) (h : b.Reads ev c v.store i τ) : Leads ev v ⟨arg, c.scope, τ⟩
  | param {v : Visit} {f : Function} {args : List Code} {i : Nat} {arg : Code} {τ : Store}
    (hv : v.Enters f args) (harg : args[i]? = some arg)
    (h : Function.bindParams ev v.scope ⟨v.store.frames.size⟩ (f.params.take i) (args.take i)
      (v.store.addChild f.captured).2 = (.value (), τ)) : Leads ev v ⟨arg, v.scope, τ⟩
  | body {v : Visit} {f : Function} {args : List Code} {i : Nat} {item : Code} {x : Value}
    {τ τ' : Store} (hv : v.Enters f args)
    (hparams : Function.bindParams ev v.scope ⟨v.store.frames.size⟩ f.params args
      (v.store.addChild f.captured).2 = (.value (), τ)) (hitem : f.body.items[i]? = some item)
    (h : runItems ev ⟨v.store.frames.size⟩ (f.body.items.take i) τ = (.value x, τ')) :
    Leads ev v ⟨item, ⟨v.store.frames.size⟩, τ'⟩

variable {I : Interpreter} {host : Host} {v w : Visit} {c : Call} {f : Function} {args : List Code}

theorem evalStep_name {p : Span} {n : String} {w : Value} (h : σ.lookup s n = some w) :
    I.evalStep host (.call p (.name n) args) s σ = I.invokeStep host w ⟨n, s, args, p⟩ σ := by
  rw [Interpreter.evalStep, Eval.bind_apply, Eval.resolve, Eval.bind_apply, Eval.read, h]
  rfl

theorem Runs.evalStep_builtin {table : Nat} {b : Builtin} (h : v.Runs (.builtin table b) c) :
    I.evalStep host v.code v.scope v.store = b.run I.eval c v.store := by
  cases h with
  | keyword => rfl
  | name h => exact evalStep_name h

theorem Runs.evalStep_host {id : Nat} {name : String} (h : v.Runs (.host id name) c) :
    I.evalStep host v.code v.scope v.store = host id I c v.store := by
  cases h with
  | keyword => rfl
  | name h => exact evalStep_name h

theorem Enters.evalStep (h : v.Enters f args) :
    I.evalStep host v.code v.scope v.store =
      (Function.bindParams I.eval v.scope ⟨v.store.frames.size⟩ f.params args >>= fun _ =>
        runItems I.eval ⟨v.store.frames.size⟩ f.body.items) (v.store.addChild f.captured).2 := by
  cases h with
  | name h hf =>
    rw [evalStep_name h, Interpreter.invokeStep, Eval.bind_apply, Eval.read, hf]
    rfl

theorem run_of_accepts {b : Builtin} (h : b.arity.accepts c.args.length = true) :
    b.run ev c = b.apply ev c := by
  rw [Builtin.run, Call.checkArity, if_pos h, pure_bind]

theorem run_of_not_accepts {b : Builtin} (h : b.arity.accepts c.args.length = false) :
    b.run ev c σ = (.error (.arity c.name b.arity c.args.length c.span), σ) := by
  rw [Builtin.run, Call.checkArity, h]
  rfl

theorem Runs.name_eq {k : Keyword} (h : v.Runs k c) : c.name = k.name := by
  cases h <;> rfl

theorem invokeStep_of_not_callable {w : Value} (h : σ.callable w = false) :
    I.invokeStep host w c σ = (.error (.notCallable c.name w.typeName c.span), σ) := by
  cases w with
  | keyword k => cases h
  | function i =>
    rw [Store.callable, Option.isSome_eq_false_iff, Option.isNone_iff_eq_none] at h
    rw [Interpreter.invokeStep, Eval.bind_apply, Eval.read, h]
    rfl
  | null | number | string | boolean | host => rfl

theorem Raises.evalStep (h : v.Raises I host e) :
    (I.evalStep host v.code v.scope v.store).1 = .error e := by
  cases h with
  | lookup h | reference h => exact Eval.resolve_eq_error_iff.mpr ⟨h, rfl⟩
  | callee h =>
    rw [Interpreter.evalStep, Eval.bind_eq_error_iff]
    exact .inl (Eval.resolve_eq_error_iff.mpr ⟨h, rfl⟩)
  | notCallable h hw => rw [evalStep_name h, invokeStep_of_not_callable hw]
  | arity hv h =>
    rw [hv.evalStep_builtin, run_of_not_accepts h, hv.name_eq]
    rfl
  | mismatch hv haccepts h =>
    rw [hv.evalStep_builtin, run_of_accepts haccepts, h.apply_eq, hv.name_eq]
    rfl
  | @set _ table c p m value x τ hv hargs hvalue h =>
    have haccepts : Builtin.set.arity.accepts c.args.length = true := by rw [hargs]; rfl
    rw [hv.evalStep_builtin, run_of_accepts haccepts, Builtin.apply_eq_error_iff haccepts]
    exact .unbound hargs hvalue h
  | host hv h => rw [hv.evalStep_host, h]

theorem Leads.evalStep (h : v.Leads I.eval w)
    (hw : (I.eval w.code w.scope w.store).1 = .error e) :
    (I.evalStep host v.code v.scope v.store).1 = .error e := by
  cases h with
  | item hitem h => exact runItems_eq_error_iff.mpr ⟨_, _, _, _, hitem, h, hw⟩
  | argument hv haccepts harg h =>
    rw [hv.evalStep_builtin, run_of_accepts haccepts]
    exact h.apply harg hw
  | param hv harg h =>
    rw [hv.evalStep, Eval.bind_eq_error_iff]
    exact .inl (Function.bindParams_eq_error_iff.mpr ⟨_, _, _, harg, h, hw⟩)
  | body hv hparams hitem h =>
    rw [hv.evalStep, Eval.bind_of_value hparams]
    exact runItems_eq_error_iff.mpr ⟨_, _, _, _, hitem, h, hw⟩

theorem Runs.raises_or_leads {k : Keyword} (hv : v.Runs k c)
    (h : (I.evalStep host v.code v.scope v.store).1 = .error e) :
    v.Raises I host e ∨
      ∃ w, v.Leads I.eval w ∧ (I.eval w.code w.scope w.store).1 = .error e := by
  cases k with
  | host id name =>
    rw [hv.evalStep_host] at h
    exact .inl (.host hv h)
  | builtin table b =>
    have hname : c.name = b.name := hv.name_eq
    rw [hv.evalStep_builtin] at h
    cases haccepts : b.arity.accepts c.args.length with
    | false =>
      rw [run_of_not_accepts haccepts, hname] at h
      cases h
      exact .inl (.arity hv haccepts)
    | true =>
      rw [run_of_accepts haccepts, Builtin.apply_eq_error_iff haccepts] at h
      cases h with
      | rejects h =>
        rw [hname]
        exact .inl (.mismatch hv haccepts h)
      | unbound hargs hvalue h => exact .inl (.set hv hargs hvalue h)
      | argument hreads harg h => exact .inr ⟨_, .argument hv haccepts harg hreads, h⟩

theorem Enters.leads (hv : v.Enters f args)
    (h : (I.evalStep host v.code v.scope v.store).1 = .error e) :
    ∃ w, v.Leads I.eval w ∧ (I.eval w.code w.scope w.store).1 = .error e := by
  rw [hv.evalStep, Eval.bind_eq_error_iff] at h
  rcases h with h | ⟨_, τ, hparams, h⟩
  · obtain ⟨i, arg, τ, harg, hbefore, h⟩ := Function.bindParams_eq_error_iff.mp h
    exact ⟨_, .param hv harg hbefore, h⟩
  · obtain ⟨i, item, x, τ', hitem, hbefore, h⟩ := runItems_eq_error_iff.mp h
    exact ⟨_, .body hv hparams hitem hbefore, h⟩

/-- A step that fails raises the error itself, or leads to a part that fails with it. -/
theorem raises_or_leads (h : (I.evalStep host v.code v.scope v.store).1 = .error e) :
    v.Raises I host e ∨
      ∃ w, v.Leads I.eval w ∧ (I.eval w.code w.scope w.store).1 = .error e := by
  obtain ⟨code, s, σ⟩ := v
  cases code with
  | literal p l => cases h
  | lookup p n =>
    obtain ⟨hn, rfl⟩ := Eval.resolve_eq_error_iff.mp h
    exact .inl (.lookup hn)
  | reference p n =>
    obtain ⟨hn, rfl⟩ := Eval.resolve_eq_error_iff.mp h
    exact .inl (.reference hn)
  | block p items =>
    obtain ⟨i, item, x, τ, hitem, hbefore, h⟩ := runItems_eq_error_iff.mp h
    exact .inr ⟨_, .item hitem hbefore, h⟩
  | call p callee args =>
    cases callee with
    | keyword k => exact Runs.raises_or_leads .keyword h
    | name n =>
      cases hn : σ.lookup s n with
      | none =>
        have hraises : Raises I host ⟨.call p (.name n) args, s, σ⟩ (.unresolved n p) := .callee hn
        rw [hraises.evalStep] at h
        cases h
        exact .inl hraises
      | some w =>
        cases hw : σ.callable w with
        | false =>
          rw [evalStep_name hn, invokeStep_of_not_callable hw] at h
          cases h
          exact .inl (.notCallable hn hw)
        | true =>
          cases w with
          | keyword k => exact Runs.raises_or_leads (.name hn) h
          | function j =>
            obtain ⟨f, hf⟩ := Option.isSome_iff_exists.mp hw
            exact .inr (Enters.leads (.name hn hf) h)
          | null | number | string | boolean | host => cases hw

inductive FailsAt (host : Host) (e : RuntimeError) : Nat → Visit → Visit → Prop where
  | here {n : Nat} {v : Visit} (h : v.Raises ⟨Code.eval host n, Value.invoke host n⟩ host e) :
    FailsAt host e (n + 1) v v
  | there {n : Nat} {v w u : Visit} (h : v.Leads (Code.eval host n) w)
    (hw : FailsAt host e n w u) : FailsAt host e (n + 1) v u

/-- Evaluation fails exactly if it leads to code that raises the error. -/
theorem eval_eq_error_iff {n : Nat} :
    (v.code.eval host n v.scope v.store).1 = .error e ↔ ∃ u, FailsAt host e n v u := by
  constructor
  · intro h
    -- function bodies are no parts of the call, so the induction is on the depth and not on code
    induction n generalizing v with
    | zero => cases h
    | succ n ih =>
      rw [Code.eval] at h
      rcases raises_or_leads h with h | ⟨w, hw, h⟩
      · exact ⟨v, .here h⟩
      · obtain ⟨u, hu⟩ := ih h
        exact ⟨u, .there hw hu⟩
  · rintro ⟨u, h⟩
    induction h with
    | here h =>
      rw [Code.eval]
      exact h.evalStep
    | there h _ ih =>
      rw [Code.eval]
      exact h.evalStep ih

end Visit

end Fexpr
