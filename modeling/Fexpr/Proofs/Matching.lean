import Mathlib.Data.List.Forall2
import Mathlib.Order.Defs.PartialOrder
import Fexpr.Eval.Code
import Fexpr.Proofs.LoweredCode

/-!
# Two runs side by side

A matching says which names, places, keywords, scopes and functions of one run stand for those of
another. Scopes and functions are matched in a world, which grows when both runs make new ones. It
carries over to trees, code, values and errors, and matched trees are lowered to matched code. A
simulation matches stores too, in such a way that single steps on them keep the match.
-/

namespace Fexpr

structure Matching (W : Type) where
  span : Span → Span → Prop
  name : String → String → Prop
  keyword : Keyword → Keyword → Prop
  scope : W → Scope → Scope → Prop
  function : W → Nat → Nat → Prop

namespace Matching

variable {W : Type} (M : Matching W)

inductive Trees : Expr → Expr → Prop where
  | literal {p p' : Span} (hp : M.span p p') (l : Literal) :
    Trees (.literal p l) (.literal p' l)
  | lookup {p p' : Span} {n n' : String} (hp : M.span p p') (hn : M.name n n') :
    Trees (.lookup p n) (.lookup p' n')
  | reference {p p' : Span} {n n' : String} (hp : M.span p p') (hn : M.name n n') :
    Trees (.reference p n) (.reference p' n')
  | invocation {p p' : Span} {e e' : Expr} {args args' : List Expr} (hp : M.span p p')
    (he : Trees e e') (hargs : List.Forall₂ Trees args args') :
    Trees (.invocation p e args) (.invocation p' e' args')
  | block {p p' : Span} {items items' : List Expr} (hp : M.span p p')
    (hitems : List.Forall₂ Trees items items') :
    Trees (.block p items) (.block p' items')

inductive Callees : Callee → Callee → Prop where
  | keyword {k k' : Keyword} (hk : M.keyword k k') : Callees (.keyword k) (.keyword k')
  | name {n n' : String} (hn : M.name n n') : Callees (.name n) (.name n')

inductive Codes : Code → Code → Prop where
  | literal {p p' : Span} (hp : M.span p p') (l : Literal) :
    Codes (.literal p l) (.literal p' l)
  | lookup {p p' : Span} {n n' : String} (hp : M.span p p') (hn : M.name n n') :
    Codes (.lookup p n) (.lookup p' n')
  | reference {p p' : Span} {n n' : String} (hp : M.span p p') (hn : M.name n n') :
    Codes (.reference p n) (.reference p' n')
  | call {p p' : Span} {c c' : Callee} {args args' : List Code} (hp : M.span p p')
    (hc : M.Callees c c') (hargs : List.Forall₂ Codes args args') :
    Codes (.call p c args) (.call p' c' args')
  | block {p p' : Span} {items items' : List Code} (hp : M.span p p')
    (hitems : List.Forall₂ Codes items items') :
    Codes (.block p items) (.block p' items')

structure BodiesBy (code : Code → Code → Prop) (b b' : Body) : Prop where
  items : List.Forall₂ code b.items b'.items
  span : M.span b.span b'.span

abbrev Bodies : Body → Body → Prop := M.BodiesBy M.Codes

inductive Values (w : W) : Value → Value → Prop where
  | null : Values w .null .null
  | number (x : Number) : Values w (.number x) (.number x)
  | string (s : String) : Values w (.string s) (.string s)
  | boolean (b : Bool) : Values w (.boolean b) (.boolean b)
  | function {i i' : Nat} (hi : M.function w i i') : Values w (.function i) (.function i')
  | keyword {k k' : Keyword} (hk : M.keyword k k') : Values w (.keyword k) (.keyword k')
  | host (o : HostObject) : Values w (.host o) (.host o)

structure Functions (w : W) (f f' : Function) : Prop where
  params : List.Forall₂ M.name f.params f'.params
  body : M.Bodies f.body f'.body
  captured : M.scope w f.captured f'.captured

/-- Errors of the language itself; those of an embedding program are not matched. -/
inductive Errors : RuntimeError → RuntimeError → Prop where
  | unresolved {n n' : String} {p p' : Span} (hn : M.name n n') (hp : M.span p p') :
    Errors (.unresolved n p) (.unresolved n' p')
  | notCallable {n n' : String} {p p' : Span} (hn : M.name n n') (found : String)
    (hp : M.span p p') : Errors (.notCallable n found p) (.notCallable n' found p')
  | arity {p p' : Span} (keyword : String) (expected : Arity) (got : Nat) (hp : M.span p p') :
    Errors (.arity keyword expected got p) (.arity keyword expected got p')
  | mismatch {p p' : Span} (keyword : String) (position : Nat) (expected found : String)
    (hp : M.span p p') :
    Errors (.mismatch keyword position expected found p)
      (.mismatch keyword position expected found p')

inductive Outcomes {α β : Type} (V : α → β → Prop) : Outcome α → Outcome β → Prop where
  | value {a : α} {b : β} (h : V a b) : Outcomes V (.value a) (.value b)
  | error {e e' : RuntimeError} (h : M.Errors e e') : Outcomes V (.error e) (.error e')
  | tooDeep : Outcomes V .tooDeep .tooDeep

def Tables (kw kw' : Keywords) : Prop :=
  ∀ n n', M.name n n' → Option.Rel M.keyword (kw.find? n) (kw'.find? n')

section

variable {M} {kw kw' : Keywords}

theorem Trees.callee {e e' : Expr} {c : Callee} (hkw : M.Tables kw kw') (h : M.Trees e e')
    (hc : e.callee kw = .ok c) : ∃ c', e'.callee kw' = .ok c' ∧ M.Callees c c' := by
  cases h with
  | @lookup p p' n n' _ hn =>
    have hk := hkw n n' hn
    rw [Expr.callee] at hc ⊢
    generalize kw.find? n = k at hk hc
    generalize kw'.find? n' = k' at hk
    cases hk with
    | none => cases hc; exact ⟨_, rfl, .name hn⟩
    | some hk => cases hc; exact ⟨_, rfl, .keyword hk⟩
  | reference _ hn => cases hc; exact ⟨_, rfl, .name hn⟩
  | literal | invocation | block => cases hc

mutual

theorem Trees.lower (hkw : M.Tables kw kw') : ∀ {e e' : Expr} {c : Code}, M.Trees e e' →
    e.lower kw = .ok c → ∃ c', e'.lower kw' = .ok c' ∧ M.Codes c c'
  | .literal _ _, _, _, .literal hp l, h => by
    cases h
    exact ⟨_, rfl, .literal hp l⟩
  | .lookup _ _, _, _, .lookup hp hn, h => by
    cases h
    exact ⟨_, rfl, .lookup hp hn⟩
  | .reference _ _, _, _, .reference hp hn, h => by
    cases h
    exact ⟨_, rfl, .reference hp hn⟩
  | .invocation _ e args, _, _, .invocation hp he hargs, h => by
    obtain ⟨callee, cs, hcallee, hcs, rfl⟩ := Expr.lower_invocation_eq_ok_iff.mp h
    obtain ⟨callee', hcallee', hcc⟩ := he.callee hkw hcallee
    obtain ⟨cs', hcs', hall⟩ := Trees.lowerAll hkw args hargs hcs
    exact ⟨_, Expr.lower_invocation_eq_ok_iff.mpr ⟨callee', cs', hcallee', hcs', rfl⟩,
      .call hp hcc hall⟩
  | .block _ items, _, _, .block hp hitems, h => by
    obtain ⟨cs, hcs, rfl⟩ := Expr.lower_block_eq_ok_iff.mp h
    obtain ⟨cs', hcs', hall⟩ := Trees.lowerAll hkw items hitems hcs
    exact ⟨_, Expr.lower_block_eq_ok_iff.mpr ⟨cs', hcs', rfl⟩, .block hp hall⟩

theorem Trees.lowerAll (hkw : M.Tables kw kw') : ∀ (es : List Expr) {es' : List Expr}
    {cs : List Code}, List.Forall₂ M.Trees es es' → Expr.lowerAll kw es = .ok cs →
    ∃ cs', Expr.lowerAll kw' es' = .ok cs' ∧ List.Forall₂ M.Codes cs cs'
  | [], _, _, .nil, h => by
    cases h
    exact ⟨[], rfl, .nil⟩
  | e :: es, _, _, .cons he hes, h => by
    obtain ⟨c, cs, hc, hcs, rfl⟩ := List.forall₂_cons_left_iff.mp (Expr.lowerAll_eq_ok_iff.mp h)
    obtain ⟨c', hc', hcc⟩ := Trees.lower hkw he hc
    obtain ⟨cs', hcs', hall⟩ := Trees.lowerAll hkw es hes (Expr.lowerAll_eq_ok_iff.mpr hcs)
    exact ⟨c' :: cs', Expr.lowerAll_eq_ok_iff.mpr
      (.cons hc' (Expr.lowerAll_eq_ok_iff.mp hcs')), .cons hcc hall⟩

end

theorem Trees.lowerProgram {e e' : Expr} {body : Body} (hkw : M.Tables kw kw')
    (hspan : M.span e.span e'.span) (hitems : List.Forall₂ M.Trees e.topLevel e'.topLevel)
    (h : e.lowerProgram kw = .ok body) :
    ∃ body', e'.lowerProgram kw' = .ok body' ∧ M.Bodies body body' := by
  obtain ⟨hcs, hbody⟩ := Expr.lowerProgram_eq_ok_iff.mp h
  obtain ⟨cs', hcs', hall⟩ := Trees.lowerAll hkw _ hitems hcs
  refine ⟨⟨cs', e'.span⟩, Expr.lowerProgram_eq_ok_iff.mpr ⟨hcs', rfl⟩, hall, ?_⟩
  rw [hbody]
  exact hspan

mutual

theorem Trees.refl (hspan : ∀ p, M.span p p) (hname : ∀ n, M.name n n) : ∀ e : Expr, M.Trees e e
  | .literal p l => .literal (hspan p) l
  | .lookup p n => .lookup (hspan p) (hname n)
  | .reference p n => .reference (hspan p) (hname n)
  | .invocation p e args =>
    .invocation (hspan p) (Trees.refl hspan hname e) (Trees.refl_list hspan hname args)
  | .block p items => .block (hspan p) (Trees.refl_list hspan hname items)

theorem Trees.refl_list (hspan : ∀ p, M.span p p) (hname : ∀ n, M.name n n) :
    ∀ es : List Expr, List.Forall₂ M.Trees es es
  | [] => .nil
  | e :: es => .cons (Trees.refl hspan hname e) (Trees.refl_list hspan hname es)

end

end

end Matching

/-- A matching of stores that single steps keep. Only built-in keywords are matched, and identities
are told apart alike. -/
structure Simulation (W : Type) [Preorder W] extends Matching W where
  store : W → Store → Store → Prop
  scope_mono : ∀ {w w' : W} {s s' : Scope}, w ≤ w' → scope w s s' → scope w' s s'
  function_mono : ∀ {w w' : W} {i i' : Nat}, w ≤ w' → function w i i' → function w' i i'
  keyword_builtin : ∀ {k k' : Keyword}, keyword k k' →
    ∃ table table' b, k = .builtin table b ∧ k' = .builtin table' b
  keyword_inj : ∀ {k k' l l' : Keyword}, keyword k k' → keyword l l' → (k = l ↔ k' = l')
  function_inj : ∀ {w : W} {i i' j j' : Nat}, function w i i' → function w j j' →
    (i = j ↔ i' = j')
  lookup : ∀ {w : W} {σ τ : Store} {s s' : Scope} {n n' : String}, store w σ τ → scope w s s' →
    name n n' → Option.Rel (toMatching.Values w) (σ.lookup s n) (τ.lookup s' n')
  binder : ∀ {w : W} {σ τ : Store} {s s' : Scope} {n n' : String}, store w σ τ → scope w s s' →
    name n n' → Option.Rel (scope w) (σ.binder? s n) (τ.binder? s' n')
  declare : ∀ {w : W} {σ τ : Store} {s s' : Scope} {n n' : String} {v v' : Value}, store w σ τ →
    scope w s s' → name n n' → toMatching.Values w v v' →
    store w (σ.declare s n v) (τ.declare s' n' v')
  addChild : ∀ {w : W} {σ τ : Store} {s s' : Scope}, store w σ τ → scope w s s' →
    ∃ w', w ≤ w' ∧ scope w' (σ.addChild s).1 (τ.addChild s').1 ∧
      store w' (σ.addChild s).2 (τ.addChild s').2
  function? : ∀ {w : W} {σ τ : Store} {i i' : Nat}, store w σ τ → function w i i' →
    Option.Rel (toMatching.Functions w) (σ.function? i) (τ.function? i')
  addFunction : ∀ {w : W} {σ τ : Store} {f f' : Function}, store w σ τ →
    toMatching.Functions w f f' →
    ∃ w', w ≤ w' ∧ toMatching.Values w' (σ.addFunction f).1 (τ.addFunction f').1 ∧
      store w' (σ.addFunction f).2 (τ.addFunction f').2

end Fexpr
