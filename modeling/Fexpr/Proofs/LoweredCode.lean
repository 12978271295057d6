import Mathlib.Data.List.Forall2
import Fexpr.Program

/-!
# What expressions are lowered to
-/

namespace Fexpr

namespace Code

mutual

def keywords : Code → List Keyword
  | literal _ _ | lookup _ _ | reference _ _ => []
  | call _ (.keyword k) args => k :: keywordsAll args
  | call _ (.name _) args => keywordsAll args
  | block _ items => keywordsAll items

def keywordsAll : List Code → List Keyword
  | [] => []
  | c :: cs => keywords c ++ keywordsAll cs

end

theorem mem_keywordsAll {k : Keyword} {cs : List Code} :
    k ∈ keywordsAll cs ↔ ∃ c ∈ cs, k ∈ c.keywords := by
  induction cs with
  | nil => simp [keywordsAll]
  | cons c cs ih => simp [keywordsAll, ih]

end Code

namespace Expr

mutual

def names : Expr → List String
  | literal _ _ => []
  | lookup _ n | reference _ n => [n]
  | invocation _ callee args => names callee ++ namesAll args
  | block _ items => namesAll items

def namesAll : List Expr → List String
  | [] => []
  | e :: es => names e ++ namesAll es

end

variable {kw : Keywords}

theorem lowerAll_eq_ok_iff {es : List Expr} {cs : List Code} :
    lowerAll kw es = .ok cs ↔ List.Forall₂ (fun e c => lower kw e = .ok c) es cs := by
  induction es generalizing cs with
  | nil =>
    rw [lowerAll, List.forall₂_nil_left_iff]
    exact ⟨fun h => (Except.ok.inj h).symm, fun h => congrArg _ h.symm⟩
  | cons e es ih =>
    rw [List.forall₂_cons_left_iff, lowerAll]
    constructor
    · intro h
      cases hc : lower kw e with
      | error err => rw [hc] at h; cases h
      | ok c =>
        cases hcs : lowerAll kw es with
        | error err => rw [hc, hcs] at h; cases h
        | ok cs' =>
          rw [hc, hcs] at h
          cases h
          exact ⟨c, cs', rfl, ih.mp hcs, rfl⟩
    · rintro ⟨c, cs', hc, hcs, rfl⟩
      rw [hc, ih.mpr hcs]
      rfl

theorem lower_invocation_eq_ok_iff {span : Span} {e : Expr} {args : List Expr} {code : Code} :
    lower kw (.invocation span e args) = .ok code ↔
      ∃ callee cs, e.callee kw = .ok callee ∧ lowerAll kw args = .ok cs ∧
        code = .call span callee cs := by
  rw [lower]
  constructor
  · intro h
    cases hc : e.callee kw with
    | error err => rw [hc] at h; cases h
    | ok callee =>
      cases hcs : lowerAll kw args with
      | error err => rw [hc, hcs] at h; cases h
      | ok cs =>
        rw [hc, hcs] at h
        cases h
        exact ⟨callee, cs, rfl, rfl, rfl⟩
  · rintro ⟨callee, cs, hc, hcs, rfl⟩
    rw [hc, hcs]
    rfl

theorem lower_block_eq_ok_iff {span : Span} {items : List Expr} {code : Code} :
    lower kw (.block span items) = .ok code ↔
      ∃ cs, lowerAll kw items = .ok cs ∧ code = .block span cs := by
  rw [lower]
  constructor
  · intro h
    cases hcs : lowerAll kw items with
    | error err => rw [hcs] at h; cases h
    | ok cs =>
      rw [hcs] at h
      cases h
      exact ⟨cs, rfl, rfl⟩
  · rintro ⟨cs, hcs, rfl⟩
    rw [hcs]
    rfl

def topLevel : Expr → List Expr
  | block _ items => items
  | e => [e]

theorem namesAll_topLevel (e : Expr) : namesAll e.topLevel = e.names := by
  cases e <;> simp [names, namesAll, topLevel]

theorem lowerProgram_eq (e : Expr) :
    e.lowerProgram kw = (lowerAll kw e.topLevel).map (⟨·, e.span⟩) := by
  cases e with
  | block span items =>
    rw [lowerProgram, topLevel]
    cases lowerAll kw items <;> rfl
  | literal | lookup | reference | invocation =>
    rw [lowerProgram, topLevel, lowerAll]
    · cases lower kw _ <;> rfl
    all_goals simp

theorem lowerProgram_eq_ok_iff {e : Expr} {body : Body} :
    e.lowerProgram kw = .ok body ↔
      lowerAll kw e.topLevel = .ok body.items ∧ body.span = e.span := by
  obtain ⟨items, span⟩ := body
  rw [lowerProgram_eq]
  cases lowerAll kw e.topLevel with
  | error err => simp [Except.map]
  | ok cs => simp [Except.map, eq_comm]

end Expr

theorem Program.compile_eq_ok_iff {source : Source} {context : Context} {p : Program} :
    Program.compile source context = .ok p ↔
      ∃ tree body, parse source.text = .ok tree ∧
        tree.lowerProgram context.keywords = .ok body ∧ p = ⟨source, context, body⟩ := by
  rw [compile]
  constructor
  · intro h
    cases ht : parse source.text with
    | error err => rw [ht] at h; cases h
    | ok tree =>
      cases hb : tree.lowerProgram context.keywords with
      | error err =>
        simp only [ht, hb, bind, Except.bind] at h
        cases h
      | ok body =>
        simp only [ht, hb, bind, Except.bind] at h
        cases h
        exact ⟨tree, body, rfl, hb, rfl⟩
  · rintro ⟨tree, body, ht, hb, rfl⟩
    simp only [ht, hb, bind, Except.bind]
    rfl

end Fexpr
