import Fexpr.Expr.Parser

/-!
# The grammar

    program := expr* end
    expr    := number | string | ref | name | call | block
    call    := (name | ref) '(' [expr (',' expr)*] ')'
    ref     := '@' name
    block   := '{' expr* '}'

A derivation records which alternatives are taken; the kinds of the tokens that it derives and the
expressions that it makes of such tokens are read off it. That a sentence has one derivation only is
shown with the parser, which finds it.
-/

namespace Fexpr.Grammar

open Token (Kind)

inductive Head where
  | name
  | reference
deriving DecidableEq, Repr

inductive Derivation where
  | number
  | string
  | head (form : Head)
  | call (callee : Head) (args : List Derivation)
  | block (items : List Derivation)
deriving Repr

def Head.kinds : Head → List Kind
  | name => [.ident]
  | reference => [.atSign, .ident]

mutual

def Derivation.kinds : Derivation → List Kind
  | .number => [.number]
  | .string => [.string]
  | .head form => form.kinds
  | .call callee args => callee.kinds ++ .leftParen :: (argumentKinds args ++ [.rightParen])
  | .block items => .leftBrace :: (sequenceKinds items ++ [.rightBrace])

def sequenceKinds : List Derivation → List Kind
  | [] => []
  | d :: ds => d.kinds ++ sequenceKinds ds

def argumentKinds : List Derivation → List Kind
  | [] => []
  | d :: ds => d.kinds ++ furtherKinds ds

def furtherKinds : List Derivation → List Kind
  | [] => []
  | d :: ds => .comma :: (d.kinds ++ furtherKinds ds)

end

def programKinds (ds : List Derivation) : List Kind := sequenceKinds ds ++ [.endOfInput]

def IsSentence (kinds : List Kind) : Prop := ∃ ds, programKinds ds = kinds

inductive Head.Spells : Head → List Token → Expr → Prop
  | name {t : Token} (ht : t.kind = .ident) : Spells .name [t] (.lookup t.span t.text)
  | reference {sign t : Token} (hs : sign.kind = .atSign) (ht : t.kind = .ident) :
    Spells .reference [sign, t] (.reference (sign.span.merge t.span) t.text)

mutual

/-- The expression that a derivation makes of its tokens. -/
inductive Spells : Derivation → List Token → Expr → Prop
  | number {t : Token} {n : Number} (ht : t.kind = .number) (hn : Number.ofText? t.text = some n) :
    Spells .number [t] (.literal t.span (.number n))
  | string {t : Token} (ht : t.kind = .string) :
    Spells .string [t] (.literal t.span (.string (Text.unescape t.text)))
  | head {form : Head} {ts : List Token} {e : Expr} (h : form.Spells ts e) :
    Spells (.head form) ts e
  | call {form : Head} {args : List Derivation} {ts us : List Token} {opening closing : Token}
    {callee : Expr} {es : List Expr} (hc : form.Spells ts callee)
    (ho : opening.kind = .leftParen) (ha : SpellsArguments args us es)
    (hl : closing.kind = .rightParen) :
    Spells (.call form args) (ts ++ opening :: (us ++ [closing]))
      (.invocation (callee.span.merge closing.span) callee es)
  | block {items : List Derivation} {us : List Token} {opening closing : Token} {es : List Expr}
    (ho : opening.kind = .leftBrace) (hi : SpellsSequence items us es)
    (hl : closing.kind = .rightBrace) :
    Spells (.block items) (opening :: (us ++ [closing]))
      (.block (opening.span.merge closing.span) es)

inductive SpellsSequence : List Derivation → List Token → List Expr → Prop
  | nil : SpellsSequence [] [] []
  | cons {d : Derivation} {ds : List Derivation} {ts us : List Token} {e : Expr} {es : List Expr}
    (h : Spells d ts e) (hs : SpellsSequence ds us es) :
    SpellsSequence (d :: ds) (ts ++ us) (e :: es)

inductive SpellsArguments : List Derivation → List Token → List Expr → Prop
  | nil : SpellsArguments [] [] []
  | cons {d : Derivation} {ds : List Derivation} {ts us : List Token} {e : Expr} {es : List Expr}
    (h : Spells d ts e) (hs : SpellsFurther ds us es) :
    SpellsArguments (d :: ds) (ts ++ us) (e :: es)

inductive SpellsFurther : List Derivation → List Token → List Expr → Prop
  | nil : SpellsFurther [] [] []
  | cons {d : Derivation} {ds : List Derivation} {ts us : List Token} {comma : Token} {e : Expr}
    {es : List Expr} (hc : comma.kind = .comma) (h : Spells d ts e) (hs : SpellsFurther ds us es) :
    SpellsFurther (d :: ds) (comma :: (ts ++ us)) (e :: es)

end

def SpellsProgram (ds : List Derivation) (tokens : List Token) (es : List Expr) : Prop :=
  ∃ ts stop, tokens = ts ++ [stop] ∧ stop.kind = .endOfInput ∧ SpellsSequence ds ts es

theorem Head.Spells.kinds_eq {form : Head} {ts : List Token} {e : Expr} (h : form.Spells ts e) :
    ts.map Token.kind = form.kinds := by
  cases h with
  | name ht => simp [Head.kinds, ht]
  | reference hs ht => simp [Head.kinds, hs, ht]

mutual

theorem Spells.kinds_eq {d : Derivation} {ts : List Token} {e : Expr} (h : Spells d ts e) :
    ts.map Token.kind = d.kinds := by
  cases h with
  | number ht hn => simp [Derivation.kinds, ht]
  | string ht => simp [Derivation.kinds, ht]
  | head h => exact h.kinds_eq
  | call hc ho ha hl => simp [Derivation.kinds, hc.kinds_eq, ho, ha.kinds_eq, hl]
  | block ho hi hl => simp [Derivation.kinds, ho, hi.kinds_eq, hl]

theorem SpellsSequence.kinds_eq {ds : List Derivation} {ts : List Token} {es : List Expr}
    (h : SpellsSequence ds ts es) : ts.map Token.kind = sequenceKinds ds := by
  cases h with
  | nil => rfl
  | cons h hs => rw [List.map_append, h.kinds_eq, hs.kinds_eq, sequenceKinds]

theorem SpellsArguments.kinds_eq {ds : List Derivation} {ts : List Token} {es : List Expr}
    (h : SpellsArguments ds ts es) : ts.map Token.kind = argumentKinds ds := by
  cases h with
  | nil => rfl
  | cons h hs => rw [List.map_append, h.kinds_eq, hs.kinds_eq, argumentKinds]

theorem SpellsFurther.kinds_eq {ds : List Derivation} {ts : List Token} {es : List Expr}
    (h : SpellsFurther ds ts es) : ts.map Token.kind = furtherKinds ds := by
  cases h with
  | nil => rfl
  | cons hc h hs =>
    rw [List.map_cons, List.map_append, hc, h.kinds_eq, hs.kinds_eq, furtherKinds]

end

def Numeric (ts : List Token) : Prop :=
  ∀ t ∈ ts, t.kind = .number → ∃ n, Number.ofText? t.text = some n

theorem Numeric.left {ts us : List Token} (h : Numeric (ts ++ us)) : Numeric ts :=
  fun t ht => h t (List.mem_append_left us ht)

theorem Numeric.right {ts us : List Token} (h : Numeric (ts ++ us)) : Numeric us :=
  fun t ht => h t (List.mem_append_right ts ht)

theorem Numeric.tail {t : Token} {ts : List Token} (h : Numeric (t :: ts)) : Numeric ts :=
  fun u hu => h u (List.mem_cons_of_mem t hu)

theorem Head.exists_spells {form : Head} {ts : List Token} (hk : ts.map Token.kind = form.kinds) :
    ∃ e, form.Spells ts e := by
  cases form with
  | name =>
    obtain ⟨t, rest, rfl, ht, hrest⟩ := List.map_eq_cons_iff.mp hk
    obtain rfl := List.map_eq_nil_iff.mp hrest
    exact ⟨_, .name ht⟩
  | reference =>
    obtain ⟨sign, rest, rfl, hs, hrest⟩ := List.map_eq_cons_iff.mp hk
    obtain ⟨t, rest, rfl, ht, hrest⟩ := List.map_eq_cons_iff.mp hrest
    obtain rfl := List.map_eq_nil_iff.mp hrest
    exact ⟨_, .reference hs ht⟩

mutual

/-- A derivation makes an expression of all tokens that have its kinds. -/
theorem exists_spells (d : Derivation) {ts : List Token} (hk : ts.map Token.kind = d.kinds)
    (hn : Numeric ts) : ∃ e, Spells d ts e := by
  match d with
  | .number =>
    obtain ⟨t, rest, rfl, ht, hrest⟩ := List.map_eq_cons_iff.mp hk
    obtain rfl := List.map_eq_nil_iff.mp hrest
    obtain ⟨n, hn⟩ := hn t (List.mem_singleton_self t) ht
    exact ⟨_, .number ht hn⟩
  | .string =>
    obtain ⟨t, rest, rfl, ht, hrest⟩ := List.map_eq_cons_iff.mp hk
    obtain rfl := List.map_eq_nil_iff.mp hrest
    exact ⟨_, .string ht⟩
  | .head form =>
    rw [Derivation.kinds] at hk
    obtain ⟨e, he⟩ := Head.exists_spells hk
    exact ⟨e, .head he⟩
  | .call form args =>
    rw [Derivation.kinds] at hk
    obtain ⟨hs, rest, rfl, hhead, hrest⟩ := List.map_eq_append_iff.mp hk
    obtain ⟨opening, rest, rfl, hopening, hrest⟩ := List.map_eq_cons_iff.mp hrest
    obtain ⟨us, rest, rfl, hargs, hrest⟩ := List.map_eq_append_iff.mp hrest
    obtain ⟨closing, rest, rfl, hclosing, hrest⟩ := List.map_eq_cons_iff.mp hrest
    obtain rfl := List.map_eq_nil_iff.mp hrest
    obtain ⟨callee, hcallee⟩ := Head.exists_spells hhead
    obtain ⟨es, hes⟩ := exists_spellsArguments args hargs hn.right.tail.left
    exact ⟨_, .call hcallee hopening hes hclosing⟩
  | .block items =>
    rw [Derivation.kinds] at hk
    obtain ⟨opening, rest, rfl, hopening, hrest⟩ := List.map_eq_cons_iff.mp hk
    obtain ⟨us, rest, rfl, hitems, hrest⟩ := List.map_eq_append_iff.mp hrest
    obtain ⟨closing, rest, rfl, hclosing, hrest⟩ := List.map_eq_cons_iff.mp hrest
    obtain rfl := List.map_eq_nil_iff.mp hrest
    obtain ⟨es, hes⟩ := exists_spellsSequence items hitems hn.tail.left
    exact ⟨_, .block hopening hes hclosing⟩

theorem exists_spellsSequence (ds : List Derivation) {ts : List Token}
    (hk : ts.map Token.kind = sequenceKinds ds) (hn : Numeric ts) :
    ∃ es, SpellsSequence ds ts es := by
  match ds with
  | [] =>
    obtain rfl := List.map_eq_nil_iff.mp hk
    exact ⟨[], .nil⟩
  | d :: ds =>
    rw [sequenceKinds] at hk
    obtain ⟨us, rest, rfl, hd, hds⟩ := List.map_eq_append_iff.mp hk
    obtain ⟨e, he⟩ := exists_spells d hd hn.left
    obtain ⟨es, hes⟩ := exists_spellsSequence ds hds hn.right
    exact ⟨e :: es, .cons he hes⟩

theorem exists_spellsArguments (ds : List Derivation) {ts : List Token}
    (hk : ts.map Token.kind = argumentKinds ds) (hn : Numeric ts) :
    ∃ es, SpellsArguments ds ts es := by
  match ds with
  | [] =>
    obtain rfl := List.map_eq_nil_iff.mp hk
    exact ⟨[], .nil⟩
  | d :: ds =>
    rw [argumentKinds] at hk
    obtain ⟨us, rest, rfl, hd, hds⟩ := List.map_eq_append_iff.mp hk
    obtain ⟨e, he⟩ := exists_spells d hd hn.left
    obtain ⟨es, hes⟩ := exists_spellsFurther ds hds hn.right
    exact ⟨e :: es, .cons he hes⟩

theorem exists_spellsFurther (ds : List Derivation) {ts : List Token}
    (hk : ts.map Token.kind = furtherKinds ds) (hn : Numeric ts) :
    ∃ es, SpellsFurther ds ts es := by
  match ds with
  | [] =>
    obtain rfl := List.map_eq_nil_iff.mp hk
    exact ⟨[], .nil⟩
  | d :: ds =>
    rw [furtherKinds] at hk
    obtain ⟨comma, rest, rfl, hcomma, hrest⟩ := List.map_eq_cons_iff.mp hk
    obtain ⟨us, rest, rfl, hd, hds⟩ := List.map_eq_append_iff.mp hrest
    obtain ⟨e, he⟩ := exists_spells d hd hn.tail.left
    obtain ⟨es, hes⟩ := exists_spellsFurther ds hds hn.tail.right
    exact ⟨e :: es, .cons hcomma he hes⟩

end

theorem sequenceKinds_append (ds es : List Derivation) :
    sequenceKinds (ds ++ es) = sequenceKinds ds ++ sequenceKinds es := by
  induction ds with
  | nil => rfl
  | cons d ds ih => rw [List.cons_append, sequenceKinds, ih, sequenceKinds, List.append_assoc]

theorem SpellsSequence.append {ds ds' : List Derivation} {ts ts' : List Token} {es es' : List Expr}
    (h : SpellsSequence ds ts es) (h' : SpellsSequence ds' ts' es') :
    SpellsSequence (ds ++ ds') (ts ++ ts') (es ++ es') := by
  induction ds generalizing ts es with
  | nil =>
    cases h
    exact h'
  | cons d ds ih =>
    cases h with
    | cons hd hds =>
      rw [List.append_assoc]
      exact .cons hd (ih hds)

theorem furtherKinds_append (ds es : List Derivation) :
    furtherKinds (ds ++ es) = furtherKinds ds ++ furtherKinds es := by
  induction ds with
  | nil => rfl
  | cons d ds ih =>
    rw [List.cons_append, furtherKinds, ih, furtherKinds, List.cons_append, List.append_assoc]

theorem argumentKinds_concat {ds : List Derivation} (h : ds ≠ []) (d : Derivation) :
    argumentKinds (ds ++ [d]) = argumentKinds ds ++ .comma :: d.kinds := by
  cases ds with
  | nil => exact absurd rfl h
  | cons d' ds =>
    rw [List.cons_append, argumentKinds, argumentKinds, furtherKinds_append, furtherKinds,
      furtherKinds, List.append_nil, List.append_assoc]

end Fexpr.Grammar
