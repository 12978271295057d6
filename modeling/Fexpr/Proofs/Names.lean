import Fexpr.Context
import Fexpr.Proofs.Rendering

/-!
# Names on both sides

An embedding program names what it adds to a context, and a program names what it uses. The check of
the one and the patterns of the other have the same names.
-/

namespace Fexpr

open Pattern Text

def IsIdentifier (name : String) : Prop :=
  ∃ t, lex name = .ok [t, Token.endOf name] ∧ t.kind = .ident ∧ t.text = name

theorem isName_iff_mem_ident {name : String} : isName name = true ↔ name.toList ∈ ident := by
  rw [isName]
  cases name.toList with
  | nil =>
    constructor
    · intro h
      cases h
    · intro h
      obtain ⟨c, cs, -, -, hnil⟩ := mem_one_mul.mp h
      cases hnil
  | cons c cs => rw [mem_ident, Bool.and_eq_true, List.all_eq_true]

theorem mem_ident_of_matches {text : List Char} (h : Matches (.token .ident) text) :
    text ∈ ident := by
  obtain ⟨l, hdeclared, hl⟩ := h
  simp only [declared, List.mem_cons, Prod.mk.injEq, Lexeme.Class.token.injEq, reduceCtorEq,
    false_and, true_and, false_or, or_false, List.not_mem_nil] at hdeclared
  rwa [hdeclared] at hl

theorem mem_ident_of_kind {source : String} {t : Token} (ht : t ∈ (scan source).tokens)
    (hkind : t.kind = .ident) : t.text.toList ∈ ident := by
  obtain ⟨l, hl, hpiece⟩ := List.mem_filterMap.mp (mem_of_mem_ofPieces ht)
  obtain ⟨hcls, -, htext, -⟩ := Lexeme.piece?_eq_ok_iff.mp hpiece
  have hfound := Lexeme.matches_of_mem_lexemesFrom hl (by rw [hcls, hkind]; decide)
  rw [hcls, hkind] at hfound
  rw [htext, String.toList_ofList]
  exact mem_ident_of_matches hfound

def Word.ofIdent (name : String) (h : name.toList ∈ ident) : Word where
  kind := .ident
  text := name.toList
  found := ⟨ident, by simp [declared], h⟩
  closed := by decide

theorem isIdentifier_iff_mem_ident {name : String} : IsIdentifier name ↔ name.toList ∈ ident := by
  constructor
  · rintro ⟨t, hlex, hkind, htext⟩
    obtain ⟨-, htokens⟩ := lex_eq_ok_iff.mp hlex
    have ht : t ∈ (scan name).tokens := by
      change [t] ++ _ = _ at htokens
      obtain ⟨hscan, -⟩ := List.append_inj' htokens rfl
      rw [← hscan]
      exact List.mem_singleton_self t
    rw [← htext]
    exact mem_ident_of_kind ht hkind
  · intro h
    have hlex := (Word.ofIdent name h).lex_alone
    rw [Word.ofIdent, String.ofList_toList] at hlex
    exact ⟨_, hlex, rfl, String.ofList_toList⟩

theorem isName_iff_isIdentifier {name : String} : isName name = true ↔ IsIdentifier name :=
  isName_iff_mem_ident.trans isIdentifier_iff_mem_ident.symm

open Grammar in
theorem parse_of_isIdentifier {name : String} (h : IsIdentifier name) :
    parse name = .ok (.block ⟨0, name.utf8ByteSize⟩ [.lookup ⟨0, name.utf8ByteSize⟩ name]) := by
  have hword := isIdentifier_iff_mem_ident.mp h
  have hparse := (Word.ofIdent name hword).parse_alone (.head (.name rfl))
  have hsize : byteSize name.toList = name.utf8ByteSize := by
    rw [← utf8ByteSize_ofList, String.ofList_toList]
  simpa only [Word.alone, Word.ofIdent, String.ofList_toList, hsize] using hparse

theorem checkName_of_invalid {name : String} (h : ¬ IsIdentifier name) :
    checkName name = .error (.invalid name) := by
  have hname : isName name = false := by
    rw [← Bool.not_eq_true, isName_iff_isIdentifier]
    exact h
  rw [checkName, hname]
  rfl

theorem checkName_of_identifier {name : String} (h : IsIdentifier name) :
    checkName name = if isReserved name then .error (.reserved name) else .ok () := by
  rw [checkName, isName_iff_isIdentifier.mpr h]
  rfl

structure ChecksName (name : String) (result : Except NameError Context) : Prop where
  accepted : (∃ c, result = .ok c) ↔ IsIdentifier name ∧ isReserved name = false
  reserved : result = .error (.reserved name) ↔ IsIdentifier name ∧ isReserved name = true
  invalid : result = .error (.invalid name) ↔ ¬ IsIdentifier name

theorem checksName_bind (name : String) (c : Context) :
    ChecksName name (checkName name >>= fun _ => pure c) := by
  by_cases hname : IsIdentifier name
  · rw [checkName_of_identifier hname]
    cases hreserved : isReserved name with
    | true =>
      change ChecksName name (.error (.reserved name))
      constructor <;> simp [hname, hreserved]
    | false =>
      change ChecksName name (.ok c)
      constructor <;> simp [hname, hreserved]
  · rw [checkName_of_invalid hname]
    change ChecksName name (.error (.invalid name))
    constructor <;> simp [hname]

theorem checksName_register (c : Context) (name : String) (k : Keyword) :
    ChecksName name (c.register name k) :=
  checksName_bind name { c with keywords := c.keywords.insert name k }

theorem checksName_define (c : Context) (name : String) (v : Value) :
    ChecksName name (c.define name v) :=
  checksName_bind name { c with values := c.values.insert name v }

/--
A context takes a name if and only if it is a name of programs and not reserved, and says which of
the two fails. A name that it takes is a program; a name in a program that is not reserved is taken.
-/
theorem names_agree (c : Context) (k : Keyword) (v : Value) :
    (∀ name, ChecksName name (c.register name k) ∧ ChecksName name (c.define name v)) ∧
    (∀ name, ((∃ c', c.register name k = .ok c') ∨ ∃ c', c.define name v = .ok c') →
      parse name = .ok (.block ⟨0, name.utf8ByteSize⟩ [.lookup ⟨0, name.utf8ByteSize⟩ name])) ∧
    ∀ source tokens, lex source = .ok tokens → ∀ t ∈ tokens, t.kind = .ident →
      isReserved t.text = false →
        (∃ c', c.register t.text k = .ok c') ∧ ∃ c', c.define t.text v = .ok c' := by
  refine ⟨fun name => ⟨checksName_register c name k, checksName_define c name v⟩, ?_, ?_⟩
  · rintro name (h | h)
    · exact parse_of_isIdentifier ((checksName_register c name k).accepted.mp h).1
    · exact parse_of_isIdentifier ((checksName_define c name v).accepted.mp h).1
  · intro source tokens hlex t ht hkind hfree
    obtain ⟨-, rfl⟩ := lex_eq_ok_iff.mp hlex
    have hidentifier : IsIdentifier t.text := by
      rcases List.mem_append.mp ht with ht | ht
      · exact isIdentifier_iff_mem_ident.mpr (mem_ident_of_kind ht hkind)
      · rw [List.mem_singleton.mp ht] at hkind
        cases hkind
    constructor
    · exact (checksName_register c t.text k).accepted.mpr ⟨hidentifier, hfree⟩
    · exact (checksName_define c t.text v).accepted.mpr ⟨hidentifier, hfree⟩

theorem names_agree_argument :
    (∃ c', (Context.builtin 0).register "_n0" (.host 0 "_n0") = .ok c') ∧
    parse "_n0" = .ok (.block ⟨0, 3⟩ [.lookup ⟨0, 3⟩ "_n0"]) ∧
    (Context.builtin 0).define "n " .null = .error (.invalid "n ") := by
  obtain ⟨hchecks, hparse, htokens⟩ := names_agree (.builtin 0) (.host 0 "_n0") .null
  have hlex : lex "f(_n0)" = .ok [⟨.ident, "f", ⟨0, 1⟩⟩, ⟨.leftParen, "(", ⟨1, 2⟩⟩,
      ⟨.ident, "_n0", ⟨2, 5⟩⟩, ⟨.rightParen, ")", ⟨5, 6⟩⟩, Token.endOf "f(_n0)"] := by
    decide +kernel
  obtain ⟨hregister, -⟩ := htokens _ _ hlex ⟨.ident, "_n0", ⟨2, 5⟩⟩ (by simp) rfl (by decide)
  have hblank : ¬ IsIdentifier "n " := by
    rintro ⟨t, ht, -, htext⟩
    have hlex : lex "n " = .ok [⟨.ident, "n", ⟨0, 1⟩⟩, Token.endOf "n "] := by decide +kernel
    cases ht.symm.trans hlex
    exact absurd htext (by decide)
  exact ⟨hregister, hparse _ (.inl hregister), (hchecks _).2.invalid.mpr hblank⟩

end Fexpr
