import Fexpr.Proofs.Rendering

/-!
# String literals

The body of a string literal is made of plain characters and of pairs, a backslash with the
character after it. The scanner and the decoder find the same parts, of which there is one way only,
and every text has a literal.
-/

namespace Fexpr.Text

inductive Part where
  | plain (c : Char)
  | pair (c : Char)
deriving DecidableEq, Repr

namespace Part

def chars : Part → List Char
  | plain c => [c]
  | pair c => ['\\', c]

def controls : List (Char × Char) := [('n', '\n'), ('t', '\t'), ('r', '\r'), ('0', '\x00')]

def value : Part → Char
  | plain c => c
  | pair c => (controls.lookup c).getD c

def IsProper : Part → Prop
  | plain c => c ≠ '\\'
  | pair _ => True

/-- A part that can stand in a literal: the quote is not plain either, and there is no pair with a
line feed. -/
def Fits (quote : Char) : Part → Prop
  | plain c => c ≠ quote ∧ c ≠ '\\'
  | pair c => c ≠ '\n'

theorem Fits.isProper {quote : Char} {p : Part} (h : p.Fits quote) : p.IsProper := by
  cases p with
  | plain c => exact h.2
  | pair c => trivial

theorem escaped_eq (c : Char) : escaped c = (controls.lookup c).getD c := by
  unfold escaped
  split
  · rfl
  · rfl
  · rfl
  · rfl
  · rename_i hn ht hr hz
    have hnone : controls.lookup c = none := by
      rw [List.lookup_eq_none_iff]
      intro pair hpair
      simp only [controls, List.mem_cons, List.not_mem_nil, or_false] at hpair
      obtain rfl | rfl | rfl | rfl := hpair
      · simpa using hn
      · simpa using ht
      · simpa using hr
      · simpa using hz
    rw [hnone, Option.getD_none]

theorem flatMap_chars_injective {ps qs : List Part} (hps : ∀ p ∈ ps, p.IsProper)
    (hqs : ∀ q ∈ qs, q.IsProper) (h : ps.flatMap chars = qs.flatMap chars) : ps = qs := by
  induction ps generalizing qs with
  | nil =>
    cases qs with
    | nil => rfl
    | cons q qs => cases q <;> cases h
  | cons p ps ih =>
    cases qs with
    | nil => cases p <;> cases h
    | cons q qs =>
      rw [List.forall_mem_cons] at hps hqs
      rw [List.flatMap_cons, List.flatMap_cons] at h
      cases p with
      | plain c =>
        cases q with
        | plain d =>
          obtain ⟨rfl, hrest⟩ := List.cons.inj h
          rw [ih hps.2 hqs.2 hrest]
        | pair d => exact absurd (List.cons.inj h).1 hps.1
      | pair c =>
        cases q with
        | plain d => exact absurd (List.cons.inj h).1.symm hqs.1
        | pair d =>
          obtain ⟨-, htail⟩ := List.cons.inj h
          obtain ⟨rfl, hrest⟩ := List.cons.inj htail
          rw [ih hps.2 hqs.2 hrest]

end Part

/-- Resolves escapes like `resolveEscapes`, but gives up at a backslash with nothing after it. -/
def resolveEscapes? : List Char → Option (List Char)
  | [] => some []
  | '\\' :: c :: cs => (resolveEscapes? cs).map (escaped c :: ·)
  | c :: cs => if c = '\\' then none else (resolveEscapes? cs).map (c :: ·)

def unescape? (raw : String) : Option String :=
  (unquote raw.toList).bind fun body => (resolveEscapes? body).map String.ofList

theorem resolveEscapes_of_some {cs r : List Char} (h : resolveEscapes? cs = some r) :
    resolveEscapes cs = r := by
  fun_induction resolveEscapes? cs generalizing r with
  | case1 => exact Option.some.inj h
  | case2 c cs ih =>
    obtain ⟨r, hr, rfl⟩ := Option.map_eq_some_iff.mp h
    rw [resolveEscapes, ih hr]
  | case3 => cases h
  | case4 c cs hne hc ih =>
    obtain ⟨r, hr, rfl⟩ := Option.map_eq_some_iff.mp h
    rw [resolveEscapes, ih hr]
    exact hne

theorem unescape_of_some {raw s : String} (h : unescape? raw = some s) : unescape raw = s := by
  obtain ⟨body, hbody, hmap⟩ := Option.bind_eq_some_iff.mp h
  obtain ⟨r, hr, rfl⟩ := Option.map_eq_some_iff.mp hmap
  rw [unescape, hbody]
  exact congrArg String.ofList (resolveEscapes_of_some hr)

theorem resolveEscapes?_flatMap {ps : List Part} (h : ∀ p ∈ ps, p.IsProper) :
    resolveEscapes? (ps.flatMap Part.chars) = some (ps.map Part.value) := by
  induction ps with
  | nil => rfl
  | cons p ps ih =>
    rw [List.forall_mem_cons] at h
    rw [List.flatMap_cons, List.map_cons]
    cases p with
    | plain c =>
      have hc : c ≠ '\\' := h.1
      change resolveEscapes? (c :: ps.flatMap Part.chars) = _
      rw [resolveEscapes?, if_neg hc, ih h.2]
      · rfl
      · exact fun _ _ heq => absurd heq hc
    | pair c =>
      change resolveEscapes? ('\\' :: c :: ps.flatMap Part.chars) = _
      rw [resolveEscapes?, ih h.2, Part.escaped_eq]
      rfl

theorem unquote_append {quote : Char} (hquote : quote.utf8Size = 1) (body : List Char) :
    unquote (quote :: (body ++ [quote])) = some body := by
  have hlast : (body ++ [quote]).getLast? = some quote := List.getLast?_concat
  simp only [unquote, hlast, hquote, and_self, if_true, List.dropLast_concat]

structure IsLiteral (quote : Char) (ps : List Part) (text : List Char) : Prop where
  quote_eq : quote = '"' ∨ quote = '\''
  text_eq : text = quote :: (ps.flatMap Part.chars ++ [quote])
  fits : ∀ p ∈ ps, p.Fits quote

namespace IsLiteral

open Computability Pattern Lexeme

variable {quote : Char} {ps : List Part} {text : List Char}

theorem unquote (h : IsLiteral quote ps text) : unquote text = some (ps.flatMap Part.chars) := by
  obtain ⟨hquote, rfl, -⟩ := h
  apply unquote_append
  obtain rfl | rfl := hquote
  · rfl
  · rfl

theorem unescape? (h : IsLiteral quote ps text) :
    unescape? (String.ofList text) = some (String.ofList (ps.map Part.value)) := by
  have hresolved := resolveEscapes?_flatMap fun p hp => (h.fits p hp).isProper
  rw [Text.unescape?, String.toList_ofList, h.unquote, Option.bind_some, hresolved, Option.map_some]

theorem unescape (h : IsLiteral quote ps text) :
    unescape (String.ofList text) = String.ofList (ps.map Part.value) :=
  unescape_of_some h.unescape?

theorem exists_of_mem_body {w : List Char} (h : w ∈ body quote) :
    ∃ ps : List Part, (∀ p ∈ ps, p.Fits quote) ∧ w = ps.flatMap Part.chars := by
  apply kstar_induction _ _ h
  · exact ⟨[], by simp, rfl⟩
  · rintro u hu v - ⟨ps, hps, rfl⟩
    rw [Language.mem_add] at hu
    obtain ⟨c, hc, rfl⟩ | hpair := hu
    · exact ⟨.plain c :: ps, List.forall_mem_cons.mpr ⟨hc, hps⟩, rfl⟩
    · obtain ⟨_, _, rfl, ⟨c, hc, rfl⟩, rfl⟩ := mem_one_mul.mp hpair
      exact ⟨.pair c :: ps, List.forall_mem_cons.mpr ⟨hc, hps⟩, rfl⟩

theorem flatMap_mem_body (h : ∀ p ∈ ps, p.Fits quote) : ps.flatMap Part.chars ∈ body quote := by
  induction ps with
  | nil => exact Language.nil_mem_kstar _
  | cons p ps ih =>
    rw [List.forall_mem_cons] at h
    cases p with
    | plain c => exact cons_mem_body h.1.1 h.1.2 (ih h.2)
    | pair c => exact escape_mem_body h.1 (ih h.2)

theorem of_matches (h : Matches (.token .string) text) : ∃ quote ps, IsLiteral quote ps text := by
  obtain ⟨l, hl, htext⟩ := h
  obtain ⟨quote, hquote, rfl⟩ : ∃ quote, (quote = '"' ∨ quote = '\'') ∧ l = string quote := by
    simpa [declared] using hl
  obtain ⟨_, w, rfl, hw, rfl⟩ := mem_one_mul.mp htext
  obtain ⟨w, hbody, _, ⟨_, rfl, rfl⟩, rfl⟩ := Language.mem_mul.mp hw
  obtain ⟨ps, hps, rfl⟩ := exists_of_mem_body hbody
  exact ⟨_, ps, hquote, rfl, hps⟩

theorem found (h : IsLiteral quote ps text) : Matches (.token .string) text := by
  obtain ⟨hquote, rfl, hfits⟩ := h
  refine ⟨string quote, ?_, ?_⟩
  · obtain rfl | rfl := hquote
    · simp [declared]
    · simp [declared]
  · refine cons_mem_one_mul.mpr ⟨rfl, ?_⟩
    exact Language.append_mem_mul (flatMap_mem_body hfits) (singleton_mem_one.mpr rfl)

def word (h : IsLiteral quote ps text) : Word := ⟨.string, text, h.found, by decide⟩

end IsLiteral

/-- A literal for a text: a backslash in front of every backslash and every quote. -/
def literal (quote : Char) (s : String) : String :=
  String.ofList (quote ::
    (s.toList.flatMap (fun c => if c = '\\' ∨ c = quote then ['\\', c] else [c]) ++ [quote]))

def Part.ofChar (quote c : Char) : Part := if c = '\\' ∨ c = quote then .pair c else .plain c

section

variable {quote : Char} (hquote : quote = '"' ∨ quote = '\'')

include hquote

theorem Part.fits_ofChar (c : Char) : (ofChar quote c).Fits quote := by
  rw [ofChar]
  split
  · rename_i hc
    intro hfeed
    subst hfeed
    obtain rfl | rfl := hquote
    · exact absurd hc (by decide)
    · exact absurd hc (by decide)
  · rename_i hc
    obtain ⟨hslash, hne⟩ := not_or.mp hc
    exact ⟨hne, hslash⟩

theorem Part.value_ofChar (c : Char) : (ofChar quote c).value = c := by
  rw [ofChar]
  split
  · rename_i hc
    obtain rfl | rfl := hquote
    · obtain rfl | rfl := hc
      · rfl
      · rfl
    · obtain rfl | rfl := hc
      · rfl
      · rfl
  · rfl

theorem isLiteral_literal (s : String) :
    IsLiteral quote (s.toList.map (Part.ofChar quote)) (literal quote s).toList where
  quote_eq := hquote
  text_eq := by
    have hchars : ∀ c, (Part.ofChar quote c).chars =
        if c = '\\' ∨ c = quote then ['\\', c] else [c] := by
      intro c
      rw [Part.ofChar]
      split
      · rfl
      · rfl
    rw [literal, String.toList_ofList, List.flatMap_map]
    simp only [hchars]
  fits := by
    intro p hp
    obtain ⟨c, -, rfl⟩ := List.mem_map.mp hp
    exact Part.fits_ofChar hquote c

theorem unescape_literal (s : String) : unescape (literal quote s) = s := by
  have hunescape := (isLiteral_literal hquote s).unescape
  have hvalues : (s.toList.map (Part.ofChar quote)).map Part.value = s.toList := by
    rw [List.map_map]
    exact (List.map_congr_left fun c _ => Part.value_ofChar hquote c).trans (List.map_id _)
  rwa [String.ofList_toList, hvalues, String.ofList_toList] at hunescape

end

end Fexpr.Text

namespace Fexpr

open Text Lexeme

theorem exists_isLiteral_of_mem_pieces {source : String} {t : Token} (ht : .ok t ∈ pieces source)
    (hkind : t.kind = .string) : ∃ quote ps, IsLiteral quote ps t.text.toList := by
  obtain ⟨l, hl, hpiece⟩ := List.mem_filterMap.mp ht
  obtain ⟨hcls, -, htext, -⟩ := piece?_eq_ok_iff.mp hpiece
  rw [hkind] at hcls
  have hfound := matches_of_mem_lexemesFrom hl (by rw [hcls]; decide)
  rw [hcls] at hfound
  rw [htext, String.toList_ofList]
  exact IsLiteral.of_matches hfound

/--
The body of every string token splits in one way into plain characters and pairs, and decoding takes
each part for the character it stands for, without a fallback. Every text is what the literal
written for it, in either quotes, is decoded to.
-/
theorem string_literals_faithful :
    (∀ (source : String) (t : Token), .ok t ∈ pieces source → t.kind = .string →
      ∃ quote ps, IsLiteral quote ps t.text.toList ∧
        (∀ qs : List Part, (∀ q ∈ qs, q.IsProper) →
          qs.flatMap Part.chars = ps.flatMap Part.chars → qs = ps) ∧
        unquote t.text.toList = some (ps.flatMap Part.chars) ∧
        unescape? t.text = some (unescape t.text) ∧
        unescape t.text = String.ofList (ps.map Part.value)) ∧
    ∀ (quote : Char) (s : String), (quote = '"' ∨ quote = '\'') →
      let p : Span := ⟨0, (literal quote s).utf8ByteSize⟩
      lex (literal quote s) =
        .ok [⟨.string, literal quote s, p⟩, Token.endOf (literal quote s)] ∧
      parse (literal quote s) = .ok (.block p [.literal p (.string s)]) := by
  constructor
  · intro source t ht hkind
    obtain ⟨quote, ps, hliteral⟩ := exists_isLiteral_of_mem_pieces ht hkind
    have hstrict := hliteral.unescape?
    have hvalue := hliteral.unescape
    rw [String.ofList_toList] at hstrict hvalue
    refine ⟨quote, ps, hliteral, ?_, hliteral.unquote, by rw [hstrict, hvalue], hvalue⟩
    intro qs hqs heq
    exact Part.flatMap_chars_injective hqs (fun p hp => (hliteral.fits p hp).isProper) heq
  · intro quote s hquote p
    have hliteral := isLiteral_literal hquote s
    have hlex := hliteral.word.lex_alone
    have hparse := hliteral.word.parse_alone (.string rfl)
    have htoken : hliteral.word.alone = ⟨.string, literal quote s, p⟩ := by
      simp only [Word.alone, IsLiteral.word, String.ofList_toList, p]
      rw [← utf8ByteSize_ofList, String.ofList_toList]
    rw [htoken] at hlex hparse
    simp only [IsLiteral.word, String.ofList_toList, unescape_literal hquote] at hlex hparse
    exact ⟨hlex, hparse⟩

/-- A run of backslashes in front of a quote, behind a stray character. -/
theorem string_literals_faithful_backslashes :
    .ok ⟨.string, "'\\\\\\'é\\n'", ⟨3, 13⟩⟩ ∈ pieces "f(^'\\\\\\'é\\n')" ∧
      ∃ quote ps, IsLiteral quote ps "'\\\\\\'é\\n'".toList ∧
        ps = [.pair '\\', .pair '\'', .plain 'é', .pair 'n'] ∧
        unescape "'\\\\\\'é\\n'" = "\\'é\n" := by
  have hmem : .ok ⟨.string, "'\\\\\\'é\\n'", ⟨3, 13⟩⟩ ∈ pieces "f(^'\\\\\\'é\\n')" := by
    decide +kernel
  obtain ⟨quote, ps, hliteral, hunique, hunquote, -, hvalue⟩ :=
    string_literals_faithful.1 _ _ hmem rfl
  have hbody : unquote "'\\\\\\'é\\n'".toList =
      some ([.pair '\\', .pair '\'', .plain 'é', .pair 'n'].flatMap Part.chars) := by
    decide +kernel
  have hps := hunique [.pair '\\', .pair '\'', .plain 'é', .pair 'n'] (by simp [Part.IsProper])
    (Option.some.inj (hbody.symm.trans hunquote))
  refine ⟨hmem, quote, ps, hliteral, hps.symm, ?_⟩
  rw [← hps] at hvalue
  exact hvalue.trans (by decide +kernel)

end Fexpr
