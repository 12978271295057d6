import Fexpr.Json.Printer
import Fexpr.Json.Reader
import Fexpr.Proofs.Numerals

/-!
# JSON text

A value written on one line, or over several, is read back. Numbers are read back here digit for
digit; which number the digits stand for is another question.
-/

namespace Fexpr.Json

theorem join?_unit {n : Nat} (h : n < 0xD800) (ps : List Part) :
    join? (.unit n :: ps) = (join? ps).map (Char.ofNat n :: ·) := by
  have hhigh : isHighSurrogate n = false := by simp [isHighSurrogate]; omega
  have hlow : isLowSurrogate n = false := by simp [isLowSurrogate]; omega
  rcases ps with _ | ⟨_ | _, ps⟩ <;> simp [join?, hhigh, hlow]

theorem unit?_control :
    ∀ n < 32, unit? '0' '0' (hexDigit (n / 16)) (hexDigit (n % 16)) = some n := by
  decide

def StandsFor (p : Part) (c : Char) : Prop :=
  ∀ ps, join? (p :: ps) = (join? ps).map (c :: ·)

theorem standsFor_char (c : Char) : StandsFor (.char c) c := fun _ => by rw [join?]

theorem standsFor_unit {c : Char} (h : c.toNat < 32) : StandsFor (.unit c.toNat) c := by
  intro ps
  rw [join?_unit (by omega), Char.ofNat_toNat]

theorem parts?_plain {c : Char} (hquote : c ≠ '"') (hslash : c ≠ '\\') (hc : ¬ c.toNat < 32)
    (cs : List Char) :
    parts? (c :: cs) = (parts? cs).map fun (ps, rest) => (.char c :: ps, rest) := by
  rw [parts?]
  · rw [if_neg (by simp [hc, hslash])]
    cases parts? cs <;> rfl
  · exact hquote
  · intro _ _ _ _ _ h
    exact absurd h hslash
  · intro _ _ h
    exact absurd h hslash

theorem parts?_escape {e c : Char} (he : shortEscape? e = some c) (cs : List Char) :
    parts? ('\\' :: e :: cs) = (parts? cs).map fun (ps, rest) => (.char c :: ps, rest) := by
  rw [parts?]
  · rw [he]
    cases parts? cs <;> rfl
  · rintro _ _ _ _ _ rfl
    simp [shortEscape?] at he

theorem parts?_charText (c : Char) (cs : List Char) :
    ∃ p, StandsFor p c ∧
      parts? (charText c ++ cs) = (parts? cs).map fun (ps, rest) => (p :: ps, rest) := by
  unfold charText
  split
  case h_8 hquote hslash _ _ _ _ _ =>
    split
    · rename_i hc
      refine ⟨.unit c.toNat, standsFor_unit hc, ?_⟩
      simp only [List.cons_append, List.nil_append]
      rw [parts?, unit?_control c.toNat hc]
      cases parts? cs <;> rfl
    · rename_i hc
      exact ⟨.char c, standsFor_char c, parts?_plain hquote hslash hc cs⟩
  all_goals exact ⟨.char _, standsFor_char _, parts?_escape rfl cs⟩

theorem string?_flatMap_charText (s : List Char) (rest : List Char) :
    string? (s.flatMap charText ++ '"' :: rest) = some (some (String.ofList s), rest) := by
  have hparts : ∃ ps, parts? (s.flatMap charText ++ '"' :: rest) = some (ps, rest) ∧
      join? ps = some s := by
    induction s with
    | nil => exact ⟨[], by rw [List.flatMap_nil, List.nil_append, parts?], by rw [join?]⟩
    | cons c s ih =>
      obtain ⟨ps, hps, hjoin⟩ := ih
      obtain ⟨p, hp, hread⟩ := parts?_charText c (s.flatMap charText ++ '"' :: rest)
      refine ⟨p :: ps, ?_, ?_⟩
      · rw [List.flatMap_cons, List.append_assoc, hread, hps]
        rfl
      · rw [hp ps, hjoin]
        rfl
  obtain ⟨ps, hps, hjoin⟩ := hparts
  simp only [string?, hps, Option.map_some, hjoin]

theorem string?_stringText (s : String) (rest : List Char) :
    ∃ cs, stringText s ++ rest = '"' :: cs ∧ string? cs = some (some s, rest) := by
  refine ⟨s.toList.flatMap charText ++ '"' :: rest, by simp [stringText], ?_⟩
  rw [string?_flatMap_charText, String.ofList_toList]

namespace Numeral

/-- A numeral as the notation allows it: with digits in every place, and no superfluous zero in
front. -/
structure WellFormed (n : Numeral) : Prop where
  whole : Fexpr.Numeral.IsDigits n.whole
  front : ∀ c cs, n.whole ≠ '0' :: c :: cs
  fraction : n.fraction.all Char.isDigit
  exponent : ∀ e ∈ n.exponent, Fexpr.Numeral.IsDigits e.2

end Numeral

def Stops (rest : List Char) : Prop := ∀ c ∈ rest.head?, ¬ c.isDigit ∧ c ≠ '.' ∧ c ≠ 'e' ∧ c ≠ 'E'

theorem digits?_append {ds rest : List Char} (h : Fexpr.Numeral.IsDigits ds)
    (hrest : ∀ c ∈ rest.head?, ¬ c.isDigit) : digits? (ds ++ rest) = some (ds, rest) := by
  obtain ⟨htake, hdrop⟩ := Text.takeWhile_append_of_all h.2 hrest
  obtain ⟨d, ds, rfl⟩ := List.exists_cons_of_ne_nil h.1
  simp only [digits?, htake, hdrop]

theorem exponent?_exponentText {e : Option (Bool × List Char)} {rest : List Char}
    (h : ∀ x ∈ e, Fexpr.Numeral.IsDigits x.2) (hrest : Stops rest) :
    exponent? (Numeral.exponentText e ++ rest) = some (e, rest) := by
  cases e with
  | none =>
    cases rest with
    | nil => rfl
    | cons c rest =>
      obtain ⟨-, -, he, hE⟩ := hrest c rfl
      rw [Numeral.exponentText, List.nil_append, exponent?, if_neg (by simp [he, hE])]
  | some x =>
    obtain ⟨negative, ds⟩ := x
    have hds := digits?_append (h _ rfl) fun c hc => (hrest c hc).1
    have hsign : Decimal.splitSign ((if negative then '-' else '+') :: (ds ++ rest)) =
        (negative, ds ++ rest) := by
      cases negative <;> rfl
    simp only [Numeral.exponentText, List.cons_append, exponent?, true_or, if_true, hsign]
    rw [hds]
    rfl

theorem fractionDigits?_append {fraction rest : List Char} (h : fraction.all Char.isDigit)
    (hrest : ∀ c ∈ rest.head?, ¬ c.isDigit ∧ c ≠ '.') :
    fractionDigits? ((if fraction.isEmpty then [] else '.' :: fraction) ++ rest) =
      some (fraction, rest) := by
  cases fraction with
  | nil =>
    cases rest with
    | nil => rfl
    | cons c rest =>
      rw [List.isEmpty_nil, if_pos rfl, List.nil_append, fractionDigits?]
      intro cs hcs
      injection hcs with hc _
      exact (hrest c rfl).2 hc
  | cons d ds =>
    rw [List.isEmpty_cons, if_neg (by decide), List.cons_append, fractionDigits?]
    exact digits?_append ⟨List.cons_ne_nil _ _, h⟩ fun c hc => (hrest c hc).1

theorem fraction_head (fraction : List Char) {rest : List Char}
    (hrest : ∀ c ∈ rest.head?, ¬ c.isDigit ∧ c ≠ '.') :
    ∀ c ∈ ((if fraction.isEmpty then [] else '.' :: fraction) ++ rest).head?, ¬ c.isDigit := by
  intro c hc
  cases fraction with
  | nil => exact (hrest c hc).1
  | cons d ds =>
    obtain rfl : '.' = c := by simpa using hc
    decide

theorem wholeDigits?_append {n : Numeral} (h : n.WellFormed) {rest : List Char}
    (hrest : ∀ c ∈ rest.head?, ¬ c.isDigit) :
    wholeDigits? (n.whole ++ rest) = some (n.whole, rest) := by
  rw [wholeDigits?, digits?_append h.whole hrest]
  split
  · rename_i heq
    injection heq with heq
    injection heq with heq _
    exact absurd heq (h.front _ _)
  · rfl

theorem Stops.exponentText {rest : List Char} (h : Stops rest) (e : Option (Bool × List Char)) :
    ∀ c ∈ (Numeral.exponentText e ++ rest).head?, ¬ c.isDigit ∧ c ≠ '.' := by
  intro c hc
  cases e with
  | none => exact ⟨(h c hc).1, (h c hc).2.1⟩
  | some x =>
    obtain rfl : 'e' = c := by simpa [Numeral.exponentText] using hc
    decide

theorem numeral?_of_places {whole fraction cs₁ cs₂ cs₃ rest : List Char} (negative : Bool)
    {exponent : Option (Bool × List Char)} (hsign : ∀ cs, cs₁ ≠ '-' :: cs)
    (hwhole : wholeDigits? cs₁ = some (whole, cs₂))
    (hfraction : fractionDigits? cs₂ = some (fraction, cs₃))
    (hexponent : exponent? cs₃ = some (exponent, rest)) :
    numeral? ((if negative then ['-'] else []) ++ cs₁) =
      some (⟨negative, whole, fraction, exponent⟩, rest) := by
  cases negative with
  | true =>
    simp only [if_true, List.cons_append, List.nil_append, numeral?]
    rw [hwhole]
    simp only [Option.bind_eq_bind, Option.bind_some, hfraction, hexponent]
    rfl
  | false =>
    simp only [Bool.false_eq_true, if_false, List.nil_append, numeral?]
    rw [hwhole]
    simp only [Option.bind_eq_bind, Option.bind_some, hfraction, hexponent]
    rfl

theorem numeral?_chars {n : Numeral} (h : n.WellFormed) {rest : List Char} (hrest : Stops rest) :
    numeral? (n.chars ++ rest) = some (n, rest) := by
  have hexponent := exponent?_exponentText h.exponent hrest
  have hfraction := fractionDigits?_append h.fraction (hrest.exponentText n.exponent)
  have hwhole := wholeDigits?_append h (fraction_head n.fraction (hrest.exponentText n.exponent))
  have hsign : ∀ cs cs', n.whole ++ cs' ≠ '-' :: cs := by
    obtain ⟨d, ds, hds⟩ := List.exists_cons_of_ne_nil h.whole.1
    have hdigit := h.whole.2
    rw [hds] at hdigit ⊢
    rintro cs cs' heq
    injection heq with hd _
    subst hd
    simp at hdigit
  have hread := numeral?_of_places n.negative (fun cs => hsign cs _) hwhole hfraction hexponent
  simpa only [Numeral.chars, List.append_assoc] using hread

inductive WellFormed : Json → Prop
  | null : WellFormed .null
  | bool (b : Bool) : WellFormed (.bool b)
  | number {n : Numeral} (h : n.WellFormed) : WellFormed (.number n)
  | string (s : String) : WellFormed (.string (some s))
  | array {items : List Json} (h : ∀ j ∈ items, WellFormed j) : WellFormed (.array items)
  | object {fields : List (Option String × Json)} (hkeys : ∀ f ∈ fields, f.1.isSome)
      (h : ∀ f ∈ fields, WellFormed f.2) : WellFormed (.object fields)

mutual

theorem length_le_write (layout : Layout) (j : Json) (rest : List Char) :
    rest.length ≤ (write layout j rest).length := by
  cases j with
  | null => simp [write]; omega
  | bool b => cases b <;> simp [write] <;> omega
  | number n => simp [write]
  | string s => simp [write]
  | array items =>
    cases items with
    | nil => simp [write]; omega
    | cons item items =>
      have hitem := length_le_write layout.inner item
        (writeItems layout.inner items (layout.lineBreak ++ ']' :: rest))
      have hitems := length_le_writeItems layout.inner items (layout.lineBreak ++ ']' :: rest)
      simp only [List.length_append, List.length_cons] at hitems
      simp only [write, List.length_cons, List.length_append]
      omega
  | object fields =>
    cases fields with
    | nil => simp [write]; omega
    | cons field fields =>
      obtain ⟨key, value⟩ := field
      have hvalue := length_le_write layout.inner value
        (writeFields layout.inner fields (layout.lineBreak ++ '\x7d' :: rest))
      have hfields := length_le_writeFields layout.inner fields (layout.lineBreak ++ '\x7d' :: rest)
      simp only [List.length_append, List.length_cons] at hfields
      simp only [write, List.length_cons, List.length_append]
      omega
termination_by sizeOf j

theorem length_le_writeItems (layout : Layout) (items : List Json) (rest : List Char) :
    rest.length ≤ (writeItems layout items rest).length := by
  cases items with
  | nil => simp [writeItems]
  | cons item items =>
    have hitem := length_le_write layout item (writeItems layout items rest)
    have hitems := length_le_writeItems layout items rest
    simp only [writeItems, List.length_cons, List.length_append]
    omega
termination_by sizeOf items

theorem length_le_writeFields (layout : Layout) (fields : List (Option String × Json))
    (rest : List Char) : rest.length ≤ (writeFields layout fields rest).length := by
  cases fields with
  | nil => simp [writeFields]
  | cons field fields =>
    obtain ⟨key, value⟩ := field
    have hvalue := length_le_write layout value (writeFields layout fields rest)
    have hfields := length_le_writeFields layout fields rest
    simp only [writeFields, List.length_cons, List.length_append]
    omega
termination_by sizeOf fields

end

theorem skipBlank_cons {c : Char} (h : isBlank c = false) (cs : List Char) :
    skipBlank (c :: cs) = c :: cs := by
  rw [skipBlank, List.dropWhile_cons, h]
  rfl

theorem skipBlank_append {blanks : List Char} (h : ∀ c ∈ blanks, isBlank c) (cs : List Char) :
    skipBlank (blanks ++ cs) = skipBlank cs := by
  rw [skipBlank, List.dropWhile_append_of_pos h, skipBlank]

theorem skipBlank_lineBreak (layout : Layout) (cs : List Char) :
    skipBlank (layout.lineBreak ++ cs) = skipBlank cs := by
  refine skipBlank_append (fun c hc => ?_) cs
  cases layout with
  | compact => simp [Layout.lineBreak] at hc
  | pretty level =>
    simp only [Layout.lineBreak, List.mem_cons, List.mem_replicate] at hc
    rcases hc with rfl | ⟨-, rfl⟩ <;> decide

theorem skipBlank_stringText (s : String) (cs : List Char) :
    skipBlank (stringText s ++ cs) = stringText s ++ cs := by
  rw [stringText, List.cons_append, List.cons_append, skipBlank_cons (by decide)]

theorem Layout.colon_inner (layout : Layout) : layout.inner.colon = layout.colon := by
  cases layout <;> rfl

theorem Numeral.WellFormed.chars {n : Numeral} (h : n.WellFormed) :
    ∃ c cs, n.chars = c :: cs ∧ (c = '-' ∨ c.isDigit) := by
  obtain ⟨d, ds, hds⟩ := List.exists_cons_of_ne_nil h.whole.1
  have hd : d.isDigit := by
    have hall := h.whole.2
    rw [hds, List.all_cons, Bool.and_eq_true] at hall
    exact hall.1
  cases hneg : n.negative with
  | true => exact ⟨'-', _, by simp [Numeral.chars, hneg]; rfl, .inl rfl⟩
  | false => exact ⟨d, _, by simp [Numeral.chars, hneg, hds]; rfl, .inr hd⟩

theorem ne_of_numeral {c d : Char} (hc : c = '-' ∨ c.isDigit) (hminus : d ≠ '-')
    (hdigit : d.isDigit = false) : c ≠ d := by
  rintro rfl
  rcases hc with rfl | hc
  · exact hminus rfl
  · simp [hdigit] at hc

theorem WellFormed.write_head {j : Json} (h : j.WellFormed) (layout : Layout) (rest : List Char) :
    ∃ c cs, write layout j rest = c :: cs ∧ isBlank c = false ∧ c ≠ ']' := by
  cases h with
  | null => exact ⟨'n', _, by rw [write], by decide⟩
  | bool b => cases b <;> exact ⟨_, _, by rw [write], by decide⟩
  | number hn =>
    obtain ⟨c, cs, hcs, hc⟩ := hn.chars
    refine ⟨c, cs ++ rest, by rw [write, hcs, List.cons_append], ?_,
      ne_of_numeral hc (by decide) (by decide)⟩
    have hspace : c ≠ ' ' := ne_of_numeral hc (by decide) (by decide)
    have hnewline : c ≠ '\n' := ne_of_numeral hc (by decide) (by decide)
    have htab : c ≠ '\t' := ne_of_numeral hc (by decide) (by decide)
    have hreturn : c ≠ '\r' := ne_of_numeral hc (by decide) (by decide)
    simp [isBlank, hspace, hnewline, htab, hreturn]
  | string s =>
    exact ⟨'"', _, by rw [write, stringText, List.cons_append, List.cons_append], by decide⟩
  | @array items _ => cases items <;> exact ⟨'[', _, by rw [write], by decide⟩
  | @object fields _ _ =>
    rcases fields with _ | ⟨⟨key, value⟩, fields⟩ <;> exact ⟨'\x7b', _, by rw [write], by decide⟩

theorem WellFormed.skipBlank_write {j : Json} (h : j.WellFormed) (layout : Layout)
    (rest : List Char) : skipBlank (write layout j rest) = write layout j rest := by
  obtain ⟨c, cs, hcs, hc, -⟩ := h.write_head layout rest
  rw [hcs, skipBlank_cons hc]

theorem stops_cons {c : Char} (hc : ¬ c.isDigit ∧ c ≠ '.' ∧ c ≠ 'e' ∧ c ≠ 'E') (cs : List Char) :
    Stops (c :: cs) := by
  intro d hd
  obtain rfl : c = d := by simpa using hd
  exact hc

theorem stops_lineBreak {c : Char} (hc : ¬ c.isDigit ∧ c ≠ '.' ∧ c ≠ 'e' ∧ c ≠ 'E')
    (layout : Layout) (cs : List Char) : Stops (layout.lineBreak ++ c :: cs) := by
  cases layout with
  | compact => exact stops_cons hc cs
  | pretty level => exact stops_cons (by decide) _

/-- Written values are read back in `n` steps, of which one for each character is enough. -/
def ReadsValues (n : Nat) : Prop :=
  ∀ (layout : Layout) (j : Json) (rest cs text : List Char), j.WellFormed → Stops rest →
    write layout j rest = text → skipBlank cs = text → text.length < n + rest.length →
    value? n cs = some (j, rest)

def ReadsItems (n : Nat) : Prop :=
  ∀ (layout outer : Layout) (item : Json) (items : List Json) (rest cs text : List Char),
    (∀ j ∈ item :: items, j.WellFormed) →
    write layout item (writeItems layout items (outer.lineBreak ++ ']' :: rest)) = text →
    skipBlank cs = text → text.length < n + rest.length →
    items? n cs = some (item :: items, rest)

def ReadsMembers (n : Nat) : Prop :=
  ∀ (layout outer : Layout) (key : Option String) (value : Json)
    (fields : List (Option String × Json)) (rest cs text : List Char),
    (∀ f ∈ (key, value) :: fields, f.1.isSome) → (∀ f ∈ (key, value) :: fields, f.2.WellFormed) →
    stringText (key.getD "") ++ (layout.colon ++ write layout value
      (writeFields layout fields (outer.lineBreak ++ '\x7d' :: rest))) = text →
    skipBlank cs = text → text.length < n + rest.length →
    members? n cs = some ((key, value) :: fields, rest)

theorem value?_of_numeral {n : Nat} {m : Numeral} {cs rest : List Char} (h : m.WellFormed)
    (hrest : Stops rest) (hcs : skipBlank cs = m.chars ++ rest) :
    value? (n + 1) cs = some (.number m, rest) := by
  obtain ⟨c, ds, hds, hc⟩ := h.chars
  have hread := numeral?_chars h hrest
  rw [hds, List.cons_append] at hread hcs
  rw [value?, hcs]
  split
  case h_7 => rw [hread]; rfl
  all_goals
    rename_i heq
    injection heq with hhead _
    exact absurd hhead (ne_of_numeral hc (by decide) (by decide))

theorem value?_of_items {n : Nat} {cs rest ds : List Char} {c : Char}
    (hcs : skipBlank cs = '[' :: rest) (hrest : skipBlank rest = c :: ds) (hc : c ≠ ']') :
    value? (n + 1) cs = (items? n (c :: ds)).map fun (items, rest) => (.array items, rest) := by
  rw [value?, hcs]
  simp only [hrest]
  split
  · rename_i heq
    injection heq with hhead _
    exact absurd hhead hc
  · rfl

theorem value?_of_members {n : Nat} {cs rest ds : List Char} {c : Char}
    (hcs : skipBlank cs = '\x7b' :: rest) (hrest : skipBlank rest = c :: ds) (hc : c ≠ '\x7d') :
    value? (n + 1) cs =
      (members? n (c :: ds)).map fun (fields, rest) => (.object fields, rest) := by
  rw [value?, hcs]
  simp only [hrest]
  split
  · rename_i heq
    injection heq with hhead _
    exact absurd hhead hc
  · rfl

theorem readsValues_succ {n : Nat} (hitems : ReadsItems n) (hmembers : ReadsMembers n) :
    ReadsValues (n + 1) := by
  intro layout j rest cs text hj hrest htext hcs hlength
  subst htext
  cases hj with
  | null =>
    rw [value?, hcs, write]
    rfl
  | bool b =>
    rw [value?, hcs]
    cases b <;> rw [write] <;> rfl
  | number hm => exact value?_of_numeral hm hrest (by rw [hcs, write])
  | string s =>
    obtain ⟨ds, hds, hread⟩ := string?_stringText s rest
    rw [value?, hcs, write, Option.getD_some, hds]
    simp only [hread, Option.map_some]
  | @array items h =>
    cases items with
    | nil =>
      rw [value?, hcs, write]
      simp only [skipBlank_cons (show isBlank ']' = false by decide)]
    | cons item items =>
      rw [write] at hcs hlength
      have hitem := h item List.mem_cons_self
      obtain ⟨c, ds, hds, hblank, hc⟩ := hitem.write_head layout.inner
        (writeItems layout.inner items (layout.lineBreak ++ ']' :: rest))
      rw [hds] at hcs hlength
      have hskip : skipBlank (layout.inner.lineBreak ++ c :: ds) = c :: ds := by
        rw [skipBlank_lineBreak, skipBlank_cons hblank]
      have hread : items? n (c :: ds) = some (item :: items, rest) := by
        refine hitems layout.inner layout item items rest _ _ h hds (skipBlank_cons hblank ds) ?_
        simp only [List.length_cons, List.length_append] at hlength ⊢
        omega
      rw [value?_of_items hcs hskip hc, hread]
      rfl
  | @object fields hkeys h =>
    rcases fields with _ | ⟨⟨key, value⟩, fields⟩
    · rw [value?, hcs, write]
      simp only [skipBlank_cons (show isBlank '\x7d' = false by decide)]
    · rw [write, List.append_assoc, List.append_assoc, ← layout.colon_inner] at hcs hlength
      obtain ⟨ds, hds, -⟩ := string?_stringText (key.getD "") (layout.inner.colon ++
        write layout.inner value
          (writeFields layout.inner fields (layout.lineBreak ++ '\x7d' :: rest)))
      rw [hds] at hcs hlength
      have hskip : skipBlank (layout.inner.lineBreak ++ '"' :: ds) = '"' :: ds := by
        rw [skipBlank_lineBreak, skipBlank_cons (by decide)]
      have hread : members? n ('"' :: ds) = some ((key, value) :: fields, rest) := by
        refine hmembers layout.inner layout key value fields rest _ _ hkeys h hds
          (skipBlank_cons (by decide) ds) ?_
        simp only [List.length_cons, List.length_append] at hlength ⊢
        omega
      rw [value?_of_members hcs hskip (by decide), hread]
      rfl

theorem stops_writeItems (layout outer : Layout) (items : List Json) (rest : List Char) :
    Stops (writeItems layout items (outer.lineBreak ++ ']' :: rest)) := by
  cases items with
  | nil =>
    rw [writeItems]
    exact stops_lineBreak (by decide) outer rest
  | cons item items =>
    rw [writeItems]
    exact stops_cons (by decide) _

theorem readsItems_succ {n : Nat} (hvalues : ReadsValues n) (hitems : ReadsItems n) :
    ReadsItems (n + 1) := by
  intro layout outer item items rest cs text h htext hcs hlength
  have hafter := length_le_writeItems layout items (outer.lineBreak ++ ']' :: rest)
  have hitem : value? n cs =
      some (item, writeItems layout items (outer.lineBreak ++ ']' :: rest)) := by
    refine hvalues layout item _ cs text (h item List.mem_cons_self)
      (stops_writeItems layout outer items rest) htext hcs ?_
    simp only [List.length_append, List.length_cons] at hafter
    omega
  rw [items?, hitem]
  cases items with
  | nil =>
    have hskip : skipBlank (outer.lineBreak ++ ']' :: rest) = ']' :: rest := by
      rw [skipBlank_lineBreak, skipBlank_cons (by decide)]
    simp only [writeItems, Option.bind_eq_bind, Option.bind_some, hskip]
    rfl
  | cons next items =>
    have hnext := (h next (by simp)).skipBlank_write layout
      (writeItems layout items (outer.lineBreak ++ ']' :: rest))
    have htail : items? n (layout.lineBreak ++ write layout next
        (writeItems layout items (outer.lineBreak ++ ']' :: rest))) =
        some (next :: items, rest) := by
      refine hitems layout outer next items rest _ _ (fun j hj => h j (List.mem_cons_of_mem _ hj))
        rfl (by rw [skipBlank_lineBreak, hnext]) ?_
      have hlen := length_le_write layout item (writeItems layout (next :: items)
        (outer.lineBreak ++ ']' :: rest))
      rw [htext, writeItems] at hlen
      simp only [List.length_cons, List.length_append] at hlen
      omega
    rw [writeItems]
    simp only [Option.bind_eq_bind, Option.bind_some,
      skipBlank_cons (show isBlank ',' = false by decide), htail]
    rfl

theorem stops_writeFields (layout outer : Layout) (fields : List (Option String × Json))
    (rest : List Char) : Stops (writeFields layout fields (outer.lineBreak ++ '\x7d' :: rest)) := by
  cases fields with
  | nil =>
    rw [writeFields]
    exact stops_lineBreak (by decide) outer rest
  | cons field fields =>
    rw [writeFields]
    exact stops_cons (by decide) _

theorem skipBlank_colon (layout : Layout) (cs : List Char) :
    ∃ blanks, skipBlank (layout.colon ++ cs) = ':' :: (blanks ++ cs) ∧ ∀ c ∈ blanks, isBlank c := by
  cases layout with
  | compact => exact ⟨[], skipBlank_cons (by decide) cs, by simp⟩
  | pretty level => exact ⟨[' '], skipBlank_cons (by decide) _, by simp [isBlank]⟩

theorem readsMembers_succ {n : Nat} (hvalues : ReadsValues n) (hmembers : ReadsMembers n) :
    ReadsMembers (n + 1) := by
  intro layout outer key value fields rest cs text hkeys h htext hcs hlength
  obtain ⟨name, rfl⟩ := Option.isSome_iff_exists.1 (hkeys _ List.mem_cons_self)
  have hwf := h _ List.mem_cons_self
  rw [Option.getD_some] at htext
  -- The name, the colon and the value are read first, then what follows the value.
  obtain ⟨ds, hds, hname⟩ := string?_stringText name (layout.colon ++ write layout value
    (writeFields layout fields (outer.lineBreak ++ '\x7d' :: rest)))
  obtain ⟨blanks, hcolon, hblanks⟩ := skipBlank_colon layout (write layout value
    (writeFields layout fields (outer.lineBreak ++ '\x7d' :: rest)))
  have hafter := length_le_writeFields layout fields (outer.lineBreak ++ '\x7d' :: rest)
  have hlen := length_le_write layout value
    (writeFields layout fields (outer.lineBreak ++ '\x7d' :: rest))
  have htotal := congrArg List.length htext
  simp only [List.length_append, List.length_cons] at hafter htotal
  have hvalue : value? n (blanks ++ write layout value
      (writeFields layout fields (outer.lineBreak ++ '\x7d' :: rest))) =
      some (value, writeFields layout fields (outer.lineBreak ++ '\x7d' :: rest)) := by
    refine hvalues layout value _ _ _ hwf (stops_writeFields layout outer fields rest) rfl
      (by rw [skipBlank_append hblanks, hwf.skipBlank_write]) ?_
    omega
  rw [members?, hcs, ← htext, hds]
  simp only [Option.bind_eq_bind, hname, Option.bind_some, hcolon, hvalue]
  cases fields with
  | nil =>
    have hskip : skipBlank (outer.lineBreak ++ '\x7d' :: rest) = '\x7d' :: rest := by
      rw [skipBlank_lineBreak, skipBlank_cons (by decide)]
    simp only [writeFields, hskip]
    rfl
  | cons field fields =>
    obtain ⟨next, value'⟩ := field
    have htail : members? n (layout.lineBreak ++ (stringText (next.getD "") ++ (layout.colon ++
        write layout value' (writeFields layout fields (outer.lineBreak ++ '\x7d' :: rest))))) =
        some ((next, value') :: fields, rest) := by
      refine hmembers layout outer next value' fields rest _ _
        (fun f hf => hkeys f (List.mem_cons_of_mem _ hf))
        (fun f hf => h f (List.mem_cons_of_mem _ hf)) rfl
        (by rw [skipBlank_lineBreak, skipBlank_stringText]) ?_
      rw [writeFields] at hlen htotal
      simp only [List.length_cons, List.length_append] at hlen ⊢
      omega
    rw [writeFields]
    simp only [List.append_assoc, skipBlank_cons (show isBlank ',' = false by decide),
      Option.bind_some, htail]
    rfl

theorem reads (n : Nat) : ReadsValues n ∧ ReadsItems n ∧ ReadsMembers n := by
  induction n with
  -- no text is as short as zero steps allow
  | zero =>
    refine ⟨?_, ?_, ?_⟩
    · intro layout j rest cs text _ _ htext _ hlength
      have hle := length_le_write layout j rest
      rw [htext] at hle
      omega
    · intro layout outer item items rest cs text _ htext _ hlength
      have hle := length_le_write layout item
        (writeItems layout items (outer.lineBreak ++ ']' :: rest))
      have hitems := length_le_writeItems layout items (outer.lineBreak ++ ']' :: rest)
      rw [htext] at hle
      simp only [List.length_append, List.length_cons] at hitems
      omega
    · intro layout outer key value fields rest cs text _ _ htext _ hlength
      have hle := length_le_write layout value
        (writeFields layout fields (outer.lineBreak ++ '\x7d' :: rest))
      have hfields := length_le_writeFields layout fields (outer.lineBreak ++ '\x7d' :: rest)
      have htotal := congrArg List.length htext
      simp only [List.length_append, List.length_cons] at hfields htotal
      omega
  | succ n ih =>
    obtain ⟨hvalues, hitems, hmembers⟩ := ih
    exact ⟨readsValues_succ hitems hmembers, readsItems_succ hvalues hitems,
      readsMembers_succ hvalues hmembers⟩

/-- A value is read back from its text, whatever its layout. -/
theorem ofText?_write {j : Json} (h : j.WellFormed) (layout : Layout) :
    ofText? (String.ofList (write layout j [])) = some j := by
  have hread := (reads (2 * (write layout j []).length + 2)).1 layout j [] (write layout j []) _ h
    (by intro c hc; simp at hc) rfl (h.skipBlank_write layout []) (by omega)
  simp only [ofText?, String.toList_ofList, hread]
  rfl

end Fexpr.Json
