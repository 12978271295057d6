import Fexpr.Proofs.Rendering
import Fexpr.Proofs.ShortestDigits
import Fexpr.Store.Display

/-!
# Printed numbers

A finite number is displayed as a numeral without an exponent, and it is the number nearest to that
numeral. So the numeral alone is a source that denotes the number; only the sign of a zero is lost.
-/

namespace Fexpr

open Number Decimal

structure PlainNumeral where
  negative : Bool
  whole : List Char
  fraction : List Char
  whole_digits : Numeral.IsDigits whole
  fraction_digits : fraction.all Char.isDigit

namespace PlainNumeral

variable (p : PlainNumeral)

def tail : List Char := if p.fraction = [] then [] else '.' :: p.fraction

def chars : List Char := (if p.negative then ['-'] else []) ++ (p.whole ++ p.tail)

def value : ℚ := digitsValue (p.whole ++ p.fraction) * 10 ^ (-p.fraction.length : Int)

theorem isFraction_tail : Numeral.IsFraction p.tail := by
  unfold tail
  split
  · exact .absent
  · rename_i hne
    exact .point ⟨hne, p.fraction_digits⟩

theorem isUnsigned : Numeral.IsUnsigned (p.whole ++ p.tail) := by
  rw [← List.append_nil p.tail]
  exact .parts p.whole_digits p.isFraction_tail .absent

theorem isNumeral_chars : Numeral.IsNumeral p.chars := by
  unfold chars
  split
  · exact .negative p.isUnsigned
  · exact .plain p.isUnsigned

theorem splitSign_chars : splitSign p.chars = (p.negative, p.whole ++ p.tail) := by
  unfold chars
  cases p.negative with
  | true => rfl
  | false => exact Numeral.splitSign_of_isUnsigned p.isUnsigned

theorem splitFraction_tail : splitFraction p.tail = (p.fraction, []) := by
  unfold tail
  split
  · rename_i hnil
    rw [hnil]
    rfl
  · have hend : ∀ c ∈ ([] : List Char).head?, ¬ c.isDigit := by simp
    obtain ⟨htake, hdrop⟩ := Text.takeWhile_append_of_all p.fraction_digits hend
    rw [List.append_nil] at htake hdrop
    rw [splitFraction, htake, hdrop]

theorem ofChars?_chars : ofChars? p.chars =
    some ⟨p.negative, digitsValue (p.whole ++ p.fraction), -p.fraction.length⟩ := by
  have hhead : ∀ c ∈ p.tail.head?, ¬ c.isDigit := by
    have hhead := p.isFraction_tail.head .absent
    rwa [List.append_nil] at hhead
  obtain ⟨htake, hdrop⟩ := Text.takeWhile_append_of_all p.whole_digits.2 hhead
  simp only [ofChars?, splitSign_chars, htake, hdrop, splitFraction_tail, p.whole_digits.1,
    false_and, if_false, exponentValue?, Option.map_some, Int.zero_sub]

theorem ofText?_chars {r : Nat} (h : r < finiteCount) (hvalue : nearest p.value = r) :
    ofText? (String.ofList p.chars) = some (.finite p.negative ⟨r, h⟩) := by
  have hrank : rank (digitsValue (p.whole ++ p.fraction)) (-p.fraction.length) = r :=
    (rank_eq_iff h).mpr hvalue
  rw [ofText?, String.toList_ofList, ofChars?_chars, Option.map_some, toNumber, hrank, ofRank,
    dif_pos h]

def word : Word where
  kind := .number
  text := p.chars
  found := ⟨Pattern.number, by simp [Pattern.declared], Pattern.mem_number.mpr p.isNumeral_chars⟩
  closed := by decide

end PlainNumeral

namespace Digits

variable {d : Digits}

/-- Laid out without an exponent, digits stand for the same number. -/
theorem positional_spec (hd : d.WellFormed) :
    Numeral.IsDigits d.positional.1 ∧ d.positional.2.all Char.isDigit ∧
      digitsValue (d.positional.1 ++ d.positional.2) *
        (10 : ℚ) ^ (-d.positional.2.length : Int) = d.value := by
  obtain ⟨hne, hall⟩ := hd.digits
  unfold positional
  split
  · rename_i e he
    have hpower : (-(zeros e ++ d.chars).length : Int) = d.leading + 1 - d.chars.length := by
      rw [he, List.length_append, zeros, List.length_replicate]
      omega
    have hdigits : digitsValue (['0'] ++ (zeros e ++ d.chars)) = digitsValue d.chars := by
      rw [digitsValue_append, digitsValue_append, zeros, digitsValue_replicate_zero,
        show digitsValue ['0'] = 0 from rfl]
      omega
    refine ⟨⟨by simp, rfl⟩, ?_, ?_⟩
    · rw [List.all_append, all_zeros, hall, Bool.and_self]
    · rw [hdigits, hpower, value]
  · rename_i e he
    split
    · rename_i hshort
      have hpower : d.leading + 1 - d.chars.length = ((e + 1 - d.chars.length : Nat) : Int) := by
        rw [he, Int.ofNat_eq_natCast]
        omega
      refine ⟨⟨by simp [hne], ?_⟩, rfl, ?_⟩
      · rw [List.all_append, all_zeros, hall, Bool.and_self]
      · rw [value, hpower, List.append_nil, digitsValue_append, zeros, digitsValue_replicate_zero,
          List.length_replicate, zpow_natCast]
        simp
    · rename_i hlong
      have hsplit := List.take_append_drop (e + 1) d.chars
      rw [← hsplit, List.all_append, Bool.and_eq_true] at hall
      have hpower : (-(d.chars.drop (e + 1)).length : Int) = d.leading + 1 - d.chars.length := by
        rw [he, Int.ofNat_eq_natCast, List.length_drop]
        omega
      refine ⟨⟨by simp [hne], hall.1⟩, hall.2, ?_⟩
      rw [hsplit, hpower, value]

theorem positionalText_eq {whole fraction : List Char} (h : d.positional = (whole, fraction)) :
    d.positionalText = String.ofList (whole ++ if fraction = [] then [] else '.' :: fraction) := by
  rw [positionalText, h]
  cases fraction with
  | nil => rw [if_pos rfl, List.append_nil]
  | cons c cs => rw [if_neg (List.cons_ne_nil c cs)]

end Digits

namespace Number

theorem sign_eq (negative : Bool) :
    sign negative = String.ofList (if negative then ['-'] else []) := by
  cases negative with
  | true => rfl
  | false => rfl

theorem exists_plain_of_isWhole (negative : Bool) {r : Nat} (h : isWhole r) :
    ∃ p : PlainNumeral, sign negative ++ toString (wholePart r) = String.ofList p.chars ∧
      p.negative = negative ∧ p.value = magnitude r := by
  have hunits : units r = wholePart r * unitsPerOne := by
    have hrest : units r % unitsPerOne = 0 := beq_iff_eq.mp h
    rw [wholePart, Nat.div_mul_cancel (Nat.dvd_of_mod_eq_zero hrest)]
  refine ⟨⟨negative, Nat.toDigits 10 (wholePart r), [], Digits.isDigits_toDigits _, rfl⟩, ?_, rfl,
    ?_⟩
  · rw [Nat.toString_eq_ofList_toDigits, sign_eq, ← String.ofList_append, PlainNumeral.chars,
      PlainNumeral.tail, if_pos rfl, List.append_nil]
  · rw [magnitude_of_units hunits, PlainNumeral.value, List.append_nil, digitsValue_toDigits]
    simp

theorem exists_plain_of_positional (negative : Bool) {r : Nat} (hpos : 0 < r)
    (hfinite : r < finiteCount) :
    ∃ p : PlainNumeral,
      sign negative ++ (Digits.shortest .up r).positionalText = String.ofList p.chars ∧
        p.negative = negative ∧ nearest p.value = r := by
  obtain ⟨hd, hnearest, -⟩ := Digits.shortest_spec .up hpos hfinite
  have hspec := Digits.positional_spec hd
  cases hlayout : (Digits.shortest .up r).positional with
  | mk whole fraction =>
    rw [hlayout] at hspec
    obtain ⟨hwhole, hfraction, hvalue⟩ := hspec
    refine ⟨⟨negative, whole, fraction, hwhole, hfraction⟩, ?_, rfl, ?_⟩
    · rw [Digits.positionalText_eq hlayout, sign_eq, ← String.ofList_append]
      rfl
    · rw [PlainNumeral.value, hvalue, hnearest]

theorem pos_of_not_whole {r : Nat} (h : ¬ (isWhole r ∧ wholePart r < Nat.pow 10 15)) : 0 < r := by
  rw [Nat.pos_iff_ne_zero]
  rintro rfl
  exact h (by decide +kernel)

def unsignedZero : Number → Number
  | finite negative rank => finite (negative && rank.val != 0) rank
  | n => n

theorem exists_plain_display (negative : Bool) (rank : Fin finiteCount) :
    ∃ p : PlainNumeral, (finite negative rank).display = String.ofList p.chars ∧
      p.negative = (negative && rank.val != 0) ∧ nearest p.value = rank := by
  rw [display]
  split
  · rename_i hwhole
    obtain ⟨p, hp, hsign, hvalue⟩ :=
      exists_plain_of_isWhole (negative && rank.val != 0) hwhole.1
    exact ⟨p, hp, hsign, by rw [hvalue, nearest_magnitude]⟩
  · rename_i hnot
    have hpos := pos_of_not_whole hnot
    obtain ⟨p, hp, hsign, hvalue⟩ := exists_plain_of_positional negative hpos rank.isLt
    refine ⟨p, hp, ?_, hvalue⟩
    rw [hsign, bne_iff_ne.mpr hpos.ne', Bool.and_true]

theorem exists_word_display {n : Number} (hn : n.isFinite) :
    ∃ w : Word, w.kind = .number ∧ String.ofList w.text = n.display ∧
      ofText? n.display = some n.unsignedZero := by
  cases n with
  | nan | infinity => cases hn
  | finite negative rank =>
    obtain ⟨p, hp, hsign, hvalue⟩ := exists_plain_display negative rank
    refine ⟨p.word, rfl, hp.symm, ?_⟩
    rw [hp, p.ofText?_chars rank.isLt hvalue, hsign]
    rfl

theorem display_unsignedZero (n : Number) : n.unsignedZero.display = n.display := by
  cases n with
  | nan | infinity => rfl
  | finite negative rank =>
    rw [unsignedZero, display, display]
    split
    · rw [Bool.and_assoc, Bool.and_self]
    · rename_i hnot
      rw [bne_iff_ne.mpr (pos_of_not_whole hnot).ne', Bool.and_true]

theorem unsignedZero_eq_self {n : Number} (h : n ≠ ofRank true 0) : n.unsignedZero = n := by
  cases n with
  | nan => rfl
  | infinity negative => rfl
  | finite negative rank =>
    cases negative with
    | false => rfl
    | true =>
      have hne : rank.val ≠ 0 := by
        intro hzero
        apply h
        rw [ofRank, dif_pos (by decide)]
        congr 1
        exact Fin.ext hzero
      rw [unsignedZero, bne_iff_ne.mpr hne]
      rfl

theorem equal_unsignedZero {n : Number} (hn : n.isFinite) : n.unsignedZero.equal n := by
  cases n with
  | nan | infinity => cases hn
  | finite negative rank =>
    by_cases hzero : rank.val = 0
    · simp [unsignedZero, equal, hzero]
    · simp [unsignedZero, equal, bne_iff_ne.mpr hzero]

theorem equal_iff_unsignedZero {m n : Number} (hm : m.isFinite) (hn : n.isFinite) :
    m.equal n ↔ m.unsignedZero = n.unsignedZero := by
  cases m with
  | nan | infinity => cases hm
  | finite a r =>
    cases n with
    | nan | infinity => cases hn
    | finite b s =>
      simp only [equal, unsignedZero, Bool.and_eq_true, beq_iff_eq, Bool.or_eq_true, finite.injEq]
      constructor
      · rintro ⟨rfl, rfl | hzero⟩
        · exact ⟨rfl, rfl⟩
        · simp [hzero]
      · rintro ⟨hsign, rfl⟩
        refine ⟨rfl, ?_⟩
        by_cases hzero : r.val = 0
        · exact .inr hzero
        · left
          rwa [bne_iff_ne.mpr hzero, Bool.and_true, Bool.and_true] at hsign

theorem display_eq_iff {m n : Number} (hm : m.isFinite) (hn : n.isFinite) :
    m.display = n.display ↔ m.equal n := by
  rw [equal_iff_unsignedZero hm hn]
  constructor
  · intro h
    obtain ⟨-, -, -, hreadsM⟩ := exists_word_display hm
    obtain ⟨-, -, -, hreadsN⟩ := exists_word_display hn
    rw [h, hreadsN] at hreadsM
    exact (Option.some.inj hreadsM).symm
  · intro h
    rw [← display_unsignedZero m, h, display_unsignedZero]

end Number

/--
The text of a finite number is one number token as a source, and the literal that it is parsed to
equals the number. It is the number itself, but for a negative zero, whose text is that of zero. So
finite numbers have the same text if and only if they are equal.
-/
theorem Number.display_reads_back {n : Number} (hn : n.isFinite) (σ : Store) :
    let text := σ.display (.number n)
    let p : Span := ⟨0, text.utf8ByteSize⟩
    lex text = .ok [⟨.number, text, p⟩, Token.endOf text] ∧
    (∃ m : Number, parse text = .ok (.block p [.literal p (.number m)]) ∧ m.equal n ∧
      (n ≠ ofRank true 0 → m = n) ∧ (n = ofRank true 0 → text = "0")) ∧
    ∀ m : Number, m.isFinite → (σ.display (.number m) = text ↔ m.equal n) := by
  intro text p
  obtain ⟨w, hkind, htext, hreads⟩ := exists_word_display hn
  have htoken : w.alone = ⟨.number, text, p⟩ := by
    rw [Word.alone, hkind, ← Text.utf8ByteSize_ofList, htext]
    rfl
  have hlex := w.lex_alone
  have hparse := w.parse_alone (e := .literal w.alone.span (.number n.unsignedZero))
    (.number (by rw [htoken]) (by rw [htoken]; exact hreads))
  rw [htoken, htext] at hlex hparse
  refine ⟨hlex, ⟨n.unsignedZero, hparse, equal_unsignedZero hn, unsignedZero_eq_self, ?_⟩, ?_⟩
  · intro hzero
    change n.display = "0"
    rw [hzero]
    decide +kernel
  · intro m hm
    exact display_eq_iff hm hn

/-- A tenth below zero, which no number is exactly. -/
theorem Number.display_reads_back_tenth :
    let n := ofRank true (nearestRank 1 10)
    n.isFinite ∧ n.display = "-0.1" ∧
      lex "-0.1" = .ok [⟨.number, "-0.1", ⟨0, 4⟩⟩, Token.endOf "-0.1"] ∧
      parse "-0.1" = .ok (.block ⟨0, 4⟩ [.literal ⟨0, 4⟩ (.number n)]) := by
  intro n
  have hfinite : n.isFinite := by decide +kernel
  have htext : n.display = "-0.1" := by decide +kernel
  have hne : n ≠ ofRank true 0 := by decide +kernel
  have hshown : Store.empty.display (.number n) = "-0.1" := htext
  have hsize : "-0.1".utf8ByteSize = 4 := by decide
  have hreads := Number.display_reads_back hfinite Store.empty
  simp only [hshown, hsize] at hreads
  obtain ⟨hlex, ⟨m, hparse, -, hself, -⟩, -⟩ := hreads
  rw [hself hne] at hparse
  exact ⟨hfinite, htext, hlex, hparse⟩

end Fexpr
