import Fexpr.Number.Decimal
import Fexpr.Token.Lexeme

/-!
# Numerals

The pattern of numbers: perhaps a minus sign, digits, perhaps a fraction, perhaps an exponent. Every
number token has this form, and every text of this form denotes a number.
-/

namespace Fexpr

namespace Text

theorem take_run (p : Char → Bool) (cs : List Char) : cs.take (run p cs) = cs.takeWhile p := by
  calc
    cs.take (run p cs) = (cs.takeWhile p ++ cs.dropWhile p).take (cs.takeWhile p).length := by
      rw [List.takeWhile_append_dropWhile, run]
    _ = cs.takeWhile p := List.take_left

theorem drop_run (p : Char → Bool) (cs : List Char) : cs.drop (run p cs) = cs.dropWhile p := by
  calc
    cs.drop (run p cs) = (cs.takeWhile p ++ cs.dropWhile p).drop (cs.takeWhile p).length := by
      rw [List.takeWhile_append_dropWhile, run]
    _ = cs.dropWhile p := List.drop_left

/-- A run ends where what follows does not begin with a character of its kind. -/
theorem takeWhile_append_of_all {p : Char → Bool} {cs rest : List Char} (h : cs.all p)
    (hrest : ∀ c ∈ rest.head?, ¬ p c) :
    (cs ++ rest).takeWhile p = cs ∧ (cs ++ rest).dropWhile p = rest := by
  have hcs := List.all_eq_true.mp h
  rw [List.takeWhile_append_of_pos hcs, List.dropWhile_append_of_pos hcs]
  cases rest with
  | nil => exact ⟨List.append_nil cs, rfl⟩
  | cons c rest =>
    have hc : ¬ p c := hrest c rfl
    rw [List.takeWhile_cons_of_neg hc, List.dropWhile_cons_of_neg hc]
    exact ⟨List.append_nil cs, rfl⟩

end Text

namespace Numeral

def IsDigits (cs : List Char) : Prop := cs ≠ [] ∧ cs.all Char.isDigit

inductive IsFraction : List Char → Prop
  | absent : IsFraction []
  | point {ds : List Char} (h : IsDigits ds) : IsFraction ('.' :: ds)

inductive IsExponent : List Char → Prop
  | absent : IsExponent []
  | marked {mark : Char} {sign ds : List Char} (hm : mark = 'e' ∨ mark = 'E')
    (hs : sign = [] ∨ sign = ['+'] ∨ sign = ['-']) (h : IsDigits ds) :
    IsExponent (mark :: (sign ++ ds))

inductive IsUnsigned : List Char → Prop
  | parts {whole fraction exponent : List Char} (hw : IsDigits whole) (hf : IsFraction fraction)
    (he : IsExponent exponent) : IsUnsigned (whole ++ (fraction ++ exponent))

inductive IsNumeral : List Char → Prop
  | plain {cs : List Char} (h : IsUnsigned cs) : IsNumeral cs
  | negative {cs : List Char} (h : IsUnsigned cs) : IsNumeral ('-' :: cs)

theorem IsUnsigned.ne_nil {cs : List Char} (h : IsUnsigned cs) : cs ≠ [] := by
  cases h with
  | parts hw hf he => exact List.append_ne_nil_of_left_ne_nil hw.1 _

theorem IsExponent.head {cs : List Char} (h : IsExponent cs) :
    ∀ c ∈ cs.head?, c = 'e' ∨ c = 'E' := by
  cases h with
  | absent => simp
  | marked hm hs h => simpa using hm

theorem IsFraction.head {cs rest : List Char} (h : IsFraction cs) (hrest : IsExponent rest) :
    ∀ c ∈ (cs ++ rest).head?, ¬ c.isDigit := by
  intro c hc
  cases h with
  | absent => rcases hrest.head c hc with rfl | rfl <;> decide
  | point h =>
    obtain rfl : '.' = c := by simpa using hc
    decide

theorem splitSign_of_isDigits {ds : List Char} (h : IsDigits ds) :
    Decimal.splitSign ds = (false, ds) := by
  obtain ⟨hne, hall⟩ := h
  unfold Decimal.splitSign
  split
  · simp at hall
  · simp at hall
  · rfl

theorem exponentValue?_of_isExponent {cs : List Char} (h : IsExponent cs) :
    ∃ e, Decimal.exponentValue? cs = some e := by
  cases h with
  | absent => exact ⟨0, rfl⟩
  | @marked mark sign ds hm hs h =>
    obtain ⟨negative, hsplit⟩ : ∃ b, Decimal.splitSign (sign ++ ds) = (b, ds) := by
      rcases hs with rfl | rfl | rfl
      · exact ⟨false, splitSign_of_isDigits h⟩
      · exact ⟨false, rfl⟩
      · exact ⟨true, rfl⟩
    simp only [Decimal.exponentValue?, hsplit]
    rw [if_pos ⟨hm, h.1, h.2⟩]
    exact ⟨_, rfl⟩

theorem splitFraction_append {fraction exponent : List Char} (hf : IsFraction fraction)
    (he : IsExponent exponent) :
    ∃ ds, Decimal.splitFraction (fraction ++ exponent) = (ds, exponent) := by
  cases hf with
  | absent =>
    refine ⟨[], ?_⟩
    unfold Decimal.splitFraction
    split
    · rename_i cs hcs
      rcases he.head '.' (by rw [← List.nil_append exponent, hcs]; rfl) with h | h <;>
        exact absurd h (by decide)
    · rfl
  | @point ds h =>
    have hexponent : ∀ c ∈ exponent.head?, ¬ c.isDigit := IsFraction.head .absent he
    obtain ⟨htake, hdrop⟩ := Text.takeWhile_append_of_all h.2 hexponent
    exact ⟨ds, by simp only [List.cons_append, Decimal.splitFraction, htake, hdrop]⟩

theorem ofChars?_of_splitSign {cs rest : List Char} {negative : Bool}
    (hsign : Decimal.splitSign cs = (negative, rest)) (h : IsUnsigned rest) :
    ∃ d, Decimal.ofChars? cs = some d := by
  cases h with
  | @parts whole fraction exponent hw hf he =>
    obtain ⟨htake, hdrop⟩ := Text.takeWhile_append_of_all hw.2 (hf.head he)
    obtain ⟨ds, hsplit⟩ := splitFraction_append hf he
    obtain ⟨e, hexponent⟩ := exponentValue?_of_isExponent he
    simp only [Decimal.ofChars?, hsign, htake, hdrop, hsplit, hexponent, hw.1, false_and,
      if_false, Option.map_some]
    exact ⟨_, rfl⟩

theorem splitSign_of_isUnsigned {cs : List Char} (h : IsUnsigned cs) :
    Decimal.splitSign cs = (false, cs) := by
  cases h with
  | @parts whole fraction exponent hw hf he =>
    obtain ⟨hne, hall⟩ := hw
    cases whole with
    | nil => exact absurd rfl hne
    | cons c whole =>
      unfold Decimal.splitSign
      split
      · simp_all
      · simp_all
      · rfl

theorem ofText?_of_isNumeral {text : String} (h : IsNumeral text.toList) :
    ∃ n, Number.ofText? text = some n := by
  obtain ⟨d, hd⟩ : ∃ d, Decimal.ofChars? text.toList = some d := by
    generalize text.toList = cs at h
    cases h with
    | plain h => exact ofChars?_of_splitSign (splitSign_of_isUnsigned h) h
    | negative h => exact ofChars?_of_splitSign rfl h
  exact ⟨d.toNumber, by rw [Number.ofText?, hd, Option.map_some]⟩

theorem isDigits_takeWhile {cs : List Char} (h : Text.run Char.isDigit cs ≠ 0) :
    IsDigits (cs.takeWhile Char.isDigit) :=
  ⟨fun he => h (by rw [Text.run, he]; rfl), List.all_takeWhile⟩

theorem isFraction_take (cs : List Char) : IsFraction (cs.take (Lexeme.fractionLength cs)) := by
  unfold Lexeme.fractionLength
  split
  · rename_i cs
    split
    · exact .absent
    · rename_i h
      rw [Nat.add_comm, List.take_succ_cons, Text.take_run]
      exact .point (isDigits_takeWhile h)
  · exact .absent

theorem take_signLength (cs : List Char) :
    cs.take (Lexeme.signLength cs) = [] ∨ cs.take (Lexeme.signLength cs) = ['+'] ∨
      cs.take (Lexeme.signLength cs) = ['-'] := by
  unfold Lexeme.signLength
  split
  · split
    · rename_i h
      rcases h with rfl | rfl <;> simp
    · exact .inl rfl
  · exact .inl rfl

theorem isExponent_take (cs : List Char) : IsExponent (cs.take (Lexeme.exponentLength cs)) := by
  unfold Lexeme.exponentLength
  split
  · rename_i mark cs
    split
    · rename_i hm
      simp only
      split
      · exact .absent
      · rename_i h
        rw [Nat.add_assoc, Nat.add_comm, List.take_succ_cons, List.take_add, Text.take_run]
        exact .marked hm (take_signLength cs) (isDigits_takeWhile h)
    · exact .absent
  · exact .absent

theorem isUnsigned_take {c : Char} (hc : c.isDigit) (cs : List Char) :
    IsUnsigned (c :: cs.take (Lexeme.numberLength cs)) := by
  simp only [Lexeme.numberLength]
  rw [List.take_add, List.take_add, Text.take_run, List.append_assoc, ← List.cons_append]
  refine .parts ⟨List.cons_ne_nil _ _, ?_⟩ (isFraction_take _) (isExponent_take _)
  rw [List.all_cons, hc, List.all_takeWhile]
  rfl

theorem isNumeral_of_munch {c : Char} {cs : List Char} {n : Nat}
    (h : Lexeme.munch c cs = (.token .number, n)) : IsNumeral (c :: cs.take n) := by
  unfold Lexeme.munch at h
  split at h
  · cases h
  split at h
  · cases h
  split at h
  · rename_i hc
    cases h
    exact .plain (isUnsigned_take hc cs)
  split at h
  · rename_i hc
    subst hc
    split at h
    · rename_i d ds
      split at h
      · rename_i hd
        cases h
        rw [Nat.add_comm, List.take_succ_cons]
        exact .negative (isUnsigned_take hd ds)
      · cases h
    · cases h
  split at h
  · split at h <;> cases h
  split at h
  · split at h
    · cases h
    · split at h <;> cases h
    · cases h
  · split at h
    · rename_i kind hkind
      cases h
      unfold Lexeme.punctuation? at hkind
      split at hkind <;> cases hkind
    · cases h

end Numeral

/-- Every number token of a source is a numeral. -/
theorem Lexeme.isNumeral_of_mem_lexemesFrom {offset : Nat} {cs : List Char} {l : Lexeme}
    (h : l ∈ lexemesFrom offset cs) (hl : l.cls = .token .number) : Numeral.IsNumeral l.text := by
  fun_induction lexemesFrom offset cs with
  | case1 => cases h
  | case2 offset c cs cls n hm text ih =>
    rcases List.mem_cons.mp h with rfl | h
    · simp only at hl
      subst hl
      exact Numeral.isNumeral_of_munch hm
    · exact ih h

end Fexpr
