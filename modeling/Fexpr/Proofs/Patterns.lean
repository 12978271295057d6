import Mathlib.Computability.Language
import Fexpr.Proofs.Numerals

/-!
# Patterns of lexemes

Each class of lexemes is described by regular expressions. They are written here as languages over
characters, with `*` for concatenation, `+` for choice and `∗` for repetition.
-/

namespace Fexpr.Pattern

open Computability

def one (p : Char → Prop) : Language Char := {cs | ∃ c, p c ∧ cs = [c]}

def maybe (l : Language Char) : Language Char := 1 + l

def many (l : Language Char) : Language Char := l * l∗

def digit : Language Char := one fun c => '0' ≤ c ∧ c ≤ '9'

/-- `-?[0-9]+(\.[0-9]+)?([eE][+-]?[0-9]+)?` -/
def number : Language Char :=
  maybe (one (· = '-')) * (many digit * (maybe (one (· = '.') * many digit) *
    maybe (one (· ∈ ['e', 'E']) * (maybe (one (· ∈ ['+', '-'])) * many digit))))

/-- `([^q\\]|\\.)*` for the quote `q`; the point stands for all characters but a line feed. -/
def body (quote : Char) : Language Char :=
  (one (fun c => c ≠ quote ∧ c ≠ '\\') + one (· = '\\') * one (· ≠ '\n'))∗

/-- `q([^q\\]|\\.)*q` -/
def string (quote : Char) : Language Char := one (· = quote) * (body quote * one (· = quote))

/-- `q([^q\\]|\\.)*\\?` -/
def unterminated (quote : Char) : Language Char :=
  one (· = quote) * (body quote * maybe (one (· = '\\')))

def IsLetter (c : Char) : Prop := 'a' ≤ c ∧ c ≤ 'z' ∨ 'A' ≤ c ∧ c ≤ 'Z' ∨ c = '_'

/-- `[a-zA-Z_][a-zA-Z0-9_]*` -/
def ident : Language Char := one IsLetter * (one fun c => IsLetter c ∨ '0' ≤ c ∧ c ≤ '9')∗

/-- `[ \t\r\n\f]+` -/
def space : Language Char := many (one (· ∈ [' ', '\t', '\r', '\n', '\x0c']))

/-- `//[^\n]*` -/
def lineComment : Language Char := one (· = '/') * (one (· = '/') * (one (· ≠ '\n'))∗)

/-- `([^*]|\*+[^*/])*\*+/` -/
def commentRest : Language Char :=
  (one (· ≠ '*') + many (one (· = '*')) * one (fun c => c ≠ '*' ∧ c ≠ '/'))∗ *
    (many (one (· = '*')) * one (· = '/'))

/-- `/\*([^*]|\*+[^*/])*\*+/` -/
def blockComment : Language Char := one (· = '/') * (one (· = '*') * commentRest)

def declared : List (Lexeme.Class × Language Char) :=
  [(.blank, space), (.blank, lineComment), (.blank, blockComment),
    (.token .number, number),
    (.token .string, string '"'), (.token .string, string '\''),
    (.token .unterminated, unterminated '"'), (.token .unterminated, unterminated '\''),
    (.token .ident, ident),
    (.token .leftParen, one (· = '(')), (.token .rightParen, one (· = ')')),
    (.token .leftBrace, one (· = '\x7b')), (.token .rightBrace, one (· = '\x7d')),
    (.token .comma, one (· = ',')), (.token .atSign, one (· = '@'))]

def Matches (cls : Lexeme.Class) (cs : List Char) : Prop := ∃ l, (cls, l) ∈ declared ∧ cs ∈ l

theorem singleton_mem_one {p : Char → Prop} {c : Char} : [c] ∈ one p ↔ p c := by
  constructor
  · rintro ⟨d, hd, heq⟩
    rwa [List.singleton_inj.mp heq]
  · intro h
    exact ⟨c, h, rfl⟩

theorem mem_maybe {l : Language Char} {cs : List Char} : cs ∈ maybe l ↔ cs = [] ∨ cs ∈ l := by
  rw [maybe, Language.mem_add, Language.mem_one]

theorem mem_one_mul {p : Char → Prop} {l : Language Char} {cs : List Char} :
    cs ∈ one p * l ↔ ∃ c w, p c ∧ w ∈ l ∧ cs = c :: w := by
  rw [Language.mem_mul]
  constructor
  · rintro ⟨_, ⟨c, hc, rfl⟩, w, hw, rfl⟩
    exact ⟨c, w, hc, hw, rfl⟩
  · rintro ⟨c, w, hc, hw, rfl⟩
    exact ⟨[c], ⟨c, hc, rfl⟩, w, hw, rfl⟩

theorem cons_mem_one_mul {p : Char → Prop} {l : Language Char} {c : Char} {cs : List Char} :
    c :: cs ∈ one p * l ↔ p c ∧ cs ∈ l := by
  rw [mem_one_mul]
  constructor
  · rintro ⟨d, w, hd, hw, heq⟩
    obtain ⟨rfl, rfl⟩ := List.cons.inj heq
    exact ⟨hd, hw⟩
  · rintro ⟨hc, hcs⟩
    exact ⟨c, cs, hc, hcs, rfl⟩

theorem kstar_induction {l : Language Char} {motive : List Char → Prop} (nil : motive [])
    (append : ∀ u ∈ l, ∀ v ∈ l∗, motive v → motive (u ++ v)) {w : List Char} (h : w ∈ l∗) :
    motive w := by
  obtain ⟨L, rfl, hL⟩ := Language.mem_kstar.mp h
  clear h
  induction L with
  | nil => exact nil
  | cons u L ih =>
    have htail : ∀ y ∈ L, y ∈ l := fun y hy => hL y (List.mem_cons_of_mem u hy)
    rw [List.flatten_cons]
    exact append u (hL u List.mem_cons_self) L.flatten (Language.join_mem_kstar htail) (ih htail)

theorem append_mem_kstar {l : Language Char} {u v : List Char} (hu : u ∈ l) (hv : v ∈ l∗) :
    u ++ v ∈ l∗ := by
  obtain ⟨L, rfl, hL⟩ := Language.mem_kstar.mp hv
  rw [← List.flatten_cons]
  apply Language.join_mem_kstar
  intro y hy
  rcases List.mem_cons.mp hy with rfl | hy
  · exact hu
  · exact hL y hy

theorem mem_kstar_one {p : Char → Prop} {cs : List Char} : cs ∈ (one p)∗ ↔ ∀ c ∈ cs, p c := by
  constructor
  · intro h
    refine kstar_induction (motive := fun w => ∀ c ∈ w, p c) (by simp) ?_ h
    rintro _ ⟨c, hc, rfl⟩ v - hv
    simpa using ⟨hc, hv⟩
  · intro h
    induction cs with
    | nil => exact Language.nil_mem_kstar _
    | cons c cs ih =>
      have hc : [c] ∈ one p := singleton_mem_one.mpr (h c List.mem_cons_self)
      exact append_mem_kstar hc (ih fun d hd => h d (List.mem_cons_of_mem c hd))

theorem mem_many_one {p : Char → Prop} {cs : List Char} :
    cs ∈ many (one p) ↔ cs ≠ [] ∧ ∀ c ∈ cs, p c := by
  rw [many, mem_one_mul]
  constructor
  · rintro ⟨c, w, hc, hw, rfl⟩
    refine ⟨List.cons_ne_nil c w, ?_⟩
    simpa using ⟨hc, mem_kstar_one.mp hw⟩
  · rintro ⟨hne, hcs⟩
    obtain ⟨c, w, rfl⟩ := List.exists_cons_of_ne_nil hne
    refine ⟨c, w, hcs c List.mem_cons_self, ?_, rfl⟩
    exact mem_kstar_one.mpr fun d hd => hcs d (List.mem_cons_of_mem c hd)

theorem isDigit_iff {c : Char} : c.isDigit = true ↔ '0' ≤ c ∧ c ≤ '9' := by
  simp [Char.isDigit, Char.le_def]

theorem isNameStart_iff {c : Char} : Lexeme.isNameStart c = true ↔ IsLetter c := by
  have hupper : c.isUpper = decide ('A'.val ≤ c.val ∧ c.val ≤ 'Z'.val) := rfl
  have hlower : c.isLower = (decide ('a'.val ≤ c.val) && decide (c.val ≤ 'z'.val)) := rfl
  have halpha : c.isAlpha = (c.isUpper || c.isLower) := rfl
  rw [Lexeme.isNameStart, halpha, hupper, hlower, IsLetter]
  simp only [Bool.or_eq_true, Bool.and_eq_true, decide_eq_true_eq, beq_iff_eq, Char.le_def]
  tauto

theorem isNamePart_iff {c : Char} :
    Lexeme.isNamePart c = true ↔ IsLetter c ∨ '0' ≤ c ∧ c ≤ '9' := by
  rw [Lexeme.isNamePart, Bool.or_eq_true, isNameStart_iff, isDigit_iff]

theorem isSpace_iff {c : Char} :
    Lexeme.isSpace c = true ↔ c ∈ [' ', '\t', '\r', '\n', '\x0c'] := by
  simp [Lexeme.isSpace]
  tauto

theorem mem_many_digit {cs : List Char} : cs ∈ many digit ↔ Numeral.IsDigits cs := by
  rw [digit, mem_many_one, Numeral.IsDigits, List.all_eq_true]
  simp only [isDigit_iff]

theorem mem_fraction {cs : List Char} :
    cs ∈ maybe (one (· = '.') * many digit) ↔ Numeral.IsFraction cs := by
  rw [mem_maybe, mem_one_mul]
  constructor
  · rintro (rfl | ⟨c, ds, rfl, hds, rfl⟩)
    · exact .absent
    · exact .point (mem_many_digit.mp hds)
  · rintro (_ | h)
    · exact .inl rfl
    · exact .inr ⟨'.', _, rfl, mem_many_digit.mpr h, rfl⟩

theorem mem_exponent {cs : List Char} :
    cs ∈ maybe (one (· ∈ ['e', 'E']) * (maybe (one (· ∈ ['+', '-'])) * many digit)) ↔
      Numeral.IsExponent cs := by
  rw [mem_maybe, mem_one_mul]
  constructor
  · rintro (rfl | ⟨mark, w, hmark, hw, rfl⟩)
    · exact .absent
    · obtain ⟨sign, hsign, ds, hds, rfl⟩ := Language.mem_mul.mp hw
      refine .marked (by simpa using hmark) ?_ (mem_many_digit.mp hds)
      rcases mem_maybe.mp hsign with rfl | ⟨c, hc, rfl⟩
      · exact .inl rfl
      · simpa using hc
  · rintro (_ | @⟨mark, sign, ds, hmark, hsign, hds⟩)
    · exact .inl rfl
    · refine .inr ⟨mark, sign ++ ds, by simpa using hmark, ?_, rfl⟩
      refine Language.append_mem_mul (mem_maybe.mpr ?_) (mem_many_digit.mpr hds)
      rcases hsign with rfl | rfl | rfl
      · exact .inl rfl
      · exact .inr (singleton_mem_one.mpr (by simp))
      · exact .inr (singleton_mem_one.mpr (by simp))

theorem mem_number {cs : List Char} : cs ∈ number ↔ Numeral.IsNumeral cs := by
  have hunsigned : ∀ w, w ∈ many digit * (maybe (one (· = '.') * many digit) *
      maybe (one (· ∈ ['e', 'E']) * (maybe (one (· ∈ ['+', '-'])) * many digit))) ↔
      Numeral.IsUnsigned w := by
    intro w
    constructor
    · intro h
      obtain ⟨whole, hwhole, v, hv, rfl⟩ := Language.mem_mul.mp h
      obtain ⟨fraction, hfraction, exponent, hexponent, rfl⟩ := Language.mem_mul.mp hv
      exact .parts (mem_many_digit.mp hwhole) (mem_fraction.mp hfraction)
        (mem_exponent.mp hexponent)
    · rintro ⟨hwhole, hfraction, hexponent⟩
      exact Language.append_mem_mul (mem_many_digit.mpr hwhole)
        (Language.append_mem_mul (mem_fraction.mpr hfraction) (mem_exponent.mpr hexponent))
  constructor
  · intro h
    obtain ⟨sign, hsign, w, hw, rfl⟩ := Language.mem_mul.mp h
    have hw := (hunsigned w).mp hw
    rcases mem_maybe.mp hsign with rfl | ⟨c, rfl, rfl⟩
    · exact .plain hw
    · exact .negative hw
  · rintro (h | h)
    · exact Language.append_mem_mul (mem_maybe.mpr (.inl rfl)) ((hunsigned cs).mpr h)
    · rename_i w
      have hminus : ['-'] ∈ maybe (one (· = '-')) :=
        mem_maybe.mpr (.inr (singleton_mem_one.mpr rfl))
      exact Language.append_mem_mul hminus ((hunsigned w).mpr h)

theorem mem_ident {c : Char} {cs : List Char} :
    c :: cs ∈ ident ↔ Lexeme.isNameStart c = true ∧ ∀ d ∈ cs, Lexeme.isNamePart d = true := by
  rw [ident, cons_mem_one_mul, mem_kstar_one, isNameStart_iff]
  simp only [isNamePart_iff]

theorem mem_space {cs : List Char} :
    cs ∈ space ↔ cs ≠ [] ∧ ∀ d ∈ cs, Lexeme.isSpace d = true := by
  rw [space, mem_many_one]
  simp only [isSpace_iff]

end Fexpr.Pattern
