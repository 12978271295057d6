import Fexpr.Json.Basic

/-!
# Writing JSON

A value is written on one line, or spread over lines with an indentation of two blanks for every
level.
-/

namespace Fexpr.Json

def hexDigit (n : Nat) : Char := n.digitChar

def charText (c : Char) : List Char :=
  match c with
  | '"' => ['\\', '"']
  | '\\' => ['\\', '\\']
  | '\n' => ['\\', 'n']
  | '\r' => ['\\', 'r']
  | '\t' => ['\\', 't']
  | '\x08' => ['\\', 'b']
  | '\x0c' => ['\\', 'f']
  | c =>
    if c.toNat < 32 then ['\\', 'u', '0', '0', hexDigit (c.toNat / 16), hexDigit (c.toNat % 16)]
    else [c]

def stringText (s : String) : List Char := '"' :: s.toList.flatMap charText ++ ['"']

namespace Numeral

def exponentText : Option (Bool × List Char) → List Char
  | none => []
  | some (negative, digits) => 'e' :: (if negative then '-' else '+') :: digits

def chars (n : Numeral) : List Char :=
  (if n.negative then ['-'] else []) ++ n.whole ++
    (if n.fraction.isEmpty then [] else '.' :: n.fraction) ++ exponentText n.exponent

end Numeral

/-- The layout of a value: on one line, or over lines at a level of indentation. -/
inductive Layout where
  | compact
  | pretty (level : Nat)
deriving DecidableEq, Repr

namespace Layout

def inner : Layout → Layout
  | compact => compact
  | pretty level => pretty (level + 1)

def lineBreak : Layout → List Char
  | compact => []
  | pretty level => '\n' :: List.replicate (2 * level) ' '

def colon : Layout → List Char
  | compact => [':']
  | pretty _ => [':', ' ']

end Layout

mutual

def write (layout : Layout) : Json → List Char → List Char
  | .null, rest => 'n' :: 'u' :: 'l' :: 'l' :: rest
  | .bool true, rest => 't' :: 'r' :: 'u' :: 'e' :: rest
  | .bool false, rest => 'f' :: 'a' :: 'l' :: 's' :: 'e' :: rest
  | .number n, rest => n.chars ++ rest
  | .string s, rest => stringText (s.getD "") ++ rest
  | .array [], rest => '[' :: ']' :: rest
  | .array (item :: items), rest =>
    '[' :: (layout.inner.lineBreak ++ write layout.inner item
      (writeItems layout.inner items (layout.lineBreak ++ ']' :: rest)))
  | .object [], rest => '\x7b' :: '\x7d' :: rest
  | .object ((key, value) :: fields), rest =>
    '\x7b' :: (layout.inner.lineBreak ++ stringText (key.getD "") ++ layout.colon ++
      write layout.inner value
        (writeFields layout.inner fields (layout.lineBreak ++ '\x7d' :: rest)))

def writeItems (layout : Layout) : List Json → List Char → List Char
  | [], rest => rest
  | item :: items, rest =>
    ',' :: (layout.lineBreak ++ write layout item (writeItems layout items rest))

def writeFields (layout : Layout) : List (Option String × Json) → List Char → List Char
  | [], rest => rest
  | (key, value) :: fields, rest =>
    ',' :: (layout.lineBreak ++ stringText (key.getD "") ++ layout.colon ++
      write layout value (writeFields layout fields rest))

end

def compact (j : Json) : String := String.ofList (write .compact j [])

def pretty (j : Json) : String := String.ofList (write (.pretty 0) j [])

end Fexpr.Json
