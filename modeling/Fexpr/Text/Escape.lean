/-!
# Escapes in string literals

A string literal stands between two quotes. Inside, a backslash pairs with the character after it:
`\n`, `\t`, `\r` and `\0` name control characters, and any other pair stands for its second
character.
-/

namespace Fexpr.Text

def escaped : Char → Char
  | 'n' => '\n'
  | 't' => '\t'
  | 'r' => '\r'
  | '0' => Char.ofNat 0
  | c => c

/-- The text between the quotes with its escapes resolved. A backslash with nothing after it stays. -/
def resolveEscapes : List Char → List Char
  | [] => []
  | '\\' :: c :: cs => escaped c :: resolveEscapes cs
  | c :: cs => c :: resolveEscapes cs

/--
The text without its first and its last byte. There is none for a text shorter than two bytes or
with a longer character at either end.
-/
def unquote : List Char → Option (List Char)
  | [] => none
  | first :: cs =>
    match cs.getLast? with
    | none => none
    | some last => if first.utf8Size = 1 ∧ last.utf8Size = 1 then some cs.dropLast else none

/-- The text that a string literal denotes, and the empty text for what is not quoted. -/
def unescape (raw : String) : String :=
  match unquote raw.toList with
  | none => ""
  | some body => String.ofList (resolveEscapes body)

end Fexpr.Text
