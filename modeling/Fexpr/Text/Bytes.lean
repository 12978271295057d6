import Fexpr.Span

/-!
# Characters and bytes

Sources are scanned as lists of characters, while spans count the bytes of their UTF-8 form. This
module measures one in terms of the other and cuts texts at byte offsets.
-/

namespace Fexpr.Text

def byteSize : List Char → Nat
  | [] => 0
  | c :: cs => c.utf8Size + byteSize cs

@[simp] theorem byteSize_append (xs ys : List Char) :
    byteSize (xs ++ ys) = byteSize xs + byteSize ys := by
  induction xs with
  | nil => simp [byteSize]
  | cons c xs ih => simp [byteSize, ih, Nat.add_assoc]

theorem byteSize_pos {cs : List Char} (h : cs ≠ []) : 0 < byteSize cs := by
  cases cs with
  | nil => exact absurd rfl h
  | cons c cs => exact Nat.add_pos_left c.utf8Size_pos _

/-- The characters after the first `n` bytes, if `n` is a character boundary. -/
def dropBytes : Nat → List Char → Option (List Char)
  | 0, cs => some cs
  | _ + 1, [] => none
  | n + 1, c :: cs => if c.utf8Size ≤ n + 1 then dropBytes (n + 1 - c.utf8Size) cs else none
termination_by _ cs => cs.length

def takeBytes : Nat → List Char → Option (List Char)
  | 0, _ => some []
  | _ + 1, [] => none
  | n + 1, c :: cs =>
    if c.utf8Size ≤ n + 1 then (takeBytes (n + 1 - c.utf8Size) cs).map (c :: ·) else none
termination_by _ cs => cs.length

/-- The text of a span, if both ends are character boundaries in order. -/
def slice (cs : List Char) (s : Span) : Option (List Char) :=
  if s.start ≤ s.stop then (dropBytes s.start cs).bind (takeBytes s.size) else none

def run (p : Char → Bool) (cs : List Char) : Nat := (cs.takeWhile p).length

def unlines (lines : List String) : String := String.join (lines.map (· ++ "\n"))

def padLeft (n : Nat) (s : String) : String :=
  String.ofList (List.replicate (n - s.length) ' ') ++ s

def padRight (n : Nat) (s : String) : String :=
  s ++ String.ofList (List.replicate (n - s.length) ' ')

end Fexpr.Text
