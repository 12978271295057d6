import Fexpr.Text.Bytes
import Fexpr.Text.Cluster

/-!
# Lines as they are typed

An input is read line by line. A backspace in a line takes back the cluster before it. The size of
each cluster is kept in a byte, so that of a cluster of 256 bytes or more only the remainder is taken
back; where that would cut a character, the line cannot be read.
-/

namespace Fexpr.Line

/-- The lines of an input. A line ends with a line feed, and a carriage return before it goes too;
the last line may lack its end. -/
def split (input : String) : List String :=
  let all := input.splitOn "\n"
  let chomp := fun (line : String) =>
    match line.toList.reverse with
    | '\r' :: rest => String.ofList rest.reverse
    | _ => line
  let complete := all.dropLast.map chomp
  match all.getLast? with
  | none | some "" => complete
  | some last => complete ++ [last]

/-- The part of a line that has been typed: its characters and the sizes of the clusters that can be
taken back, both from the end. -/
structure Typed where
  chars : List Char
  sizes : List Nat

def backspace : Char := Char.ofNat 8

def Typed.takeBack (t : Typed) : Option Typed :=
  match t.sizes with
  | [] => some t
  | n :: sizes => (Text.dropBytes n t.chars).map (⟨·, sizes⟩)

def Typed.add (t : Typed) (cluster : List Char) : Option Typed :=
  if cluster = [backspace] then t.takeBack
  else some ⟨cluster.reverse ++ t.chars, Text.byteSize cluster % 256 :: t.sizes⟩

def ofTyped? (typed : String) : Option String :=
  ((Text.clusters typed.toList).foldlM Typed.add ⟨[], []⟩).map fun t => String.ofList t.chars.reverse

def ofAllTyped : List String → List String × Bool
  | [] => ([], true)
  | typed :: rest =>
    match ofTyped? typed with
    | none => ([], false)
    | some line =>
      let (lines, complete) := ofAllTyped rest
      (line :: lines, complete)

end Fexpr.Line
