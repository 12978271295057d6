import Fexpr.Token.Scan

/-!
# Reading one token at a time

A reader stands at a place in a source. Each call passes over the blank text that comes next and
returns what is found behind it, a token or an error; reading goes on behind either. At the end of
the source every call returns the end marker.
-/

namespace Fexpr

structure Reader where
  source : String
  offset : Nat
  rest : List Char
  placed : ∃ before, before ++ rest = source.toList ∧ Text.byteSize before = offset

namespace Reader

def start (source : String) : Reader := ⟨source, 0, source.toList, [], rfl, rfl⟩

def pass (r : Reader) (text rest : List Char) (h : text ++ rest = r.rest) : Reader where
  source := r.source
  offset := r.offset + Text.byteSize text
  rest := rest
  placed := by
    obtain ⟨before, hwhole, hsize⟩ := r.placed
    refine ⟨before ++ text, ?_, ?_⟩
    · rw [List.append_assoc, h, hwhole]
    · rw [Text.byteSize_append, hsize]

/-- A lexeme that is not blank, with the token or the error that it is. -/
structure Visit where
  lexeme : Lexeme
  result : Except CompileError Token
  piece : lexeme.piece? = some result

def visit? (r : Reader) : Option (Visit × Reader) :=
  match h : r.rest with
  | [] => none
  | c :: cs =>
    let taken := Lexeme.munch c cs
    let l : Lexeme := ⟨taken.1, c :: cs.take taken.2, r.offset⟩
    let behind := r.pass l.text (cs.drop taken.2)
      (by rw [List.cons_append, List.take_append_drop, h])
    match hp : l.piece? with
    | none => behind.visit?
    | some result => some (⟨l, result, hp⟩, behind)
termination_by r.rest.length
decreasing_by
  have hlength : r.rest.length = cs.length + 1 := by rw [h, List.length_cons]
  simp only [pass, List.length_drop]
  omega

def next (r : Reader) : Except CompileError Token × Reader :=
  match r.visit? with
  | none => (.ok (Token.endOf r.source), r)
  | some (v, behind) => (v.result, behind)

end Reader

end Fexpr
