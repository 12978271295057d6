import Fexpr.Text.BreakClass

/-!
# Clusters

A cluster is what a reader sees as one character: a letter with its marks, a syllable, a conjunct,
a flag, pictographs that are joined. Texts are cut by the rules for extended grapheme clusters of
Unicode. Main statement: the clusters of a text add up to it (`flatten_clusters`).
-/

namespace Fexpr.Text

/-- How far the end of a text is on the way to a conjunct. -/
inductive Conjunct where
  | none
  | begun
  | linked
deriving DecidableEq, Repr

structure Ending where
  last : BreakClass
  /-- The text ends with a pictograph and marks, perhaps with a joiner after them. -/
  pictograph : Bool
  /-- The text ends with a flag of which one letter is missing. -/
  halfFlag : Bool
  conjunct : Conjunct
deriving DecidableEq, Repr

namespace Ending

def joins (e : Ending) (c : BreakClass) : Bool :=
  match e.last, c with
  | .carriageReturn, .lineFeed => true
  | .carriageReturn, _ | .lineFeed, _ | .control, _ => false
  | _, .carriageReturn | _, .lineFeed | _, .control => false
  | .leading, .leading | .leading, .vowel => true
  | .leading, .openSyllable | .leading, .closedSyllable => true
  | .openSyllable, .vowel | .openSyllable, .trailing => true
  | .vowel, .vowel | .vowel, .trailing => true
  | .closedSyllable, .trailing | .trailing, .trailing => true
  | _, .extend | _, .linker | _, .nonJoiner | _, .joiner | _, .spacing => true
  | .prepend, _ => true
  | _, .consonant => e.conjunct = .linked
  | .joiner, .pictograph => e.pictograph
  | .regional, .regional => e.halfFlag
  | _, _ => false

def single (c : BreakClass) : Ending :=
  ⟨c, c = .pictograph, c = .regional, if c = .consonant then .begun else .none⟩

def push (e : Ending) (c : BreakClass) : Ending :=
  match c with
  | .extend => ⟨c, e.pictograph && e.last ≠ .joiner, false, e.conjunct⟩
  | .joiner => ⟨c, e.pictograph && e.last ≠ .joiner, false, e.conjunct⟩
  | .linker =>
    ⟨c, e.pictograph && e.last ≠ .joiner, false, if e.conjunct = .none then .none else .linked⟩
  | .nonJoiner => ⟨c, e.pictograph && e.last ≠ .joiner, false, .none⟩
  | .regional => ⟨c, false, !e.halfFlag, .none⟩
  | c => single c

end Ending

/-- The rest of a cluster with a given end, and the clusters after it. -/
def clustersFrom (e : Ending) : List Char → List Char × List (List Char)
  | [] => ([], [])
  | c :: cs =>
    let k := BreakClass.ofChar c
    if e.joins k then
      let (rest, more) := clustersFrom (e.push k) cs
      (c :: rest, more)
    else
      let (rest, more) := clustersFrom (.single k) cs
      ([], (c :: rest) :: more)

def clusters : List Char → List (List Char)
  | [] => []
  | c :: cs =>
    let (rest, more) := clustersFrom (.single (BreakClass.ofChar c)) cs
    (c :: rest) :: more

theorem flatten_clustersFrom (e : Ending) (cs : List Char) :
    (clustersFrom e cs).1 ++ (clustersFrom e cs).2.flatten = cs := by
  induction cs generalizing e with
  | nil => rfl
  | cons c cs ih =>
    rw [clustersFrom]
    split
    · exact congrArg (c :: ·) (ih _)
    · exact congrArg (c :: ·) (ih _)

@[simp] theorem flatten_clusters (cs : List Char) : (clusters cs).flatten = cs := by
  cases cs with
  | nil => rfl
  | cons c cs => exact congrArg (c :: ·) (flatten_clustersFrom _ cs)

end Fexpr.Text
