import Fexpr.Proofs.Munch

/-!
# The longest match

At every place the scanner takes the longest text that matches a pattern. Its class is that of the
pattern; no text of that length matches patterns of two classes. Where nothing matches, the next
character is an error, and a block comment that is never closed is one error up to the end.
-/

namespace Fexpr

namespace Lexeme

open Pattern Text

structure Candidate (rest : List Char) (cls : Class) (text : List Char) : Prop where
  ne_nil : text ≠ []
  front : text <+: rest
  found : Matches cls text

/-- The longest candidate; all candidates of its length have its class. -/
structure Longest (rest : List Char) (cls : Class) (text : List Char) : Prop where
  candidate : Candidate rest cls text
  length_le : ∀ {cls' : Class} {text' : List Char}, Candidate rest cls' text' →
    text'.length ≤ text.length
  cls_eq : ∀ {cls' : Class} {text' : List Char}, Candidate rest cls' text' →
    text'.length = text.length → cls' = cls

inductive Step (rest : List Char) : Class → List Char → Prop
  | longest {cls : Class} {text : List Char} (h : Longest rest cls text) : Step rest cls text
  | stray {text : List Char} (hnone : ∀ cls text, ¬ Candidate rest cls text)
    (h : IsStray rest text) : Step rest .stray text

theorem Candidate.within {c : Char} {cs text : List Char} {cls : Class}
    (h : Candidate (c :: cs) cls text) :
    ∃ w, text = c :: w ∧ Within cls w.length (munch c cs) := by
  obtain ⟨d, w, rfl⟩ := List.exists_cons_of_ne_nil h.ne_nil
  obtain ⟨rest, hrest⟩ := h.front
  obtain ⟨rfl, rfl⟩ := List.cons.inj hrest
  exact ⟨w, rfl, within_of_matches h.found rest⟩

theorem step_munch (c : Char) (cs : List Char) :
    Step (c :: cs) (munch c cs).1 (c :: cs.take (munch c cs).2) := by
  have hlength : (cs.take (munch c cs).2).length = (munch c cs).2 :=
    List.length_take_of_le (munch_le c cs)
  rcases munch_cases c cs with hfound | ⟨hcls, hstray⟩
  · refine .longest ⟨⟨List.cons_ne_nil _ _, ?_, hfound⟩, ?_, ?_⟩
    · exact (List.prefix_cons_inj c).mpr (List.take_prefix _ cs)
    · intro cls' text' h
      obtain ⟨w, rfl, hw⟩ := h.within
      have := hw.length_le
      simp only [List.length_cons]
      omega
    · intro cls' text' h heq
      obtain ⟨w, rfl, hw⟩ := h.within
      simp only [List.length_cons] at heq
      exact (hw.cls_eq (by omega)).symm
  · rw [hcls]
    refine .stray ?_ hstray
    intro cls text h
    obtain ⟨w, -, hw⟩ := h.within
    exact hw.ne_stray hcls

theorem IsStray.unique {rest text text' : List Char} (h : IsStray rest text)
    (h' : IsStray rest text') : text = text' := by
  rcases h with ⟨hopen, rfl⟩ | ⟨hopen, c, cs, rfl, rfl⟩ <;>
    rcases h' with ⟨hopen', rfl⟩ | ⟨hopen', c', cs', heq, rfl⟩
  · rfl
  · exact absurd hopen hopen'
  · exact absurd hopen' hopen
  · rw [(List.cons.inj heq).1]

theorem Step.unique {rest text text' : List Char} {cls cls' : Class} (h : Step rest cls text)
    (h' : Step rest cls' text') : cls = cls' ∧ text = text' := by
  cases h with
  | longest h =>
    cases h' with
    | longest h' =>
      have hlength : text.length = text'.length :=
        Nat.le_antisymm (h'.length_le h.candidate) (h.length_le h'.candidate)
      refine ⟨h'.cls_eq h.candidate hlength, ?_⟩
      exact (List.prefix_of_prefix_length_le h.candidate.front h'.candidate.front
        hlength.le).eq_of_length hlength
    | stray hnone h' => exact absurd h.candidate (hnone _ _)
  | stray hnone h =>
    cases h' with
    | longest h' => exact absurd h'.candidate (hnone _ _)
    | stray _ h' => exact ⟨rfl, h.unique h'⟩

theorem munch_of_step {c : Char} {cs text : List Char} {cls : Class}
    (h : Step (c :: cs) cls text) :
    (munch c cs).1 = cls ∧ c :: cs.take (munch c cs).2 = text :=
  (step_munch c cs).unique h

theorem Step.ne_nil {rest text : List Char} {cls : Class} (h : Step rest cls text) :
    text ≠ [] := by
  cases h with
  | longest h => exact h.candidate.ne_nil
  | stray _ h =>
    rcases h with ⟨⟨t, rfl⟩, rfl⟩ | ⟨-, c, cs, -, rfl⟩
    · exact List.cons_ne_nil _ _
    · exact List.cons_ne_nil _ _

theorem Step.longest_of_ne {rest text : List Char} {cls : Class} (h : Step rest cls text)
    (hcls : cls ≠ .stray) : Longest rest cls text := by
  cases h with
  | longest h => exact h
  | stray _ _ => exact absurd rfl hcls

/-- What the patterns make of `rest`, which stands at a byte offset: blanks are passed over, other
lexemes are tokens or errors. -/
inductive Scans : Nat → List Char → List (Except CompileError Token) → Prop
  | nil (offset : Nat) : Scans offset [] []
  | blank {offset : Nat} {text rest : List Char} {ps : List (Except CompileError Token)}
    (h : Step (text ++ rest) .blank text) (hs : Scans (offset + byteSize text) rest ps) :
    Scans offset (text ++ rest) ps
  | token {offset : Nat} {kind : Token.Kind} {text rest : List Char}
    {ps : List (Except CompileError Token)} (hk : kind ≠ .unterminated)
    (h : Step (text ++ rest) (.token kind) text) (hs : Scans (offset + byteSize text) rest ps) :
    Scans offset (text ++ rest)
      (.ok ⟨kind, String.ofList text, ⟨offset, offset + byteSize text⟩⟩ :: ps)
  | unterminated {offset : Nat} {text rest : List Char} {ps : List (Except CompileError Token)}
    (h : Step (text ++ rest) (.token .unterminated) text)
    (hs : Scans (offset + byteSize text) rest ps) :
    Scans offset (text ++ rest) (.error (.unterminatedString offset) :: ps)
  | stray {offset : Nat} {text rest : List Char} {ps : List (Except CompileError Token)}
    (h : Step (text ++ rest) .stray text) (hs : Scans (offset + byteSize text) rest ps) :
    Scans offset (text ++ rest)
      (.error (.strayText (String.ofList text) ⟨offset, offset + byteSize text⟩) :: ps)

theorem lexemesFrom_of_step {offset : Nat} {cls : Class} {text rest : List Char}
    (h : Step (text ++ rest) cls text) : lexemesFrom offset (text ++ rest) =
      ⟨cls, text, offset⟩ :: lexemesFrom (offset + byteSize text) rest := by
  obtain ⟨c, w, rfl⟩ := List.exists_cons_of_ne_nil h.ne_nil
  rw [List.cons_append] at h
  obtain ⟨hcls, htext⟩ := munch_of_step h
  have hdrop : (w ++ rest).drop (munch c (w ++ rest)).2 = rest := by
    have hsplit := List.take_append_drop (munch c (w ++ rest)).2 (w ++ rest)
    rw [(List.cons.inj htext).2] at hsplit
    exact List.append_cancel_left hsplit
  rw [List.cons_append, lexemesFrom_cons, hcls, htext, hdrop]

theorem piecesFrom_of_step {offset : Nat} {cls : Class} {text rest : List Char}
    (h : Step (text ++ rest) cls text) : piecesFrom offset (text ++ rest) =
      (piece? ⟨cls, text, offset⟩).toList ++ piecesFrom (offset + byteSize text) rest := by
  rw [piecesFrom, lexemesFrom_of_step h, List.filterMap_cons]
  cases piece? _ <;> rfl

theorem Scans.eq_piecesFrom {offset : Nat} {rest : List Char}
    {ps : List (Except CompileError Token)} (h : Scans offset rest ps) :
    ps = piecesFrom offset rest := by
  induction h with
  | nil offset =>
    rw [piecesFrom, lexemesFrom]
    rfl
  | blank h _ ih =>
    rw [piecesFrom_of_step h, ← ih]
    rfl
  | @token offset kind text rest ps hk h _ ih =>
    have hpiece : piece? ⟨.token kind, text, offset⟩ =
        some (.ok ⟨kind, String.ofList text, ⟨offset, offset + byteSize text⟩⟩) :=
      piece?_eq_ok_iff.mpr ⟨rfl, hk, rfl, rfl⟩
    rw [piecesFrom_of_step h, ← ih, hpiece]
    rfl
  | unterminated h _ ih =>
    rw [piecesFrom_of_step h, ← ih]
    rfl
  | stray h _ ih =>
    rw [piecesFrom_of_step h, ← ih]
    rfl

theorem scans_piecesFrom (offset : Nat) (cs : List Char) :
    Scans offset cs (piecesFrom offset cs) := by
  match cs with
  | [] =>
    rw [piecesFrom, lexemesFrom]
    exact .nil offset
  | c :: cs =>
    have hstep := step_munch c cs
    have hrest := scans_piecesFrom (offset + byteSize (c :: cs.take (munch c cs).2))
      (cs.drop (munch c cs).2)
    have hsplit : c :: cs = (c :: cs.take (munch c cs).2) ++ cs.drop (munch c cs).2 := by
      rw [List.cons_append, List.take_append_drop]
    rw [piecesFrom_cons]
    generalize munch c cs = taken at *
    obtain ⟨cls, n⟩ := taken
    rw [hsplit] at hstep ⊢
    cases cls with
    | blank => exact .blank hstep hrest
    | stray => exact .stray hstep hrest
    | token kind =>
      by_cases hk : kind = .unterminated
      · subst hk
        exact .unterminated hstep hrest
      · have hpiece : piece? ⟨.token kind, c :: cs.take n, offset⟩ = some (.ok
            ⟨kind, String.ofList (c :: cs.take n),
              ⟨offset, offset + byteSize (c :: cs.take n)⟩⟩) :=
          piece?_eq_ok_iff.mpr ⟨rfl, hk, rfl, rfl⟩
        simp only [hpiece]
        exact .token hk hstep hrest
termination_by cs.length
decreasing_by
  simp only [List.length_drop, List.length_cons]
  omega

theorem lexemesFrom_of_append {offset : Nat} {cs : List Char} {before after : List Lexeme}
    (h : lexemesFrom offset cs = before ++ after) :
    lexemesFrom (offset + byteSize (before.flatMap text)) (after.flatMap text) = after := by
  induction before generalizing offset cs with
  | nil =>
    have hcs : after.flatMap text = cs := by
      rw [← flatMap_text_lexemesFrom offset cs, h, List.nil_append]
    rw [hcs]
    exact h
  | cons l before ih =>
    cases cs with
    | nil =>
      rw [lexemesFrom] at h
      cases h
    | cons c cs =>
      rw [lexemesFrom_cons, List.cons_append] at h
      obtain ⟨rfl, hrest⟩ := List.cons.inj h
      rw [List.flatMap_cons, byteSize_append, ← Nat.add_assoc]
      exact ih hrest

theorem step_of_mem_lexemesFrom {offset : Nat} {rest : List Char} {l : Lexeme}
    {after : List Lexeme} (h : lexemesFrom offset rest = l :: after) :
    Step rest l.cls l.text ∧ l.start = offset := by
  cases rest with
  | nil =>
    rw [lexemesFrom] at h
    cases h
  | cons c cs =>
    rw [lexemesFrom_cons] at h
    obtain ⟨rfl, -⟩ := List.cons.inj h
    exact ⟨step_munch c cs, rfl⟩

theorem matches_of_mem_lexemesFrom {offset : Nat} {cs : List Char} {l : Lexeme}
    (h : l ∈ lexemesFrom offset cs) (hcls : l.cls ≠ .stray) : Matches l.cls l.text := by
  obtain ⟨before, after, hsplit⟩ := List.append_of_mem h
  have hstep := (step_of_mem_lexemesFrom (lexemesFrom_of_append hsplit)).1
  exact (hstep.longest_of_ne hcls).candidate.found

end Lexeme

open Lexeme in
/--
Wherever the scan of a source arrives, it takes the lexeme that the patterns prescribe for the rest
of the text; and its results are those of the patterns and no others.
-/
theorem pieces_eq_iff_scans (source : String) :
    (∀ before l after, lexemes source.toList = before ++ l :: after →
      ∀ rest, source.toList = before.flatMap text ++ rest →
        Step rest l.cls l.text ∧ l.start = Text.byteSize (before.flatMap text)) ∧
    ∀ ps, ps = pieces source ↔ Scans 0 source.toList ps := by
  constructor
  · intro before l after hlexemes rest hrest
    have hafter := lexemesFrom_of_append hlexemes
    have hall := flatMap_text_lexemesFrom 0 source.toList
    rw [lexemes] at hlexemes
    rw [hlexemes, List.flatMap_append, hrest] at hall
    rw [List.append_cancel_left hall, Nat.zero_add] at hafter
    exact step_of_mem_lexemesFrom hafter
  · intro ps
    constructor
    · rintro rfl
      exact scans_piecesFrom 0 source.toList
    · exact Scans.eq_piecesFrom

open Lexeme in
/-- No exponent follows, so the number ends before the mark, which is a name. -/
theorem pieces_eq_iff_scans_mark :
    lexemes "1e+".toList =
      [⟨.token .number, ['1'], 0⟩] ++ ⟨.token .ident, ['e'], 1⟩ :: [⟨.stray, ['+'], 2⟩] ∧
    Step ['e', '+'] (.token .ident) ['e'] := by
  have hlexemes : lexemes "1e+".toList =
      [⟨.token .number, ['1'], 0⟩] ++ ⟨.token .ident, ['e'], 1⟩ :: [⟨.stray, ['+'], 2⟩] := by
    decide +kernel
  exact ⟨hlexemes, ((pieces_eq_iff_scans "1e+").1 _ _ _ hlexemes ['e', '+'] (by decide)).1⟩

end Fexpr
