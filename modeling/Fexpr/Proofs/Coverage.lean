import Fexpr.Proofs.Spans
import Fexpr.Token.Reader

/-!
# Nothing of a source is lost

A reader goes over a source from its beginning to its end. What it returns lies in order, each
result at its place in the text, and between two of them there is only white space and comments.
-/

namespace Fexpr

namespace Text

theorem dropBytes_append (before rest : List Char) :
    dropBytes (byteSize before) (before ++ rest) = some rest := by
  induction before with
  | nil => rw [byteSize, List.nil_append, dropBytes]
  | cons c before ih =>
    obtain ⟨n, hn⟩ : ∃ n, byteSize (c :: before) = n + 1 :=
      Nat.exists_eq_succ_of_ne_zero (byteSize_pos (List.cons_ne_nil c before)).ne'
    have hsize : c.utf8Size + byteSize before = n + 1 := hn
    rw [hn, List.cons_append, dropBytes, if_pos (by omega), ← hsize, Nat.add_sub_cancel_left]
    exact ih

theorem takeBytes_append (text rest : List Char) :
    takeBytes (byteSize text) (text ++ rest) = some text := by
  induction text with
  | nil => rw [byteSize, takeBytes]
  | cons c text ih =>
    obtain ⟨n, hn⟩ : ∃ n, byteSize (c :: text) = n + 1 :=
      Nat.exists_eq_succ_of_ne_zero (byteSize_pos (List.cons_ne_nil c text)).ne'
    have hsize : c.utf8Size + byteSize text = n + 1 := hn
    rw [hn, List.cons_append, takeBytes, if_pos (by omega), ← hsize, Nat.add_sub_cancel_left, ih]
    rfl

theorem slice_append (before text rest : List Char) :
    slice (before ++ (text ++ rest)) ⟨byteSize before, byteSize before + byteSize text⟩ =
      some text := by
  have hsize : Span.size ⟨byteSize before, byteSize before + byteSize text⟩ = byteSize text :=
    Nat.add_sub_cancel_left _ _
  rw [slice, if_pos (Nat.le_add_right _ _), dropBytes_append, hsize]
  exact takeBytes_append text rest

end Text

namespace Pattern

open Computability

/-- White space, line comments with the line feed behind them, and closed block comments. -/
def gap : Language Char :=
  (one (· ∈ [' ', '\t', '\r', '\n', '\x0c']) + lineComment * one (· = '\n') + blockComment)∗

/-- At the end of a text, the last line comment needs no line feed. -/
def lastGap : Language Char := gap * maybe lineComment

theorem cons_mem_gap {c : Char} (hc : Lexeme.isSpace c = true) {g : List Char} (hg : g ∈ gap) :
    c :: g ∈ gap := by
  apply append_mem_kstar (u := [c]) _ hg
  rw [Language.mem_add, Language.mem_add]
  exact .inl (.inl (singleton_mem_one.mpr (isSpace_iff.mp hc)))

theorem space_append_mem_gap {u g : List Char} (hu : u ∈ space) (hg : g ∈ gap) :
    u ++ g ∈ gap := by
  obtain ⟨-, hspace⟩ := mem_space.mp hu
  clear hu
  induction u with
  | nil => exact hg
  | cons c u ih =>
    apply cons_mem_gap (hspace c List.mem_cons_self)
    exact ih fun d hd => hspace d (List.mem_cons_of_mem c hd)

theorem comment_append_mem_gap {u g : List Char} (hu : u ∈ blockComment) (hg : g ∈ gap) :
    u ++ g ∈ gap := by
  apply append_mem_kstar _ hg
  rw [Language.mem_add]
  exact .inr hu

theorem line_append_mem_gap {u g : List Char} (hu : u ∈ lineComment) (hg : g ∈ gap) :
    u ++ '\n' :: g ∈ gap := by
  rw [List.append_cons]
  apply append_mem_kstar _ hg
  rw [Language.mem_add, Language.mem_add]
  exact .inl (.inr (Language.append_mem_mul hu (singleton_mem_one.mpr rfl)))

theorem mem_gap_cons {c : Char} {g : List Char} (h : c :: g ∈ gap) :
    Lexeme.isSpace c = true ∧ g ∈ gap ∨ c = '/' := by
  rw [gap, ← Language.one_add_self_mul_kstar_eq_kstar, Language.mem_add, Language.mem_one] at h
  rcases h with h | h
  · cases h
  · obtain ⟨x, hx, y, hy, heq⟩ := Language.mem_mul.mp h
    rw [Language.mem_add, Language.mem_add] at hx
    rcases hx with (⟨d, hd, rfl⟩ | hx) | hx
    · obtain ⟨rfl, rfl⟩ := List.cons.inj heq
      exact .inl ⟨isSpace_iff.mpr hd, hy⟩
    · obtain ⟨line, hline, w, -, rfl⟩ := Language.mem_mul.mp hx
      obtain ⟨d, w', rfl, -, rfl⟩ := mem_one_mul.mp hline
      exact .inr (List.cons.inj heq).1.symm
    · obtain ⟨d, w', rfl, -, rfl⟩ := mem_one_mul.mp hx
      exact .inr (List.cons.inj heq).1.symm

theorem mem_gap_of_newline {g : List Char} (h : '\n' :: g ∈ gap) : g ∈ gap := by
  rcases mem_gap_cons h with ⟨-, hg⟩ | hslash
  · exact hg
  · exact absurd hslash (by decide)

theorem mem_blank {text : List Char} (h : Matches .blank text) :
    text ∈ space ∨ text ∈ lineComment ∨ text ∈ blockComment := by
  obtain ⟨l, hl, htext⟩ := h
  simp only [declared, List.mem_cons, Prod.mk.injEq, List.not_mem_nil, or_false] at hl
  rcases hl with ⟨-, rfl⟩ | ⟨-, rfl⟩ | ⟨-, rfl⟩ | hl
  · exact .inl htext
  · exact .inr (.inl htext)
  · exact .inr (.inr htext)
  · simp at hl

end Pattern

namespace Lexeme

open Pattern

theorem head_of_lineComment {text rest : List Char} (h : Longest (text ++ rest) .blank text)
    (hline : text ∈ lineComment) : ∀ x ∈ rest.head?, x = '\n' := by
  intro x hx
  by_contra hne
  obtain ⟨rest, rfl⟩ : ∃ rest', rest = x :: rest' := by
    cases rest with
    | nil => cases hx
    | cons y rest => exact ⟨rest, by rw [Option.mem_some.mp hx]⟩
  have hlonger : text ++ [x] ∈ lineComment := by
    obtain ⟨c, w, rfl, hw, rfl⟩ := mem_one_mul.mp hline
    obtain ⟨d, u, rfl, hu, rfl⟩ := mem_one_mul.mp hw
    refine cons_mem_one_mul.mpr ⟨rfl, cons_mem_one_mul.mpr ⟨rfl, ?_⟩⟩
    apply mem_kstar_one.mpr
    intro e he
    rcases List.mem_append.mp he with he | he
    · exact mem_kstar_one.mp hu e he
    · rw [List.mem_singleton.mp he]
      exact hne
  have hcandidate : Candidate (text ++ x :: rest) .blank (text ++ [x]) := by
    refine ⟨by simp, ⟨rest, ?_⟩, lineComment, by simp [declared], hlonger⟩
    rw [List.append_assoc, List.singleton_append]
  have hle := h.length_le hcandidate
  rw [List.length_append, List.length_singleton] at hle
  omega

theorem append_mem_gap {text g rest : List Char} (h : Step (text ++ (g ++ rest)) .blank text)
    (hg : g ∈ gap) (hrest : ∃ c w, rest = c :: w ∧ isSpace c = false) : text ++ g ∈ gap := by
  have hlongest := h.longest_of_ne (by decide)
  rcases mem_blank hlongest.candidate.found with hspace | hline | hcomment
  · exact space_append_mem_gap hspace hg
  · obtain ⟨c, w, rfl, hc⟩ := hrest
    have hhead := head_of_lineComment hlongest hline
    cases g with
    | nil =>
      obtain rfl : c = '\n' := hhead c rfl
      cases hc
    | cons x g =>
      obtain rfl : x = '\n' := hhead x rfl
      exact line_append_mem_gap hline (mem_gap_of_newline hg)
  · exact comment_append_mem_gap hcomment hg

theorem append_mem_lastGap {text rest : List Char} (h : Step (text ++ rest) .blank text)
    (hrest : rest ∈ lastGap) : text ++ rest ∈ lastGap := by
  have hlongest := h.longest_of_ne (by decide)
  obtain ⟨g, hg, tail, htail, rfl⟩ := Language.mem_mul.mp hrest
  rcases mem_blank hlongest.candidate.found with hspace | hline | hcomment
  · rw [← List.append_assoc]
    exact Language.append_mem_mul (space_append_mem_gap hspace hg) htail
  · have hhead := head_of_lineComment hlongest hline
    cases g with
    | nil =>
      -- only a comment at the end of the text has no line feed behind it
      rcases mem_maybe.mp htail with rfl | htail
      · rw [List.append_nil, List.append_nil]
        exact ⟨[], Language.nil_mem_kstar _, text, mem_maybe.mpr (.inr hline), rfl⟩
      · obtain ⟨c, w, rfl, -, rfl⟩ := mem_one_mul.mp htail
        exact absurd (hhead '/' rfl) (by decide)
    | cons x g =>
      obtain rfl : x = '\n' := hhead x rfl
      have hgap := line_append_mem_gap hline (mem_gap_of_newline hg)
      rw [← List.append_assoc]
      exact Language.append_mem_mul hgap htail
  · rw [← List.append_assoc]
    exact Language.append_mem_mul (comment_append_mem_gap hcomment hg) htail

theorem Step.exists_cons {rest text : List Char} {cls : Class} (h : Step (text ++ rest) cls text)
    (hcls : cls ≠ .blank) : ∃ c w, text = c :: w ∧ isSpace c = false := by
  obtain ⟨c, w, rfl⟩ := List.exists_cons_of_ne_nil h.ne_nil
  refine ⟨c, w, rfl, Bool.eq_false_iff.mpr fun hc => ?_⟩
  rw [List.cons_append] at h
  have hmunch := (munch_of_step h).1
  rw [munch_space hc] at hmunch
  exact hcls hmunch.symm

theorem piece?_eq_none_iff {l : Lexeme} : l.piece? = none ↔ l.cls = .blank := by
  unfold piece?
  split
  · rename_i hcls
    simp [hcls]
  all_goals
    rename_i hcls
    simp [hcls]

theorem step_of_munch {c : Char} {w rest : List Char} {cls : Class}
    (h : munch c (w ++ rest) = (cls, w.length)) : Step (c :: w ++ rest) cls (c :: w) := by
  have hstep := step_munch c (w ++ rest)
  rw [h] at hstep
  simp only [List.take_left] at hstep
  exact hstep

theorem step_line {u rest : List Char} (hu : u ∈ lineComment) (hrest : ∀ x ∈ rest.head?, x = '\n') :
    Step (u ++ rest) .blank u := by
  obtain ⟨c, v, rfl, hv, rfl⟩ := mem_one_mul.mp hu
  obtain ⟨d, w, rfl, hw, rfl⟩ := mem_one_mul.mp hv
  apply step_of_munch
  have hall : w.all (· != '\n') := by
    rw [List.all_eq_true]
    intro e he
    simpa using mem_kstar_one.mp hw e he
  have hrun : Text.run (· != '\n') (w ++ rest) = w.length := by
    apply Text.run_append_of_all hall
    intro x hx
    simp [hrest x hx]
  rw [List.cons_append, munch_line, hrun, List.length_cons, Nat.add_comm]

theorem step_comment {u : List Char} (hu : u ∈ blockComment) (rest : List Char) :
    Step (u ++ rest) .blank u := by
  obtain ⟨c, v, rfl, hv, rfl⟩ := mem_one_mul.mp hu
  obtain ⟨d, w, rfl, hw, rfl⟩ := mem_one_mul.mp hv
  apply step_of_munch
  rw [List.cons_append, munch_comment (commentLength?_of_mem hw rest), List.length_cons,
    Nat.add_comm]

theorem piecesFrom_of_blank {offset : Nat} {u rest : List Char} (h : Step (u ++ rest) .blank u) :
    piecesFrom offset (u ++ rest) = piecesFrom (offset + Text.byteSize u) rest := by
  rw [piecesFrom_of_step h]
  rfl

theorem piecesFrom_gap {g : List Char} (hg : g ∈ gap) (offset : Nat) (rest : List Char) :
    piecesFrom offset (g ++ rest) = piecesFrom (offset + Text.byteSize g) rest := by
  refine kstar_induction (motive := fun g => ∀ offset, piecesFrom offset (g ++ rest) =
    piecesFrom (offset + Text.byteSize g) rest) (fun _ => rfl) ?_ hg offset
  intro u hu v _ ih offset
  rw [List.append_assoc, Text.byteSize_append, ← Nat.add_assoc, ← ih]
  rw [Language.mem_add, Language.mem_add] at hu
  rcases hu with (⟨c, hc, rfl⟩ | hu) | hu
  · exact piecesFrom_space offset (isSpace_iff.mpr hc) (v ++ rest)
  · obtain ⟨line, hline, _, ⟨c, rfl, rfl⟩, rfl⟩ := Language.mem_mul.mp hu
    have hstep : Step (line ++ '\n' :: (v ++ rest)) .blank line := step_line hline (by simp)
    rw [List.append_assoc, List.singleton_append, piecesFrom_of_blank hstep,
      piecesFrom_space _ rfl, Text.byteSize_append, ← Nat.add_assoc]
    rfl
  · exact piecesFrom_of_blank (step_comment hu (v ++ rest))

theorem piecesFrom_lastGap {u : List Char} (hu : u ∈ lastGap) (offset : Nat) :
    piecesFrom offset u = [] := by
  obtain ⟨g, hg, tail, htail, rfl⟩ := Language.mem_mul.mp hu
  rw [piecesFrom_gap hg]
  rcases mem_maybe.mp htail with rfl | hline
  · exact piecesFrom_nil _
  · have hstep : Step (tail ++ []) .blank tail := step_line hline (by simp)
    rw [← List.append_nil tail, piecesFrom_of_blank hstep]
    exact piecesFrom_nil _

end Lexeme

namespace Reader

open Lexeme Pattern Text

theorem step_of_rest {r : Reader} {c : Char} {cs : List Char} (h : r.rest = c :: cs) :
    c :: cs.take (munch c cs).2 ++ cs.drop (munch c cs).2 = r.rest ∧
      Step (c :: cs.take (munch c cs).2 ++ cs.drop (munch c cs).2) (munch c cs).1
        (c :: cs.take (munch c cs).2) := by
  rw [List.cons_append, List.take_append_drop, h]
  exact ⟨rfl, step_munch c cs⟩

theorem rest_mem_lastGap {r : Reader} (h : r.visit? = none) : r.rest ∈ lastGap := by
  fun_induction visit? r with
  | case1 r hr =>
    rw [hr]
    exact ⟨[], Language.nil_mem_kstar _, [], mem_maybe.mpr (.inl rfl), rfl⟩
  | case2 r c cs hr taken l passed hp ih =>
    obtain ⟨hrest, hstep⟩ := step_of_rest hr
    have hblank : (munch c cs).1 = .blank := piece?_eq_none_iff.mp hp
    rw [hblank] at hstep
    rw [← hrest]
    exact append_mem_lastGap hstep (ih h)
  | case3 => cases h

/-- How a call moves a reader: it passes over a gap and over what it returns. -/
structure Moves (r : Reader) (v : Visit) (behind : Reader) (g : List Char) : Prop where
  gap : g ∈ gap
  rest : r.rest = g ++ (v.lexeme.text ++ behind.rest)
  start : v.lexeme.start = r.offset + byteSize g
  offset : behind.offset = v.lexeme.span.stop
  source : behind.source = r.source
  step : Step (v.lexeme.text ++ behind.rest) v.lexeme.cls v.lexeme.text

theorem exists_moves {r behind : Reader} {v : Visit} (h : r.visit? = some (v, behind)) :
    ∃ g, Moves r v behind g := by
  fun_induction visit? r with
  | case1 => cases h
  | case2 r c cs hr taken l passed hp ih =>
    obtain ⟨hrest, hstep⟩ := step_of_rest hr
    have hblank : (munch c cs).1 = .blank := piece?_eq_none_iff.mp hp
    obtain ⟨g, hg⟩ := ih h
    have hnot : v.lexeme.cls ≠ .blank := by
      intro hcls
      have hnone := piece?_eq_none_iff.mpr hcls
      rw [v.piece] at hnone
      cases hnone
    have hdrop : cs.drop (munch c cs).2 = g ++ (v.lexeme.text ++ behind.rest) := hg.rest
    rw [hblank, hdrop] at hstep
    obtain ⟨d, w, htext, hd⟩ := hg.step.exists_cons hnot
    refine ⟨l.text ++ g, ?_, ?_, ?_, hg.offset, hg.source, hg.step⟩
    · apply append_mem_gap hstep hg.gap
      exact ⟨d, w ++ behind.rest, by rw [htext, List.cons_append], hd⟩
    · rw [← hrest, hdrop, List.append_assoc]
    · rw [hg.start, byteSize_append, ← Nat.add_assoc]
      rfl
  | case3 r c cs hr taken l passed result hp =>
    obtain ⟨hrest, hstep⟩ := step_of_rest hr
    obtain ⟨hv, hbehind⟩ := Prod.mk.inj (Option.some.inj h)
    rw [← hv, ← hbehind]
    exact ⟨[], Language.nil_mem_kstar _, hrest.symm, rfl, rfl, rfl, hstep⟩

theorem Moves.length_lt {r behind : Reader} {v : Visit} {g : List Char} (h : Moves r v behind g) :
    behind.rest.length < r.rest.length := by
  have hpos := List.length_pos_iff.mpr h.step.ne_nil
  rw [h.rest, List.length_append, List.length_append]
  omega

def visits (r : Reader) : List Visit :=
  match _h : r.visit? with
  | none => []
  | some (v, behind) => v :: behind.visits
termination_by r.rest.length
decreasing_by
  obtain ⟨g, hg⟩ := exists_moves _h
  exact hg.length_lt

theorem visits_of_none {r : Reader} (h : r.visit? = none) : r.visits = [] := by
  unfold visits
  split
  · rfl
  · rename_i heq
    rw [h] at heq
    cases heq

theorem visits_of_some {r behind : Reader} {v : Visit} (h : r.visit? = some (v, behind)) :
    r.visits = v :: behind.visits := by
  rw [visits]
  split
  · rename_i heq
    rw [h] at heq
    cases heq
  · rename_i heq
    rw [h] at heq
    cases heq
    rfl

def call (r : Reader) : Nat → Except CompileError Token
  | 0 => r.next.1
  | k + 1 => r.next.2.call k

theorem call_eq (r : Reader) (k : Nat) :
    r.call k = (r.visits.map Visit.result)[k]?.getD (.ok (Token.endOf r.source)) := by
  induction k generalizing r with
  | zero =>
    rw [call, next]
    cases h : r.visit? with
    | none =>
      rw [visits_of_none h]
      rfl
    | some found =>
      rw [visits_of_some h]
      rfl
  | succ k ih =>
    rw [call, next]
    cases h : r.visit? with
    | none =>
      rw [ih, visits_of_none h]
      rfl
    | some found =>
      obtain ⟨v, behind⟩ := found
      obtain ⟨g, hg⟩ := exists_moves h
      rw [ih, visits_of_some h, hg.source]
      rfl

theorem map_result_visits (r : Reader) :
    r.visits.map Visit.result = piecesFrom r.offset r.rest := by
  fun_induction visits r with
  | case1 r h => rw [piecesFrom_lastGap (rest_mem_lastGap h), List.map_nil]
  | case2 r v behind h ih =>
    obtain ⟨g, hg⟩ := exists_moves h
    have hpiece : piece? ⟨v.lexeme.cls, v.lexeme.text, r.offset + byteSize g⟩ = some v.result := by
      rw [← hg.start]
      exact v.piece
    have hoffset : r.offset + byteSize g + byteSize v.lexeme.text = behind.offset := by
      rw [hg.offset, ← hg.start]
      rfl
    rw [hg.rest, piecesFrom_gap hg.gap, piecesFrom_of_step hg.step, hpiece, hoffset, ← ih]
    rfl

inductive Tiles : Nat → List Char → List Lexeme → Prop
  | last {offset : Nat} {g : List Char} (hg : g ∈ lastGap) : Tiles offset g []
  | cons {offset : Nat} {g rest : List Char} {l : Lexeme} {ls : List Lexeme} (hg : g ∈ gap)
    (hstart : l.start = offset + byteSize g) (hne : l.text ≠ [])
    (h : Tiles l.span.stop rest ls) : Tiles offset (g ++ (l.text ++ rest)) (l :: ls)

theorem tiles_visits (r : Reader) : Tiles r.offset r.rest (r.visits.map Visit.lexeme) := by
  fun_induction visits r with
  | case1 r h => exact .last (rest_mem_lastGap h)
  | case2 r v behind h ih =>
    obtain ⟨g, hg⟩ := exists_moves h
    rw [hg.rest, List.map_cons]
    rw [hg.offset] at ih
    exact .cons hg.gap hg.start hg.step.ne_nil ih

namespace Tiles

variable {offset : Nat} {cs : List Char} {ls : List Lexeme}

theorem bounds (h : Tiles offset cs ls) : ∀ l ∈ ls,
    offset ≤ l.span.start ∧ l.span.start < l.span.stop ∧ l.span.stop ≤ offset + byteSize cs := by
  induction h with
  | last => simp
  | @cons offset g rest l ls hg hstart hne h ih =>
    have hpos : 0 < byteSize l.text := byteSize_pos hne
    have hspan : l.span = ⟨offset + byteSize g, offset + byteSize g + byteSize l.text⟩ := by
      rw [span, hstart]
    rw [byteSize_append, byteSize_append]
    intro l' hl'
    rcases List.mem_cons.mp hl' with rfl | hl'
    · rw [hspan]
      simp only
      omega
    · have := ih l' hl'
      rw [hspan] at this
      simp only at this
      omega

theorem pairwise (h : Tiles offset cs ls) :
    ls.Pairwise fun l l' => l.span.stop ≤ l'.span.start := by
  induction h with
  | last => exact .nil
  | cons hg hstart hne h ih => exact .cons (fun l' hl' => (h.bounds l' hl').1) ih

theorem length_le (h : Tiles offset cs ls) : ls.length ≤ byteSize cs := by
  induction h with
  | last => exact Nat.zero_le _
  | @cons offset g rest l ls hg hstart hne h ih =>
    have hpos : 0 < byteSize l.text := byteSize_pos hne
    rw [byteSize_append, byteSize_append, List.length_cons]
    omega

theorem slice (h : Tiles offset cs ls) {before : List Char} (hbefore : byteSize before = offset) :
    ∀ l ∈ ls, Text.slice (before ++ cs) l.span = some l.text := by
  induction h generalizing before with
  | last => simp
  | @cons offset g rest l ls hg hstart hne h ih =>
    have hsize : byteSize (before ++ g) = l.start := by
      rw [byteSize_append, hbefore, hstart]
    rw [← List.append_assoc]
    intro l' hl'
    rcases List.mem_cons.mp hl' with rfl | hl'
    · rw [span, ← hsize]
      exact slice_append (before ++ g) l'.text rest
    · rw [← List.append_assoc]
      apply ih _ l' hl'
      rw [byteSize_append, hsize]
      rfl

end Tiles

inductive Reports (l : Lexeme) : Except CompileError Token → Prop
  | token {kind : Token.Kind} (hkind : kind ≠ .endOfInput) :
    Reports l (.ok ⟨kind, String.ofList l.text, l.span⟩)
  | stray : Reports l (.error (.strayText (String.ofList l.text) l.span))
  | unterminated {quote : Char} {w : List Char} (hquote : quote = '"' ∨ quote = '\'')
    (htext : l.text = quote :: w) : Reports l (.error (.unterminatedString l.start))

theorem exists_quote {text : List Char} (h : Matches (.token .unterminated) text) :
    ∃ quote w, (quote = '"' ∨ quote = '\'') ∧ text = quote :: w := by
  obtain ⟨l, hl, htext⟩ := h
  simp only [declared, List.mem_cons, Prod.mk.injEq, List.not_mem_nil, or_false, reduceCtorEq,
    Class.token.injEq, false_and, true_and, false_or] at hl
  rcases hl with rfl | rfl
  · obtain ⟨quote, w, rfl, -, rfl⟩ := mem_one_mul.mp htext
    exact ⟨_, w, .inl rfl, rfl⟩
  · obtain ⟨quote, w, rfl, -, rfl⟩ := mem_one_mul.mp htext
    exact ⟨_, w, .inr rfl, rfl⟩

theorem Visit.reports (v : Visit) {rest : List Char}
    (h : Step rest v.lexeme.cls v.lexeme.text) : Reports v.lexeme v.result := by
  obtain ⟨l, result, hpiece⟩ := v
  simp only at h ⊢
  have hfound : l.cls ≠ .stray → Matches l.cls l.text :=
    fun hcls => (h.longest_of_ne hcls).candidate.found
  cases result with
  | ok t =>
    obtain ⟨hcls, -, htext, hspan⟩ := piece?_eq_ok_iff.mp hpiece
    obtain ⟨kind, text, p⟩ := t
    simp only at hcls htext hspan
    rw [htext, hspan]
    apply Reports.token
    rintro rfl
    obtain ⟨pattern, hpattern, -⟩ := hfound (by rw [hcls]; decide)
    rw [hcls] at hpattern
    simp [declared] at hpattern
  | error e =>
    unfold piece? at hpiece
    split at hpiece
    · cases hpiece
    · cases hpiece
      exact .stray
    · rename_i hcls
      cases hpiece
      rw [hcls] at hfound
      obtain ⟨quote, w, hquote, htext⟩ := exists_quote (hfound (by decide))
      exact .unterminated hquote htext
    · cases hpiece

theorem reports_of_mem_visits (r : Reader) : ∀ v ∈ r.visits, Reports v.lexeme v.result := by
  fun_induction visits r with
  | case1 => simp
  | case2 r v behind h ih =>
    obtain ⟨g, hg⟩ := exists_moves h
    intro v' hv'
    rcases List.mem_cons.mp hv' with rfl | hv'
    · exact v'.reports hg.step
    · exact ih v' hv'

/-- Calls over and over, on to the end of a source and beyond. -/
structure Accounts (source : String) (visits : List Visit) : Prop where
  tiles : Tiles 0 source.toList (visits.map Visit.lexeme)
  ordered : (visits.map Visit.lexeme).Pairwise fun l l' => l.span.stop ≤ l'.span.start
  bounds : ∀ v ∈ visits, v.lexeme.span.start < v.lexeme.span.stop ∧
    v.lexeme.span.stop ≤ source.utf8ByteSize
  slice : ∀ v ∈ visits, Text.slice source.toList v.lexeme.span = some v.lexeme.text
  reports : ∀ v ∈ visits, Reports v.lexeme v.result
  length_le : visits.length ≤ source.utf8ByteSize
  pieces : visits.map Visit.result = pieces source
  call : ∀ k, (start source).call k =
    (visits.map Visit.result)[k]?.getD (.ok (Token.endOf source))

theorem accounts_visits (source : String) : Accounts source (start source).visits := by
  have htiles : Tiles 0 source.toList ((start source).visits.map Visit.lexeme) :=
    tiles_visits (start source)
  have hsize : byteSize source.toList = source.utf8ByteSize := by
    rw [← utf8ByteSize_ofList, String.ofList_toList]
  refine ⟨htiles, htiles.pairwise, ?_, ?_, reports_of_mem_visits _, ?_,
    map_result_visits (start source), call_eq (start source)⟩
  · intro v hv
    have hbounds := htiles.bounds v.lexeme (List.mem_map_of_mem hv)
    rw [Nat.zero_add, hsize] at hbounds
    exact hbounds.2
  · intro v hv
    exact htiles.slice (show byteSize [] = 0 from rfl) v.lexeme (List.mem_map_of_mem hv)
  · rw [← hsize, ← List.length_map (f := Visit.lexeme)]
    exact htiles.length_le

end Reader

end Fexpr
