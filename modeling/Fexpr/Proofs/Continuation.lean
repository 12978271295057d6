import Fexpr.Proofs.EarliestError
import Fexpr.Proofs.Rendering
import Fexpr.Repl

/-!
# Ways out of a continuation

The loop goes on gathering lines for as long as an entry is incomplete. A stray character ends an
entry, and a string that is open there can be closed in front of it. Only a string in which a
backslash stands at the end of a line stays open whatever comes after.
-/

namespace Fexpr

namespace Lexeme

open Pattern Text

/-- Lines on which a string goes on: it runs to their end, or stops at a backslash at the end of one
of them. -/
def LeavesOpen (quote : Char) (cs : List Char) : Prop :=
  cs ∈ body quote ∨ ∃ w ∈ body quote, ∃ after, cs = w ++ '\\' :: '\n' :: after

theorem stringLength_broken {quote : Char} {w : List Char} (h : w ∈ body quote)
    (after : List Char) : (stringLength quote (w ++ '\\' :: '\n' :: after)).1 = false := by
  rw [stringLength_append_of_mem h, stringLength]
  rfl

theorem LeavesOpen.stringLength {quote : Char} {cs : List Char} (h : LeavesOpen quote cs) :
    (stringLength quote cs).1 = false := by
  rcases h with h | ⟨w, hw, after, rfl⟩
  · rw [← List.append_nil cs, stringLength_append_of_mem h]
    rfl
  · exact stringLength_broken hw after

theorem LeavesOpen.cons {quote c : Char} (hquote : c ≠ quote) (hslash : c ≠ '\\') {cs : List Char}
    (h : LeavesOpen quote cs) : LeavesOpen quote (c :: cs) := by
  rcases h with h | ⟨w, hw, after, rfl⟩
  · exact .inl (cons_mem_body hquote hslash h)
  · exact .inr ⟨c :: w, cons_mem_body hquote hslash hw, after, rfl⟩

theorem LeavesOpen.escape {quote c : Char} (hc : c ≠ '\n') {cs : List Char}
    (h : LeavesOpen quote cs) : LeavesOpen quote ('\\' :: c :: cs) := by
  rcases h with h | ⟨w, hw, after, rfl⟩
  · exact .inl (escape_mem_body hc h)
  · exact .inr ⟨'\\' :: c :: w, escape_mem_body hc hw, after, rfl⟩

theorem leavesOpen_newline {quote : Char} (hquote : '\n' ≠ quote) {cs : List Char}
    (h : (stringLength quote cs).1 = false) : LeavesOpen quote (cs ++ ['\n']) := by
  have hnil : [] ∈ body quote := Language.nil_mem_kstar _
  fun_induction Lexeme.stringLength quote cs with
  | case1 => exact .inl (cons_mem_body hquote (by decide) hnil)
  | case2 => exact .inr ⟨[], hnil, [], rfl⟩
  | case3 cs => exact .inr ⟨[], hnil, cs ++ ['\n'], rfl⟩
  | case4 c cs hc closed n hs ih =>
    rw [hs] at ih
    exact (ih h).escape hc
  | case5 => cases h
  | case6 c cs h₁ h₂ hc closed n hs ih =>
    rw [hs] at ih
    exact (ih h).cons hc (ne_backslash h₁ h₂)

theorem commentLength?_newline {cs : List Char} (h : commentLength? cs = none) :
    commentLength? (cs ++ ['\n']) = none := by
  fun_induction commentLength? cs with
  | case1 => cases h
  | case2 c cs hne ih =>
    have hcs : commentLength? cs = none := Option.map_eq_none_iff.mp h
    rw [List.cons_append, commentLength?, ih hcs, Option.map_none]
    rintro cs' rfl heq
    cases cs with
    | nil => cases heq
    | cons d cs =>
      obtain ⟨rfl, -⟩ := List.cons.inj heq
      exact hne cs rfl rfl
  | case3 => rfl

theorem munch_open_comment {cs : List Char} (h : commentLength? cs = none) :
    munch '/' ('*' :: cs) = (.stray, cs.length + 1) := by
  unfold munch
  simp only [h]
  rfl

/-- A stray lexeme is a comment without an end, or else one character, whatever lines come after. -/
theorem munch_stray_cases {c : Char} {cs : List Char} (h : (munch c cs).1 = .stray) :
    (∃ w, c = '/' ∧ cs = '*' :: w ∧ commentLength? w = none) ∨
      ∀ ds, munch c (cs ++ '\n' :: ds) = (.stray, 0) := by
  have hspace : ¬ isSpace c = true := fun hc => by rw [munch_space hc] at h; cases h
  have hname : ¬ isNameStart c = true := fun hc => by rw [munch_name hc] at h; cases h
  have hdigit : ¬ c.isDigit = true := fun hc => by rw [munch_digit hc] at h; cases h
  have hquote : ¬ (c = '"' ∨ c = '\'') := fun hc => by
    rw [munch_quote hc] at h
    split at h <;> cases h
  unfold munch at h ⊢
  -- of the characters left, only a minus sign and a slash look at what comes after them
  rw [if_neg hspace, if_neg hname, if_neg hdigit] at h
  simp only [if_neg hspace, if_neg hname, if_neg hdigit]
  by_cases hminus : c = '-'
  · right
    intro ds
    rw [if_pos hminus] at h ⊢
    cases cs with
    | nil => rfl
    | cons d cs =>
      by_cases hd : d.isDigit = true
      · simp [hd] at h
      · simp [hd]
  rw [if_neg hminus, if_neg hquote] at h
  simp only [if_neg hminus, if_neg hquote]
  by_cases hslash : c = '/'
  · rw [if_pos hslash] at h
    split at h
    · cases h
    · rename_i w
      cases hcomment : commentLength? w with
      | some n => simp [hcomment] at h
      | none => exact .inl ⟨w, hslash, rfl, hcomment⟩
    · rename_i hline hcomment
      right
      intro ds
      rw [if_pos hslash]
      cases cs with
      | nil => rfl
      | cons d cs =>
        rw [List.cons_append]
        split
        · rename_i heq
          obtain ⟨rfl, -⟩ := List.cons.inj heq
          exact absurd rfl (hline cs)
        · rename_i heq
          obtain ⟨rfl, -⟩ := List.cons.inj heq
          exact absurd rfl (hcomment cs)
        · rfl
  · right
    intro ds
    rw [if_neg hslash] at h ⊢
    cases hkind : punctuation? c with
    | some kind => simp [hkind] at h
    | none => rfl

theorem munch_stray_newline {c : Char} {cs : List Char} (h : (munch c cs).1 = .stray) :
    (munch c (cs ++ ['\n'])).1 = .stray := by
  rcases munch_stray_cases h with ⟨w, rfl, rfl, hw⟩ | hstable
  · rw [List.cons_append, munch_open_comment (commentLength?_newline hw)]
  · rw [hstable]

theorem munch_unterminated_iff {c : Char} {cs : List Char} :
    (munch c cs).1 = .token .unterminated ↔
      (c = '"' ∨ c = '\'') ∧ (stringLength c cs).1 = false := by
  have hquoted : c = '"' ∨ c = '\'' →
      ((munch c cs).1 = .token .unterminated ↔ (stringLength c cs).1 = false) := by
    intro hquote
    rw [munch_quote hquote]
    cases (stringLength c cs).1 <;> simp
  constructor
  · intro h
    rcases munch_cases c cs with hfound | ⟨hstray, -⟩
    · rw [h] at hfound
      obtain ⟨quote, w, hquote, heq⟩ := Reader.exists_quote hfound
      rw [← (List.cons.inj heq).1] at hquote
      exact ⟨hquote, (hquoted hquote).mp h⟩
    · rw [h] at hstray
      cases hstray
  · rintro ⟨hquote, hopen⟩
    exact (hquoted hquote).mpr hopen

def IsError (cls : Class) : Prop := cls = .stray ∨ cls = .token .unterminated

theorem toList_piece? (l : Lexeme) (hstray : l.cls ≠ .stray)
    (hclosed : l.cls ≠ .token .unterminated) :
    ∃ front : List Token, l.piece?.toList = front.map .ok := by
  unfold piece?
  split
  · exact ⟨[], rfl⟩
  · exact absurd ‹_› hstray
  · exact absurd ‹_› hclosed
  · exact ⟨[_], rfl⟩

theorem exists_front (offset : Nat) (cs : List Char) : ∃ (before rest : List Char)
    (ts : List Token), cs = before ++ rest ∧
      (∀ ds, piecesFrom offset (cs ++ '\n' :: ds) =
        ts.map .ok ++ piecesFrom (offset + byteSize before) (rest ++ '\n' :: ds)) ∧
      ∀ c v, rest = c :: v → IsError (munch c v).1 := by
  match cs with
  | [] =>
    refine ⟨[], [], [], rfl, fun ds => rfl, ?_⟩
    intro c v heq
    cases heq
  | c :: cs =>
    by_cases herror : IsError (munch c cs).1
    · refine ⟨[], c :: cs, [], rfl, fun ds => rfl, ?_⟩
      rintro c' v ⟨rfl, rfl⟩
      exact herror
    cases hspace : isSpace c with
    | true =>
      -- one character at a time, since white space at the end goes on into the line feed
      obtain ⟨before, rest, ts, rfl, hpieces, hrest⟩ := exists_front (offset + c.utf8Size) cs
      refine ⟨c :: before, rest, ts, rfl, fun ds => ?_, hrest⟩
      rw [List.cons_append, piecesFrom_space offset hspace, hpieces, byteSize, Nat.add_assoc]
    | false =>
      obtain ⟨hstray, hclosed⟩ := not_or.mp herror
      have hle := munch_le c cs
      obtain ⟨before, rest, ts, hsplit, hpieces, hrest⟩ :=
        exists_front (offset + byteSize (c :: cs.take (munch c cs).2)) (cs.drop (munch c cs).2)
      obtain ⟨front, hfront⟩ := toList_piece?
        ⟨(munch c cs).1, c :: cs.take (munch c cs).2, offset⟩ hstray hclosed
      refine ⟨c :: cs.take (munch c cs).2 ++ before, rest, front ++ ts, ?_, fun ds => ?_, hrest⟩
      · rw [List.append_assoc, ← hsplit, List.cons_append, List.take_append_drop]
      · rw [List.cons_append, piecesFrom_cons, munch_append ds hspace hstray hclosed,
          List.take_append_of_le_length hle, List.drop_append_of_le_length hle, hpieces, hfront,
          List.map_append, List.append_assoc, byteSize_append, Nat.add_assoc]
termination_by cs.length
decreasing_by
  · simp only [List.length_drop, List.length_cons]
    omega
  · simp

end Lexeme

open Parser.State in
theorem foldlM_of_isIncomplete {s : String} (h : isIncomplete s = true) :
    ∃ state, (scan s).tokens.foldlM feed start = .ok state := by
  cases hfeed : (scan s).tokens.foldlM feed start with
  | ok state => exact ⟨state, rfl⟩
  | error e =>
    have hparse : parse s = .error e := by
      rw [parse, hfeed]
      rfl
    rw [isIncomplete, hparse] at h
    obtain ⟨before, t, after, state, -, -, ht⟩ := foldlM_eq_error hfeed
    rcases feed_eq_error ht with ⟨expected, rfl⟩ | ⟨callee, before, -, -, -, -, -, rfl⟩
    · cases h
    · cases h

theorem Scan.ofPieces_append (ts : List Token) (more : List (Except CompileError Token)) :
    Scan.ofPieces (ts.map .ok ++ more) =
      ⟨ts ++ (Scan.ofPieces more).tokens, (Scan.ofPieces more).error?⟩ := by
  induction ts with
  | nil => rfl
  | cons t ts ih => rw [List.map_cons, List.cons_append, Scan.ofPieces, ih, List.cons_append]

theorem Scan.ofPieces_append_error (ts : List Token) (e : CompileError)
    (more : List (Except CompileError Token)) :
    Scan.ofPieces (ts.map .ok ++ .error e :: more) = ⟨ts, some e⟩ := by
  rw [Scan.ofPieces_append, Scan.ofPieces, List.append_nil]

theorem parse_of_isIncomplete {s : String} (h : isIncomplete s = true) :
    (∃ e, (scan s).error? = some e ∧ parse s = .error e) ∨
      (scan s).error? = none ∧
        ∃ expected, parse s = .error (.unexpectedEnd expected s.utf8ByteSize) := by
  obtain ⟨state, hstate⟩ := foldlM_of_isIncomplete h
  cases herror : (scan s).error? with
  | some e =>
    refine .inl ⟨e, rfl, ?_⟩
    rw [parse, hstate]
    simp only [bind, Except.bind, herror]
  | none =>
    cases hfinish : state.finish with
    | error expected =>
      refine .inr ⟨rfl, expected, ?_⟩
      rw [parse, hstate]
      simp only [bind, Except.bind, herror, hfinish]
    | ok items =>
      have hparse : parse s = .ok (.block ⟨0, s.utf8ByteSize⟩ items) := by
        rw [parse, hstate]
        simp only [bind, Except.bind, herror, hfinish]
      rw [isIncomplete, hparse] at h
      cases h

section

variable {s : String} {ts : List Token} {e : CompileError}
  {more : List (Except CompileError Token)} (hpieces : pieces s = ts.map .ok ++ .error e :: more)

include hpieces

theorem scan_of_pieces_error : scan s = ⟨ts, some e⟩ := by
  rw [scan, hpieces, Scan.ofPieces_append_error]

theorem parse_of_pieces_error (h : isIncomplete s = true) : parse s = .error e := by
  have hscan := scan_of_pieces_error hpieces
  rcases parse_of_isIncomplete h with ⟨e', he, hparse⟩ | ⟨he, -⟩
  · rw [hscan] at he
    rw [hparse, Option.some.inj he]
  · rw [hscan] at he
    cases he

theorem isIncomplete_eq_false (he : e.isIncomplete = false) : isIncomplete s = false := by
  rw [Bool.eq_false_iff]
  intro h
  rw [isIncomplete, parse_of_pieces_error hpieces h] at h
  exact absurd (h.symm.trans he) (by decide)

theorem parse_congr {s' : String} {more' : List (Except CompileError Token)}
    (hpieces' : pieces s' = ts.map .ok ++ .error e :: more') : parse s' = parse s := by
  rw [parse, parse, scan_of_pieces_error hpieces, scan_of_pieces_error hpieces']

end

open Lexeme Pattern Text

theorem piecesFrom_stray {c : Char} {cs : List Char} (h : (munch c cs).1 = .stray) (offset : Nat) :
    ∃ found p more, piecesFrom offset (c :: cs) = .error (.strayText found p) :: more := by
  rw [piecesFrom_cons, h]
  exact ⟨_, _, _, rfl⟩

theorem piecesFrom_unterminated {c : Char} {cs : List Char}
    (h : (munch c cs).1 = .token .unterminated) (offset : Nat) :
    ∃ more, piecesFrom offset (c :: cs) = .error (.unterminatedString offset) :: more := by
  rw [piecesFrom_cons, h]
  exact ⟨_, rfl⟩

inductive Unfinished (s : String) : Prop
  | stop (ts : List Token) {expected : Expectation}
    (hparse : parse s = .error (.unexpectedEnd expected s.utf8ByteSize))
    (hpieces : ∀ t, pieces (s ++ t) = ts.map .ok ++ piecesFrom (byteSize s.toList) t.toList) :
    Unfinished s
  | string (ts : List Token) {before v : List Char} {quote : Char}
    (hsplit : s.toList = before ++ quote :: v) (hquote : quote = '"' ∨ quote = '\'')
    (hopen : LeavesOpen quote v)
    (hparse : parse s = .error (.unterminatedString (byteSize before)))
    (hpieces : ∀ t, pieces (s ++ t) =
      ts.map .ok ++ piecesFrom (byteSize before) (quote :: (v ++ t.toList))) : Unfinished s

/-- Up to its first lexical error, a text that ends with a line feed has the same tokens whatever
comes after it. -/
theorem exists_tokens_append (u : String) : ∃ (before rest : List Char) (ts : List Token),
    u.toList = before ++ rest ∧
      (∀ t, pieces (u ++ "\n" ++ t) =
        ts.map .ok ++ piecesFrom (byteSize before) (rest ++ '\n' :: t.toList)) ∧
      ∀ c v, rest = c :: v → IsError (munch c v).1 := by
  obtain ⟨before, rest, ts, hsplit, hfront, hrest⟩ := exists_front 0 u.toList
  refine ⟨before, rest, ts, hsplit, ?_, hrest⟩
  intro t
  rw [pieces, String.toList_append, String.toList_append, List.append_assoc]
  exact (hfront t.toList).trans (by rw [Nat.zero_add])

theorem unfinished_of_isIncomplete {u : String} (h : isIncomplete (u ++ "\n") = true) :
    Unfinished (u ++ "\n") := by
  obtain ⟨before, rest, ts, hsplit, hpieces, hrest⟩ := exists_tokens_append u
  have hself : pieces (u ++ "\n") =
      ts.map .ok ++ piecesFrom (byteSize before) (rest ++ ['\n']) := by
    simpa using hpieces ""
  cases rest with
  | nil =>
    rw [List.append_nil] at hsplit
    subst hsplit
    have hclean : (scan (u ++ "\n")).error? = none := by
      rw [scan, hself, List.nil_append, piecesFrom_space _ rfl, piecesFrom_nil, List.append_nil,
        Scan.ofPieces_map_ok]
    rcases parse_of_isIncomplete h with ⟨e, he, -⟩ | ⟨-, expected, hparse⟩
    · rw [hclean] at he
      cases he
    · refine .stop ts hparse fun t => ?_
      rw [hpieces, List.nil_append, piecesFrom_space _ rfl, String.toList_append, byteSize_append]
      rfl
  | cons c v =>
    rcases hrest c v rfl with hstray | hopen
    · obtain ⟨found, p, more, hmore⟩ :=
        piecesFrom_stray (munch_stray_newline hstray) (byteSize before)
      rw [List.cons_append, hmore] at hself
      rw [isIncomplete_eq_false hself rfl] at h
      cases h
    · obtain ⟨hquote, hopen⟩ := munch_unterminated_iff.mp hopen
      have hne : '\n' ≠ c := by rcases hquote with rfl | rfl <;> decide
      have hv : LeavesOpen c (v ++ ['\n']) := leavesOpen_newline hne hopen
      obtain ⟨more, hmore⟩ := piecesFrom_unterminated
        (munch_unterminated_iff.mpr ⟨hquote, hv.stringLength⟩) (byteSize before)
      rw [List.cons_append, hmore] at hself
      refine .string ts ?_ hquote hv (parse_of_pieces_error hself h) fun t => ?_
      · rw [String.toList_append, hsplit, List.append_assoc]
        rfl
      · rw [hpieces, List.append_assoc]
        rfl

/-- A text ends inside a string, and in the string a backslash stands at the end of a line. -/
def BreaksEscape (s : String) : Prop :=
  ∃ (before w after : List Char) (quote : Char),
    s.toList = before ++ quote :: (w ++ '\\' :: '\n' :: after) ∧ (quote = '"' ∨ quote = '\'') ∧
      w ∈ body quote ∧ parse s = .error (.unterminatedString (byteSize before))

theorem BreaksEscape.isIncomplete {s : String} (h : BreaksEscape s) : isIncomplete s = true := by
  obtain ⟨_, _, _, _, -, -, -, hparse⟩ := h
  rw [Fexpr.isIncomplete, hparse]
  rfl

theorem BreaksEscape.append {s : String} (h : BreaksEscape s) (hline : ∃ u, s = u ++ "\n")
    (t : String) : BreaksEscape (s ++ t) := by
  obtain ⟨u, rfl⟩ := hline
  have hunfinished := unfinished_of_isIncomplete h.isIncomplete
  obtain ⟨before, w, after, quote, hsplit, hquote, hw, hparse⟩ := h
  refine ⟨before, w, after ++ t.toList, quote, ?_, hquote, hw, ?_⟩
  · rw [String.toList_append, hsplit]
    simp
  cases hunfinished with
  | stop ts hparse' hpieces =>
    rw [hparse] at hparse'
    cases hparse'
  | @string ts before' v quote' hsplit' hquote' hopen hparse' hpieces =>
    have hsize : byteSize before = byteSize before' := by
      rw [hparse] at hparse'
      simpa using hparse'
    -- the same offset in the same text
    have hrest : quote' :: v = quote :: (w ++ '\\' :: '\n' :: after) := by
      have hdrop := dropBytes_append before (quote :: (w ++ '\\' :: '\n' :: after))
      rw [← hsplit, hsplit', hsize, dropBytes_append] at hdrop
      exact Option.some.inj hdrop
    obtain ⟨rfl, rfl⟩ := List.cons.inj hrest
    have herror : ∀ t : String, ∃ more, pieces (u ++ "\n" ++ t) =
        ts.map .ok ++ .error (.unterminatedString (byteSize before)) :: more := by
      intro t
      have hopen : (stringLength quote' (w ++ '\\' :: '\n' :: after ++ t.toList)).1 = false := by
        rw [List.append_assoc]
        exact stringLength_broken hw (after ++ t.toList)
      obtain ⟨more, hmore⟩ := piecesFrom_unterminated
        (munch_unterminated_iff.mpr ⟨hquote, hopen⟩) (byteSize before)
      rw [hpieces, ← hsize, hmore]
      exact ⟨more, rfl⟩
    obtain ⟨more, hself⟩ := herror ""
    obtain ⟨more', hlong⟩ := herror t
    rw [String.append_empty] at hself
    rw [parse_congr hself hlong, hparse]

theorem piecesFrom_closing {quote : Char} (hquote : quote = '"' ∨ quote = '\'') {v : List Char}
    (hv : v ∈ body quote) (offset : Nat) (rest : List Char) : ∃ t found p more,
      piecesFrom offset (quote :: (v ++ quote :: '#' :: rest)) =
        .ok t :: .error (.strayText found p) :: more := by
  have hstring : quote :: (v ++ [quote]) ∈ Pattern.string quote :=
    cons_mem_one_mul.mpr ⟨rfl, Language.append_mem_mul hv (singleton_mem_one.mpr rfl)⟩
  have hstep := step_of_munch (munch_string hquote hstring ('#' :: rest))
  obtain ⟨found, p, more, hstray⟩ := piecesFrom_stray (show (munch '#' rest).1 = .stray from rfl)
    (offset + byteSize (quote :: (v ++ [quote])))
  have hsplit : quote :: (v ++ quote :: '#' :: rest) = quote :: (v ++ [quote]) ++ '#' :: rest := by
    simp
  rw [hsplit, piecesFrom_of_step hstep, hstray]
  exact ⟨_, found, p, more, rfl⟩

theorem exists_line_of_not_breaksEscape {s : String} (hline : ∃ u, s = u ++ "\n")
    (h : isIncomplete s = true) (hescape : ¬ BreaksEscape s) :
    ∃ line : String, '\n' ∉ line.toList ∧ isIncomplete (s ++ (line ++ "\n")) = false := by
  obtain ⟨u, rfl⟩ := hline
  cases unfinished_of_isIncomplete h with
  | stop ts hparse hpieces =>
    refine ⟨"#", by decide, ?_⟩
    have hmunch : (munch '#' ['\n']).1 = .stray := rfl
    obtain ⟨found, p, more, hstray⟩ := piecesFrom_stray hmunch (byteSize (u ++ "\n").toList)
    have hmore : pieces (u ++ "\n" ++ ("#" ++ "\n")) =
        ts.map .ok ++ .error (.strayText found p) :: more := by
      rw [hpieces, ← hstray]
      rfl
    exact isIncomplete_eq_false hmore rfl
  | @string ts before v quote hsplit hquote hopen hparse hpieces =>
    rcases hopen with hv | ⟨w, hw, after, rfl⟩
    · refine ⟨String.ofList [quote, '#'], ?_, ?_⟩
      · rcases hquote with rfl | rfl <;> decide
      obtain ⟨t, found, p, more, hclosed⟩ := piecesFrom_closing hquote hv (byteSize before) ['\n']
      have hmore : pieces (u ++ "\n" ++ (String.ofList [quote, '#'] ++ "\n")) =
          (ts ++ [t]).map .ok ++ .error (.strayText found p) :: more := by
        rw [hpieces, String.toList_append, String.toList_ofList, List.map_append, List.append_assoc]
        exact congrArg _ hclosed
      exact isIncomplete_eq_false hmore rfl
    · exact absurd ⟨before, w, after, quote, hsplit, hquote, hw, hparse⟩ hescape

theorem Word.exists_of_kind {kind : Token.Kind} (hclosed : kind ≠ .unterminated)
    (hend : kind ≠ .endOfInput) : ∃ w : Word, w.kind = kind := by
  suffices h : ∃ text, Matches (.token kind) text by
    obtain ⟨text, htext⟩ := h
    exact ⟨⟨kind, text, htext, hclosed⟩, rfl⟩
  cases kind with
  | unterminated => exact absurd rfl hclosed
  | endOfInput => exact absurd rfl hend
  | number =>
    have hzero : Numeral.IsDigits ['0'] := ⟨by decide, by decide⟩
    have hnumber := mem_number.mpr (.plain (.parts hzero .absent .absent))
    exact ⟨_, number, by simp [declared], hnumber⟩
  | string =>
    have hempty : ['"', '"'] ∈ Pattern.string '"' := cons_mem_one_mul.mpr
      ⟨rfl, Language.append_mem_mul (Language.nil_mem_kstar _) (singleton_mem_one.mpr rfl)⟩
    exact ⟨_, _, by simp [declared], hempty⟩
  | ident => exact ⟨['a'], ident, by simp [declared], mem_ident.mpr ⟨rfl, by simp⟩⟩
  | leftParen => exact ⟨_, matches_punctuation (c := '(') rfl⟩
  | rightParen => exact ⟨_, matches_punctuation (c := ')') rfl⟩
  | leftBrace => exact ⟨_, matches_punctuation (c := '\x7b') rfl⟩
  | rightBrace => exact ⟨_, matches_punctuation (c := '\x7d') rfl⟩
  | comma => exact ⟨_, matches_punctuation (c := ',') rfl⟩
  | atSign => exact ⟨_, matches_punctuation (c := '@') rfl⟩

open Parser.State in
theorem kind_of_feed {s s' : Parser.State} {t : Token} (h : s.feed t = .ok s') :
    t.kind ≠ .unterminated ∧ t.kind ≠ .endOfInput := by
  constructor <;>
  · intro hkind
    unfold feed at h
    split at h
    · simp [hkind] at h
    · simp [hkind, unexpected] at h

def Spacing.single : Spacing where
  lead := []
  between _ := [' ']
  trail := []
  lead_mem := Language.nil_mem_kstar _
  between_mem _ := cons_mem_gap rfl (Language.nil_mem_kstar _)
  between_ne_nil _ := List.cons_ne_nil _ _
  trail_mem := Language.append_mem_mul (Language.nil_mem_kstar _) (mem_maybe.mpr (.inl rfl))

theorem Spacing.kinds_placeFrom (s : Spacing) (offset i : Nat) (ws : List Word) :
    (s.placeFrom offset i ws).map Token.kind = ws.map Word.kind := by
  induction ws generalizing offset i with
  | nil => rfl
  | cons w ws ih => rw [placeFrom, List.map_cons, List.map_cons, ih]

open Parser.State in
theorem exists_words {ts : List Token} {s s' : Parser.State} (h : ts.foldlM feed s = .ok s') :
    ∃ ws : List Word, ws.map Word.kind = ts.map Token.kind := by
  induction ts generalizing s with
  | nil => exact ⟨[], rfl⟩
  | cons t ts ih =>
    rw [List.foldlM_cons] at h
    cases hfeed : s.feed t with
    | error e =>
      rw [hfeed] at h
      cases h
    | ok s₁ =>
      rw [hfeed] at h
      obtain ⟨hclosed, hend⟩ := kind_of_feed hfeed
      obtain ⟨w, hw⟩ := Word.exists_of_kind hclosed hend
      obtain ⟨ws, hws⟩ := ih h
      exact ⟨w :: ws, by rw [List.map_cons, List.map_cons, hw, hws]⟩

open Grammar Parser.State in
theorem exists_parse_of_pieces {s : String} {ts : List Token} {state : Parser.State}
    (hstate : ts.foldlM feed start = .ok state)
    (hpieces : ∀ t, pieces (s ++ t) = ts.map .ok ++ piecesFrom (byteSize s.toList) t.toList) :
    ∃ t tree, parse (s ++ t) = .ok tree := by
  obtain ⟨more, state', es, hmore, hfinish⟩ := state.completes
  obtain ⟨ws, hws⟩ := exists_words hmore
  -- the missing tokens are written behind the text
  generalize hplaced : Spacing.single.placeFrom (byteSize s.toList) 0 ws = placed
  generalize ht : s ++ String.ofList (Spacing.single.textFrom 0 ws) = source
  have hscan : scan source = ⟨ts ++ placed, none⟩ := by
    rw [scan, ← ht, hpieces, String.toList_ofList, Spacing.piecesFrom_textFrom, hplaced,
      ← List.map_append, Scan.ofPieces_map_ok]
  have hkinds : (scan source).tokens.map Token.kind = sequenceKinds (Expr.derivations es) := by
    have hread : state.kinds = ts.map Token.kind := kinds_foldlM_feed hstate
    rw [hscan, List.map_append, ← hplaced, Spacing.kinds_placeFrom, hws, ← hread,
      ← kinds_foldlM_feed hmore]
    exact kinds_of_finish hfinish
  obtain ⟨es', hes'⟩ := exists_spellsSequence _ hkinds (numeric_scan source)
  have hparsed := parse_of_spells (by rw [hscan]) hes'
  rw [← ht] at hparsed
  exact ⟨_, _, hparsed⟩

open Parser.State in
theorem exists_parse_append {u : String} {expected : Expectation} {offset : Nat}
    (h : parse (u ++ "\n") = .error (.unexpectedEnd expected offset)) :
    ∃ t tree, parse (u ++ "\n" ++ t) = .ok tree := by
  have hincomplete : isIncomplete (u ++ "\n") = true := by
    rw [isIncomplete, h]
    rfl
  cases unfinished_of_isIncomplete hincomplete with
  | string ts hsplit hquote hopen hparse hpieces =>
    rw [h] at hparse
    cases hparse
  | stop ts hparse hpieces =>
    have htokens : (scan (u ++ "\n")).tokens = ts := by
      have hself := hpieces ""
      rw [String.append_empty, String.toList_empty, piecesFrom_nil, List.append_nil] at hself
      rw [scan, hself, Scan.ofPieces_map_ok]
    obtain ⟨state, hstate⟩ := foldlM_of_isIncomplete hincomplete
    rw [htokens] at hstate
    exact exists_parse_of_pieces hstate hpieces

namespace Repl

theorem entryText_concat (pending : List String) (line : String) :
    entryText (pending ++ [line]) = entryText pending ++ (line ++ "\n") := by
  simp [entryText, Text.unlines, String.join]

theorem absorb_of_ne_nil {pending : List String} (h : pending ≠ []) (line : String) :
    absorb pending line =
      if isIncomplete (entryText pending ++ (line ++ "\n")) then (pending ++ [line], none)
      else ([], some (.entry (pending ++ [line]))) := by
  have hempty : pending.isEmpty = false := by simpa using h
  rw [absorb, hempty, ← entryText_concat]
  rfl

theorem ne_nil_of_entryText {pending : List String} (h : ∃ u, entryText pending = u ++ "\n") :
    pending ≠ [] := by
  rintro rfl
  obtain ⟨u, h⟩ := h
  have hlist := congrArg String.toList h
  simp [entryText, Text.unlines] at hlist

/-- The items that lines add up to, up to a command that ends the loop, and the lines of an entry
that was never completed. -/
def items (pending : List String) : List String → List Item × List String
  | [] => ([], pending)
  | line :: rest =>
    match absorb pending line with
    | (pending, none) => items pending rest
    | (_, some (.command line .quit)) => ([.command line .quit], [])
    | (pending, some item) =>
      let (more, left) := items pending rest
      (item :: more, left)

theorem items_of_breaksEscape {pending : List String} (hline : ∃ u, entryText pending = u ++ "\n")
    (h : BreaksEscape (entryText pending)) (lines : List String) :
    items pending lines = ([], pending ++ lines) := by
  induction lines generalizing pending with
  | nil => rw [items, List.append_nil]
  | cons line lines ih =>
    have hlonger : BreaksEscape (entryText (pending ++ [line])) := by
      rw [entryText_concat]
      exact h.append hline _
    have habsorb : absorb pending line = (pending ++ [line], none) := by
      rw [absorb_of_ne_nil (ne_nil_of_entryText hline), ← entryText_concat, hlonger.isIncomplete]
      rfl
    rw [items, habsorb]
    have hend : ∃ u, entryText (pending ++ [line]) = u ++ "\n" :=
      ⟨entryText pending ++ line, by rw [entryText_concat, String.append_assoc]⟩
    exact (ih hend hlonger).trans (by simp)

end Repl

open Repl in
/--
More text can end an incomplete text that ends with a line feed, unless it breaks an escape. In the
loop, one line is enough to have the entry evaluated; after a broken escape all lines to come are
only gathered. A program that ends too early can even be completed.
-/
theorem exists_isIncomplete_append_eq_false_iff {s : String} (hline : ∃ u, s = u ++ "\n")
    (h : isIncomplete s = true) :
    ((∃ t, isIncomplete (s ++ t) = false) ↔ ¬ BreaksEscape s) ∧
    (¬ BreaksEscape s → ∃ line : String, '\n' ∉ line.toList ∧ ∀ pending, entryText pending = s →
      absorb pending line = ([], some (.entry (pending ++ [line])))) ∧
    (BreaksEscape s → ∀ pending, entryText pending = s → ∀ lines,
      items pending lines = ([], pending ++ lines)) ∧
    ∀ expected offset, parse s = .error (.unexpectedEnd expected offset) →
      ∃ t tree, parse (s ++ t) = .ok tree := by
  refine ⟨⟨?_, ?_⟩, ?_, ?_, ?_⟩
  · rintro ⟨t, ht⟩ hescape
    rw [(hescape.append hline t).isIncomplete] at ht
    cases ht
  · intro hescape
    obtain ⟨line, -, hout⟩ := exists_line_of_not_breaksEscape hline h hescape
    exact ⟨line ++ "\n", hout⟩
  · intro hescape
    obtain ⟨line, hnewline, hout⟩ := exists_line_of_not_breaksEscape hline h hescape
    refine ⟨line, hnewline, ?_⟩
    rintro pending rfl
    rw [absorb_of_ne_nil (ne_nil_of_entryText hline), hout]
    rfl
  · rintro hescape pending rfl lines
    exact items_of_breaksEscape hline hescape lines
  · obtain ⟨u, rfl⟩ := hline
    intro expected offset hparse
    exact exists_parse_append hparse

theorem exists_isIncomplete_append_eq_false_iff_call :
    isIncomplete "f(\n" = true ∧ ∃ t, isIncomplete ("f(\n" ++ t) = false := by
  have hincomplete : isIncomplete "f(\n" = true := by decide +kernel
  have hescape : ¬ BreaksEscape "f(\n" := by
    rintro ⟨before, w, after, quote, hsplit, -⟩
    have hslash : '\\' ∈ "f(\n".toList := by
      rw [hsplit]
      simp
    exact absurd hslash (by decide)
  refine ⟨hincomplete, ?_⟩
  exact (exists_isIncomplete_append_eq_false_iff ⟨"f(", by decide⟩ hincomplete).1.mpr hescape

/-- After a quote and a backslash on one line, nothing gets out of the continuation. -/
theorem not_forall_exists_isIncomplete_append_eq_false :
    ¬ ∀ s : String, (∃ u, s = u ++ "\n") → isIncomplete s = true →
      ∃ t, isIncomplete (s ++ t) = false := by
  have hline : ∃ u, "\"\\\n" = u ++ "\n" := ⟨"\"\\", by decide⟩
  have herror : (scan "\"\\\n").error? = some (.unterminatedString 0) := by decide +kernel
  have hincomplete : isIncomplete "\"\\\n" = true := by decide +kernel
  have hparse : parse "\"\\\n" = .error (.unterminatedString 0) := by
    rcases parse_of_isIncomplete hincomplete with ⟨e, he, hparse⟩ | ⟨he, -⟩
    · rw [hparse, Option.some.inj (he.symm.trans herror)]
    · cases he.symm.trans herror
  have hescape : BreaksEscape "\"\\\n" :=
    ⟨[], [], [], '"', by decide, .inl rfl, Language.nil_mem_kstar _, hparse⟩
  intro hall
  obtain ⟨t, ht⟩ := hall _ hline hincomplete
  rw [(hescape.append hline t).isIncomplete] at ht
  cases ht

end Fexpr
