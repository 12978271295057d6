import Fexpr.Proofs.Continuation

/-!
# Entries that are given up

A text that ends with a line feed and is rejected without being incomplete stays rejected, with the
same error, whatever comes after it. The exception is a text that ends inside a block comment: it is
rejected although more text can close the comment and complete the program.
-/

namespace Fexpr

namespace Lexeme

theorem commentLength?_eq_none_iff {cs : List Char} :
    commentLength? cs = none ↔ ¬ ['*', '/'] <:+: cs := by
  fun_induction commentLength? cs with
  | case1 cs =>
    have hinside : ['*', '/'] <:+: '*' :: '/' :: cs := ⟨[], cs, rfl⟩
    simp [hinside]
  | case2 c cs hne ih =>
    have hfront : ¬ ['*', '/'] <+: c :: cs := by
      rintro ⟨rest, heq⟩
      obtain ⟨rfl, rfl⟩ := List.cons.inj heq
      exact hne rest rfl rfl
    rw [Option.map_eq_none_iff, ih, List.infix_cons_iff, not_or]
    exact ⟨fun h => ⟨hfront, h⟩, fun h => h.2⟩
  | case3 => simp

theorem commentLength?_close {cs : List Char} (h : commentLength? cs = none) (rest : List Char) :
    commentLength? (cs ++ '\n' :: '*' :: '/' :: rest) = some (cs.length + 3) := by
  fun_induction commentLength? cs with
  | case1 => cases h
  | case2 c cs hne ih =>
    have hcs : commentLength? cs = none := Option.map_eq_none_iff.mp h
    rw [List.cons_append, commentLength?, ih hcs, Option.map_some, List.length_cons,
      Nat.add_right_comm]
    · rintro cs' rfl heq
      cases cs with
      | nil => cases heq
      | cons d cs =>
        obtain ⟨rfl, -⟩ := List.cons.inj heq
        exact hne cs rfl rfl
  | case3 => rfl

theorem piecesFrom_close {w : List Char} (hw : commentLength? w = none) (offset : Nat)
    (rest : List Char) :
    piecesFrom offset ('/' :: '*' :: (w ++ '\n' :: '*' :: '/' :: rest)) =
      piecesFrom (offset + Text.byteSize ('/' :: '*' :: (w ++ ['\n', '*', '/']))) rest := by
  have hsplit : w ++ '\n' :: '*' :: '/' :: rest = w ++ ['\n', '*', '/'] ++ rest := by simp
  have hmunch : munch '/' ('*' :: (w ++ ['\n', '*', '/']) ++ rest) =
      (.blank, ('*' :: (w ++ ['\n', '*', '/'])).length) := by
    rw [List.cons_append, ← hsplit, munch_comment (commentLength?_close hw rest)]
    simp only [List.length_cons, List.length_append, List.length_nil]
    congr 1
    omega
  rw [hsplit]
  exact piecesFrom_of_blank (step_of_munch hmunch)

end Lexeme

open Lexeme Text

section

variable {s : String} {ts : List Token} {more : List (Except CompileError Token)} {e : CompileError}

open Parser.State

theorem parse_of_refused (hpieces : pieces s = ts.map .ok ++ more)
    (h : ts.foldlM feed start = .error e) : parse s = .error e := by
  have hfold : (scan s).tokens.foldlM feed start = .error e := by
    rw [scan, hpieces, Scan.ofPieces_append, List.foldlM_append, h]
    rfl
  rw [parse, hfold]
  rfl

theorem parse_of_accepted {state : Parser.State}
    (hpieces : pieces s = ts.map .ok ++ .error e :: more)
    (h : ts.foldlM feed start = .ok state) : parse s = .error e := by
  rw [parse, scan_of_pieces_error hpieces, h]
  rfl

end

/-- A text ends inside a block comment, and the parser takes what stands before the comment. -/
def EndsInComment (s : String) : Prop :=
  ∃ before w : List Char, s.toList = before ++ '/' :: '*' :: w ∧ ¬ ['*', '/'] <:+: w ∧
    parse s = .error (.strayText (String.ofList ('/' :: '*' :: w))
      ⟨byteSize before, s.utf8ByteSize⟩)

theorem not_endsInComment {s : String} {e : CompileError} (h : parse s = .error e)
    (hkind : ∀ w p, e ≠ .strayText (String.ofList ('/' :: '*' :: w)) p) : ¬ EndsInComment s := by
  rintro ⟨before, w, -, -, hstray⟩
  rw [h] at hstray
  exact hkind w _ (Except.error.inj hstray)

theorem not_strayText_of_foldlM {ts : List Token} {state : Parser.State} {e : CompileError}
    (h : ts.foldlM Parser.State.feed state = .error e) (found : String) (p : Span) :
    e ≠ .strayText found p := by
  obtain ⟨before, t, after, state', -, -, ht⟩ := Parser.State.foldlM_eq_error h
  rcases Parser.State.feed_eq_error ht with ⟨expected, rfl⟩ | ⟨callee, before, -, -, -, -, -, rfl⟩
  · simp
  · simp

theorem exists_parse_of_comment {u : String} {before w : List Char}
    {ts : List Token} {state : Parser.State} (hsplit : u.toList = before ++ '/' :: '*' :: w)
    (hw : commentLength? w = none)
    (hstate : ts.foldlM Parser.State.feed Parser.State.start = .ok state)
    (hpieces : ∀ t, pieces (u ++ "\n" ++ t) =
      ts.map .ok ++ piecesFrom (byteSize before) ('/' :: '*' :: w ++ '\n' :: t.toList)) :
    EndsInComment (u ++ "\n") ∧ ∃ t tree, parse (u ++ "\n" ++ t) = .ok tree := by
  have hline : (u ++ "\n").toList = before ++ '/' :: '*' :: (w ++ ['\n']) := by
    rw [String.toList_append, hsplit, List.append_assoc]
    rfl
  have hopen : commentLength? (w ++ ['\n']) = none := commentLength?_newline hw
  refine ⟨⟨before, w ++ ['\n'], hline, commentLength?_eq_none_iff.mp hopen, ?_⟩, ?_⟩
  · have hself := hpieces ""
    have hsize : (u ++ "\n").utf8ByteSize =
        byteSize before + byteSize ('/' :: '*' :: (w ++ ['\n'])) := by
      rw [← byteSize_append, ← hline, ← Text.utf8ByteSize_ofList, String.ofList_toList]
    rw [String.append_empty, String.toList_empty, List.cons_append, List.cons_append,
      piecesFrom_cons, munch_open_comment hopen, List.take_of_length_le (by simp)] at hself
    rw [parse_of_accepted hself hstate, hsize]
    rfl
  · have hclosed : ∀ t, pieces (u ++ "\n" ++ "*/" ++ t) =
        ts.map .ok ++ piecesFrom (byteSize (u ++ "\n" ++ "*/").toList) t.toList := by
      intro t
      have hlist : (u ++ "\n" ++ "*/").toList =
          before ++ '/' :: '*' :: (w ++ ['\n', '*', '/']) := by
        rw [String.toList_append, hline]
        simp
      rw [String.append_assoc, hpieces, hlist, byteSize_append, String.toList_append]
      exact congrArg _ (piecesFrom_close hw (byteSize before) t.toList)
    obtain ⟨t, tree, hparse⟩ := exists_parse_of_pieces hstate hclosed
    exact ⟨"*/" ++ t, tree, by rw [← String.append_assoc, hparse]⟩

theorem rejected_cases {u : String} {e : CompileError} (h : parse (u ++ "\n") = .error e)
    (he : e.isIncomplete = false) :
    (¬ EndsInComment (u ++ "\n") ∧ ∀ t, parse (u ++ "\n" ++ t) = .error e) ∨
      EndsInComment (u ++ "\n") ∧ ∃ t tree, parse (u ++ "\n" ++ t) = .ok tree := by
  obtain ⟨before, rest, ts, hsplit, hpieces, hrest⟩ := exists_tokens_append u
  have hself : pieces (u ++ "\n") =
      ts.map .ok ++ piecesFrom (byteSize before) (rest ++ ['\n']) := by
    simpa using hpieces ""
  cases hstate : ts.foldlM Parser.State.feed Parser.State.start with
  | error e' =>
    obtain rfl : e' = e := Except.error.inj ((parse_of_refused hself hstate).symm.trans h)
    refine .inl ⟨not_endsInComment h ?_, fun t => parse_of_refused (hpieces t) hstate⟩
    exact fun w p => not_strayText_of_foldlM hstate _ p
  | ok state =>
    cases rest with
    | nil =>
      -- without a lexical error there is a tree, or the text is incomplete
      rw [List.nil_append, piecesFrom_space _ rfl, piecesFrom_nil, List.append_nil] at hself
      rw [parse, scan, hself, Scan.ofPieces_map_ok, hstate] at h
      cases hfinish : state.finish with
      | ok items =>
        simp only [bind, Except.bind, hfinish] at h
        cases h
      | error expected =>
        simp only [bind, Except.bind, hfinish] at h
        cases h
        cases he
    | cons c v =>
      rcases hrest c v rfl with hstray | hopen
      · rcases munch_stray_cases hstray with ⟨w, rfl, rfl, hw⟩ | hstable
        · exact .inr (exists_parse_of_comment hsplit hw hstate hpieces)
        · have hparse : ∀ t, parse (u ++ "\n" ++ t) = .error (.strayText (String.ofList [c])
              ⟨byteSize before, byteSize before + byteSize [c]⟩) := by
            intro t
            have hmore := hpieces t
            rw [List.cons_append, piecesFrom_cons, hstable] at hmore
            exact parse_of_accepted hmore hstate
          have hown := hparse ""
          rw [String.append_empty, h] at hown
          obtain rfl := Except.error.inj hown
          refine .inl ⟨not_endsInComment h ?_, hparse⟩
          intro w p heq
          have htext := congrArg String.toList (CompileError.strayText.inj heq).1
          simp at htext
      · obtain ⟨hquote, hopen⟩ := munch_unterminated_iff.mp hopen
        have hne : '\n' ≠ c := by rcases hquote with rfl | rfl <;> decide
        obtain ⟨more, hmore⟩ := piecesFrom_unterminated (munch_unterminated_iff.mpr
          ⟨hquote, (leavesOpen_newline hne hopen).stringLength⟩) (byteSize before)
        rw [List.cons_append, hmore] at hself
        rw [parse_of_accepted hself hstate] at h
        cases h
        cases he

/--
More text can complete a rejected text that ends with a line feed and is not incomplete, if and only
if the text ends inside a block comment. Any other such text keeps its error whatever comes after.
-/
theorem exists_parse_append_iff_endsInComment {s : String} {e : CompileError}
    (hline : ∃ u, s = u ++ "\n") (h : parse s = .error e) (he : e.isIncomplete = false) :
    ((∃ t tree, parse (s ++ t) = .ok tree) ↔ EndsInComment s) ∧
      (¬ EndsInComment s → ∀ t, parse (s ++ t) = .error e) := by
  obtain ⟨u, rfl⟩ := hline
  rcases rejected_cases h he with ⟨hends, hparse⟩ | ⟨hends, hclosed⟩
  · refine ⟨⟨?_, fun h => absurd h hends⟩, fun _ => hparse⟩
    rintro ⟨t, tree, htree⟩
    rw [hparse] at htree
    cases htree
  · exact ⟨⟨fun _ => hends, fun _ => hclosed⟩, fun h => absurd hends h⟩

theorem exists_parse_append_iff_endsInComment_comma :
    ∃ e, parse "f(,)\n" = .error e ∧ e.isIncomplete = false ∧
      ∀ t, parse ("f(,)\n" ++ t) = .error e := by
  have h : (parse "f(,)\n").map (fun _ => ()) =
      .error (.unexpectedToken .argument ⟨.comma, ",", ⟨2, 3⟩⟩) := by
    decide +kernel
  have hparse := Except.map_eq_error_iff.mp h
  have hends : ¬ EndsInComment "f(,)\n" := by
    rintro ⟨before, w, hsplit, -⟩
    have hslash : '/' ∈ "f(,)\n".toList := by
      rw [hsplit]
      simp
    exact absurd hslash (by decide)
  refine ⟨_, hparse, rfl, ?_⟩
  exact (exists_parse_append_iff_endsInComment ⟨"f(,)", by decide⟩ hparse rfl).2 hends

/-- A comment that is closed on the next line makes a program of what was rejected before. -/
theorem not_forall_parse_append_eq_error :
    ¬ ∀ s : String, (∃ u, s = u ++ "\n") → ∀ e, parse s = .error e → e.isIncomplete = false →
      ∀ t, ∃ e', parse (s ++ t) = .error e' := by
  intro hall
  have hopen : (parse "/*\n").map (fun _ => ()) = .error (.strayText "/*\n" ⟨0, 3⟩) := by
    decide +kernel
  have hclosed : (parse ("/*\n" ++ "*/")).map (fun _ => ()) = .ok () := by decide +kernel
  obtain ⟨e, he⟩ := hall _ ⟨"/*", by decide⟩ _ (Except.map_eq_error_iff.mp hopen) rfl "*/"
  rw [he] at hclosed
  cases hclosed

end Fexpr
