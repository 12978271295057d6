import Fexpr.Proofs.Continuation

/-!
# Programs line by line

A program that ends with a line feed and the text after it do not meet: no token crosses the line
feed, and the parser has no open bracket and no promise there. So the text is read as it is alone,
further on, unless it begins with a parenthesis, which would belong to the last expression.
-/

namespace Fexpr

namespace Parser.State

def stack (base : List Expr) : List Expr → List (Bracket × List Expr) →
    List Expr × List (Bracket × List Expr)
  | items, [] => (items ++ base, [])
  | items, (b, before) :: outer =>
    let below := stack base before outer
    (items, (b, below.1) :: below.2)

theorem stack_cons (base : List Expr) (e : Expr) (items : List Expr)
    (brackets : List (Bracket × List Expr)) : stack base (e :: items) brackets =
      (e :: (stack base items brackets).1, (stack base items brackets).2) := by
  cases brackets <;> rfl

def above (base : List Expr) (s : State) : State where
  items := (stack base s.items s.brackets).1
  pending := s.pending
  brackets := (stack base s.items s.brackets).2

def Begun (s : State) : Prop :=
  s.items ≠ [] ∨ s.brackets ≠ [] ∨ ∃ sign, s.pending = .name sign

theorem begun_of_feed {s s' : State} {t : Token} (h : s.feed t = .ok s') : s'.Begun := by
  have hpush : ∀ (s : State) e, (s.push e).Begun := fun s e => .inl (List.cons_ne_nil _ _)
  have hbegin : ∀ {next}, s.begin t next = .ok s' → next.Begun → s'.Begun := by
    intro next h hnext
    unfold begin at h
    split at h
    · cases h
    · cases h
      exact hnext
  unfold feed at h
  split at h
  · split at h
    · cases h
      exact hpush _ _
    · cases h
  · split at h
    case h_1 | h_2 | h_3 => exact hbegin h (hpush _ _)
    case h_4 => exact hbegin h (.inr (.inr ⟨_, rfl⟩))
    case h_5 => exact hbegin h (.inr (.inl (List.cons_ne_nil _ _)))
    case h_6 =>
      unfold call at h
      split at h
      · cases h
      · cases h
      · split at h
        · cases h
          exact .inr (.inl (List.cons_ne_nil _ _))
        · cases h
    case h_7 =>
      unfold closeBrace at h
      split at h
      · cases h
        exact hpush _ _
      · cases h
    case h_8 =>
      unfold closeParen at h
      split at h
      · split at h
        · cases h
        · cases h
          exact hpush _ _
      · cases h
    case h_9 =>
      split at h
      · rename_i hphase
        cases h
        refine .inr (.inl fun hnil => ?_)
        simp [phase, show s.brackets = [] from hnil] at hphase
      · cases h
    case h_10 | h_11 => cases h

variable (base : List Expr)

theorem push_above (s : State) (e : Expr) : (s.push e).above base = (s.above base).push e := by
  simp only [above, push, stack_cons]

theorem phase_above (s : State) : (s.above base).phase = s.phase := by
  obtain ⟨items, pending, brackets⟩ := s
  cases brackets with
  | nil => rfl
  | cons b outer => obtain ⟨_ | _, before⟩ := b <;> rfl

theorem expectation_above (s : State) : (s.above base).expectation = s.expectation := by
  rw [expectation, expectation, phase_above]

theorem unexpected_above (s : State) (t : Token) :
    (s.above base).unexpected t = (s.unexpected t).map (above base) := by
  rw [unexpected, unexpected, expectation_above]
  rfl

theorem begin_above (s next : State) (t : Token) :
    (s.above base).begin t (next.above base) = (s.begin t next).map (above base) := by
  rw [begin, begin, phase_above]
  split
  · exact unexpected_above base s t
  · rfl

theorem begin_push_above (s : State) (t : Token) (e : Expr) :
    (s.above base).begin t ((s.above base).push e) = (s.begin t (s.push e)).map (above base) := by
  rw [← push_above, begin_above]

theorem call_above {s : State} (h : s.items ≠ [] ∨ s.brackets ≠ []) (t : Token) :
    (s.above base).call t = (s.call t).map (above base) := by
  have hunexpected := unexpected_above base s t
  rw [call, call, phase_above]
  cases hphase : s.phase with
  | argument => exact hunexpected
  | sequence | separator =>
    obtain ⟨items, pending, brackets⟩ := s
    cases items with
    | cons callee before =>
      simp only [above, stack_cons]
      split <;> rfl
    | nil =>
      cases brackets with
      | nil => simp at h
      | cons b outer => exact hunexpected

theorem closeBrace_above (s : State) (t : Token) :
    (s.above base).closeBrace t = (s.closeBrace t).map (above base) := by
  have hunexpected := unexpected_above base s t
  obtain ⟨items, pending, brackets⟩ := s
  rcases brackets with _ | ⟨⟨opening | callee, before⟩, outer⟩
  · exact hunexpected
  · exact congrArg Except.ok (push_above base ⟨before, .nothing, outer⟩ _).symm
  · exact hunexpected

theorem closeParen_above (s : State) (t : Token) :
    (s.above base).closeParen t = (s.closeParen t).map (above base) := by
  have hunexpected := unexpected_above base s t
  obtain ⟨items, pending, brackets⟩ := s
  rcases brackets with _ | ⟨⟨opening | callee, before⟩, outer⟩
  · exact hunexpected
  · exact hunexpected
  · have hclose := (push_above base ⟨before, .nothing, outer⟩
      (.invocation (callee.span.merge t.span) callee items.reverse)).symm
    cases pending with
    | nothing => exact congrArg Except.ok hclose
    | argument => exact hunexpected
    | name sign => exact congrArg Except.ok hclose

/-- A step does not look below, except that a parenthesis at the very beginning would. -/
theorem feed_above {s : State} {t : Token} (h : t.kind = .leftParen → s.Begun) :
    (s.above base).feed t = (s.feed t).map (above base) := by
  have hunexpected := unexpected_above base s t
  obtain ⟨items, pending, brackets⟩ := s
  obtain ⟨kind, text, span⟩ := t
  cases pending with
  | name sign =>
    cases kind with
    | ident => exact congrArg Except.ok (push_above base ⟨items, .name sign, brackets⟩ _).symm
    | _ => rfl
  | nothing | argument =>
    cases kind with
    | number | string | ident => exact begin_push_above base _ _ _
    | atSign => exact begin_above base _ ⟨items, .name span, brackets⟩ _
    | leftBrace => exact begin_above base _ (openBrace _ span) _
    | leftParen =>
      refine call_above base ?_ _
      obtain hitems | hbrackets | ⟨sign, hsign⟩ := h rfl
      · exact .inl hitems
      · exact .inr hbrackets
      · cases hsign
    | rightBrace => exact closeBrace_above base _ _
    | rightParen => exact closeParen_above base _ _
    | comma =>
      change ite _ _ _ = Except.map _ (ite _ _ _)
      rw [phase_above]
      split
      · rfl
      · exact hunexpected
    | unterminated | endOfInput => exact hunexpected

theorem foldlM_feed_above {ts : List Token} {s : State}
    (h : ∀ t ∈ ts.head?, t.kind = .leftParen → s.Begun) :
    ts.foldlM feed (s.above base) = (ts.foldlM feed s).map (above base) := by
  induction ts generalizing s with
  | nil => rfl
  | cons t ts ih =>
    rw [List.foldlM_cons, List.foldlM_cons, feed_above base (h t rfl)]
    cases hfeed : s.feed t with
    | ok s' => exact ih fun _ _ _ => begun_of_feed hfeed
    | error e => rfl

theorem finish_above (s : State) :
    (s.above base).finish = s.finish.map (base.reverse ++ ·) := by
  have hexpectation := expectation_above base s
  obtain ⟨items, pending, brackets⟩ := s
  rcases brackets with _ | ⟨⟨opening | callee, before⟩, outer⟩
  · cases pending with
    | name sign => rfl
    | nothing | argument => exact congrArg Except.ok List.reverse_append
  · cases pending <;> rfl
  · cases pending with
    | name sign => rfl
    | nothing | argument => exact congrArg Except.error hexpectation

end Parser.State

namespace Lexeme

theorem isError_newline {c : Char} {cs : List Char} (h : IsError (munch c cs).1) :
    IsError (munch c (cs ++ ['\n'])).1 := by
  obtain hstray | hopen := h
  · exact .inl (munch_stray_newline hstray)
  · obtain ⟨hquote, hopen⟩ := munch_unterminated_iff.mp hopen
    have hne : '\n' ≠ c := by rcases hquote with rfl | rfl <;> decide
    exact .inr (munch_unterminated_iff.mpr ⟨hquote, (leavesOpen_newline hne hopen).stringLength⟩)

theorem piecesFrom_of_isError {c : Char} {cs : List Char} (h : IsError (munch c cs).1)
    (offset : Nat) : ∃ e more, piecesFrom offset (c :: cs) = .error e :: more := by
  obtain hstray | hopen := h
  · obtain ⟨found, p, more, hmore⟩ := piecesFrom_stray hstray offset
    exact ⟨_, more, hmore⟩
  · obtain ⟨more, hmore⟩ := piecesFrom_unterminated hopen offset
    exact ⟨_, more, hmore⟩

theorem piecesFrom_shift (n : Nat) (cs : List Char) :
    piecesFrom n cs = (piecesFrom 0 cs).map (mapPlaces (· + n) (·.shift n)) := by
  rw [piecesFrom, ← Nat.zero_add n, lexemesFrom_add, filterMap_shift, Nat.zero_add]
  rfl

end Lexeme

theorem Scan.ofPieces_shift (n : Nat) (ps : List (Except CompileError Token)) :
    Scan.ofPieces (ps.map (mapPlaces (· + n) (·.shift n))) =
      ⟨(Scan.ofPieces ps).tokens.map (·.shift n),
        (Scan.ofPieces ps).error?.map (·.mapOffsets (· + n))⟩ := by
  induction ps with
  | nil => rfl
  | cons p ps ih =>
    cases p with
    | error e => rfl
    | ok t =>
      rw [List.map_cons, mapPlaces, Scan.ofPieces, ih]
      rfl

open Lexeme in
theorem pieces_append_of_line {s : String} (hline : ∃ u, s = u ++ "\n")
    (hs : (scan s).error? = none) (t : String) :
    pieces (s ++ t) = (scan s).tokens.map .ok ++
      (pieces t).map (mapPlaces (· + s.utf8ByteSize) (·.shift s.utf8ByteSize)) := by
  obtain ⟨u, rfl⟩ := hline
  obtain ⟨before, rest, ts, hsplit, hpieces, hrest⟩ := exists_tokens_append u
  have hself : pieces (u ++ "\n") =
      ts.map .ok ++ piecesFrom (Text.byteSize before) (rest ++ ['\n']) := by
    simpa using hpieces ""
  cases rest with
  | nil =>
    rw [List.append_nil] at hsplit
    have htokens : (scan (u ++ "\n")).tokens = ts := by
      rw [scan, hself, List.nil_append, piecesFrom_space _ rfl, piecesFrom_nil, List.append_nil,
        Scan.ofPieces_map_ok]
    have hsize : Text.byteSize before + ('\n').utf8Size = (u ++ "\n").utf8ByteSize := by
      rw [← String.ofList_toList (s := u ++ "\n"), Text.utf8ByteSize_ofList, String.toList_append,
        Text.byteSize_append, hsplit]
      rfl
    rw [htokens, hpieces, List.nil_append, piecesFrom_space _ rfl, hsize, piecesFrom_shift]
    rfl
  | cons c v =>
    obtain ⟨e, more, hmore⟩ :=
      piecesFrom_of_isError (isError_newline (hrest c v rfl)) (Text.byteSize before)
    rw [List.cons_append, hmore] at hself
    rw [scan_of_pieces_error hself] at hs
    cases hs

theorem scan_append_of_line {s : String} (hline : ∃ u, s = u ++ "\n")
    (hs : (scan s).error? = none) (t : String) :
    scan (s ++ t) = ⟨(scan s).tokens ++ (scan t).tokens.map (·.shift s.utf8ByteSize),
      (scan t).error?.map (·.mapOffsets (· + s.utf8ByteSize))⟩ := by
  rw [scan, pieces_append_of_line hline hs, Scan.ofPieces_append, Scan.ofPieces_shift]
  rfl

theorem CompileError.diagnostic_shift (n : Nat) (e : CompileError) :
    (e.mapOffsets (· + n)).diagnostic = { e.diagnostic with
      labels := e.diagnostic.labels.map fun l => { l with offset := l.offset + n } } := by
  have hlabel : ∀ (p : Span) words, (p.mapOffsets (· + n)).label words =
      { p.label words with offset := p.start + n } := by
    intro p words
    simp only [Span.label, Span.mapOffsets, Span.size, Nat.add_sub_add_right]
  have hmk : ∀ message code help (p : Span) words,
      Diagnostic.mk message code help [(p.mapOffsets (· + n)).label words] =
        ⟨message, code, help, [{ p.label words with offset := p.start + n }]⟩ := by
    intro message code help p words
    rw [hlabel]
  cases e with
  | unterminatedString start => rfl
  | strayText found p => exact hmk _ _ _ p _
  | unexpectedToken expected found => exact hmk _ _ _ found.span _
  | unexpectedEnd expected offset => exact hmk _ _ _ (Span.point offset) _
  | invalidCallee p => exact hmk _ _ _ p _

open Grammar Parser.State in
theorem foldlM_append_of_line {s t : String} {ds : List Derivation} {es : List Expr}
    (hline : ∃ u, s = u ++ "\n") (hs : (scan s).error? = none)
    (hes : SpellsSequence ds (scan s).tokens es)
    (hfirst : ∀ x ∈ (scan t).tokens.head?, x.kind ≠ .leftParen) :
    (scan (s ++ t)).tokens.foldlM feed start =
      (mapPlaces (· + s.utf8ByteSize) (mapOffsets (· + s.utf8ByteSize))
        ((scan t).tokens.foldlM feed start)).map (above es.reverse) := by
  have hmono : Monotone (· + s.utf8ByteSize) := fun a b hab => Nat.add_le_add_right hab _
  have hseam : ∀ x ∈ ((scan t).tokens.map (·.shift s.utf8ByteSize)).head?,
      x.kind = .leftParen → start.Begun := by
    intro x hx hparen
    rw [List.head?_map] at hx
    obtain ⟨y, hy, rfl⟩ := Option.map_eq_some_iff.mp hx
    exact absurd hparen (hfirst y hy)
  calc (scan (s ++ t)).tokens.foldlM feed start
      = ((scan t).tokens.map (·.shift s.utf8ByteSize)).foldlM feed (above es.reverse start) := by
        rw [scan_append_of_line hline hs, foldlM_feed_append (foldlM_feed_start hes)]
        rfl
    _ = (((scan t).tokens.map (·.shift s.utf8ByteSize)).foldlM feed start).map
          (above es.reverse) := foldlM_feed_above _ hseam
    _ = _ := congrArg (Except.map _) (foldlM_feed_mapOffsets hmono start (scan t).tokens)

open Grammar Parser.State in
/--
After a program that ends with a line feed, a text that does not begin with a parenthesis is read as
it is alone: a tree gives its expressions, moved, behind those of the program, and an error is the
same error with its label moved.
-/
theorem parse_append_of_line {s : String} {root : Expr} (hline : ∃ u, s = u ++ "\n")
    (hs : parse s = .ok root) : ∃ es, root = .block ⟨0, s.utf8ByteSize⟩ es ∧
      ∀ t : String, (∀ x ∈ (scan t).tokens.head?, x.kind ≠ .leftParen) →
        (∀ root', parse t = .ok root' → ∃ es', root' = .block ⟨0, t.utf8ByteSize⟩ es' ∧
          parse (s ++ t) = .ok (.block ⟨0, (s ++ t).utf8ByteSize⟩
            (es ++ Expr.shiftAll s.utf8ByteSize es'))) ∧
        ∀ e, parse t = .error e → parse (s ++ t) = .error (e.mapOffsets (· + s.utf8ByteSize)) ∧
          (e.mapOffsets (· + s.utf8ByteSize)).diagnostic = { e.diagnostic with
            labels := e.diagnostic.labels.map fun label =>
              { label with offset := label.offset + s.utf8ByteSize } } := by
  obtain ⟨ds, es, hclean, hes, rfl⟩ := spells_of_parse hs
  refine ⟨es, rfl, fun t hfirst => ⟨fun root' ht => ?_, fun e ht => ⟨?_, e.diagnostic_shift _⟩⟩⟩
  · obtain ⟨ds', es', hclean', hes', rfl⟩ := spells_of_parse ht
    have hscan := scan_append_of_line hline hclean t
    rw [hclean'] at hscan
    have hspells : SpellsSequence (ds ++ ds') (scan (s ++ t)).tokens
        (es ++ Expr.shiftAll s.utf8ByteSize es') := by
      rw [hscan]
      exact hes.append (hes'.shift _)
    exact ⟨es', rfl, parse_of_spells (by rw [hscan]; rfl) hspells⟩
  · have hfold := foldlM_append_of_line hline hclean hes hfirst
    have hscan := scan_append_of_line hline hclean t
    rw [parse_eq_error_iff]
    obtain hrefused | ⟨state, hstate, herror | ⟨herror, expected, hfinish, rfl⟩⟩ :=
      parse_eq_error_iff.mp ht
    · left
      rw [hfold, hrefused]
      rfl
    · rw [hstate] at hfold
      refine .inr ⟨_, hfold, .inl ?_⟩
      rw [hscan, herror]
      rfl
    · rw [hstate] at hfold
      refine .inr ⟨_, hfold, .inr ⟨?_, expected, ?_, ?_⟩⟩
      · rw [hscan, herror]
        rfl
      · rw [finish_above, finish_mapOffsets, hfinish]
        rfl
      · rw [CompileError.mapOffsets, String.utf8ByteSize_append, Nat.add_comm]

theorem parse_append_of_line_comma :
    parse ("f\n" ++ "g(,)") = .error (.unexpectedToken .argument ⟨.comma, ",", ⟨4, 5⟩⟩) := by
  have hfirst : ∀ x ∈ (scan "g(,)").tokens.head?, x.kind ≠ .leftParen := by decide +kernel
  have hline : (parse "f\n").map (fun _ => ()) = .ok () := by decide +kernel
  have herror : (parse "g(,)").map (fun _ => ()) =
      .error (.unexpectedToken .argument ⟨.comma, ",", ⟨2, 3⟩⟩) := by decide +kernel
  obtain ⟨root, hs, -⟩ := Except.map_eq_ok_iff.mp hline
  obtain ⟨es, -, happend⟩ := parse_append_of_line ⟨"f", by decide⟩ hs
  exact ((happend _ hfirst).2 _ (Except.map_eq_error_iff.mp herror)).1

end Fexpr
