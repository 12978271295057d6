import Fexpr.Proofs.Offsets
import Fexpr.Proofs.Parsing

/-!
# Texts with a line feed between them

A line feed belongs to no token but a string, so a text without lexical errors scans as before when
a line feed and more text come after it, and what comes after scans as it does alone, further on.
-/

namespace Fexpr

namespace Text

theorem run_le (p : Char → Bool) (cs : List Char) : run p cs ≤ cs.length :=
  (List.takeWhile_prefix p).length_le

theorem run_append {p : Char → Bool} (cs : List Char) {x : Char} (rest : List Char)
    (hx : p x = false) : run p (cs ++ x :: rest) = run p cs := by
  induction cs with
  | nil => simp [run, hx]
  | cons c cs ih =>
    cases hc : p c with
    | false => simp [run, hc]
    | true =>
      simp only [run, List.cons_append, List.takeWhile_cons, hc, if_true, List.length_cons,
        Nat.add_right_cancel_iff]
      exact ih

end Text

def Token.shift (t : Token) (n : Nat) : Token := { t with span := t.span.shift n }

namespace Lexeme

open Text

theorem fractionLength_le (cs : List Char) : fractionLength cs ≤ cs.length := by
  fun_cases fractionLength cs with
  | case1 => simp
  | case2 cs h =>
    have := run_le Char.isDigit cs
    simp only [List.length_cons]
    omega
  | case3 => simp

theorem signLength_le (cs : List Char) : signLength cs ≤ cs.length := by
  fun_cases signLength cs with
  | case1 => simp
  | case2 => simp
  | case3 => simp

theorem exponentLength_le (cs : List Char) : exponentLength cs ≤ cs.length := by
  cases cs with
  | nil => simp [exponentLength]
  | cons c cs =>
    have hrun := run_le Char.isDigit (cs.drop (signLength cs))
    have hsign := signLength_le cs
    rw [List.length_drop] at hrun
    rw [exponentLength, List.length_cons]
    split
    · simp only
      split <;> omega
    · omega

theorem numberLength_le (cs : List Char) : numberLength cs ≤ cs.length := by
  have hwhole := run_le Char.isDigit cs
  have hfraction := fractionLength_le (cs.drop (run Char.isDigit cs))
  have hexponent := exponentLength_le
    (cs.drop (run Char.isDigit cs + fractionLength (cs.drop (run Char.isDigit cs))))
  rw [List.length_drop] at hfraction hexponent
  rw [numberLength]
  omega

theorem stringLength_le (quote : Char) (cs : List Char) :
    (stringLength quote cs).2 ≤ cs.length := by
  fun_induction stringLength quote cs with
  | case1 => simp
  | case2 => simp
  | case3 => simp
  | case4 c cs _ closed n h ih =>
    rw [h] at ih
    simp only [List.length_cons] at ih ⊢
    omega
  | case5 => simp
  | case6 c cs _ _ _ closed n h ih =>
    rw [h] at ih
    simp only [List.length_cons] at ih ⊢
    omega

theorem commentLength?_le {cs : List Char} {n : Nat} (h : commentLength? cs = some n) :
    n ≤ cs.length := by
  fun_induction commentLength? cs generalizing n with
  | case1 => cases h; simp
  | case2 c cs _ ih =>
    obtain ⟨m, hm, rfl⟩ := Option.map_eq_some_iff.mp h
    have := ih hm
    simp only [List.length_cons]
    omega
  | case3 => cases h

theorem munch_le (c : Char) (cs : List Char) : (munch c cs).2 ≤ cs.length := by
  unfold munch
  split
  · exact run_le _ _
  split
  · exact run_le _ _
  split
  · exact numberLength_le cs
  split
  · cases cs with
    | nil => exact Nat.le_refl 0
    | cons d ds =>
      have hnumber := numberLength_le ds
      simp only [List.length_cons]
      split
      · simp only
        omega
      · exact Nat.zero_le _
  split
  · have hstring := stringLength_le c cs
    split <;> simp_all
  split
  · split
    · rename_i rest
      have hrun := run_le (· != '\n') rest
      simp only [List.length_cons]
      omega
    · rename_i rest
      split
      · rename_i n hn
        have hcomment := commentLength?_le hn
        simp only [List.length_cons]
        omega
      · exact Nat.le_refl _
    · exact Nat.zero_le _
  · split <;> exact Nat.zero_le _

def EndsNumber (x : Char) : Prop := x.isDigit = false ∧ x ∉ ['.', 'e', 'E', '+', '-']

section

variable {x : Char} (hx : EndsNumber x) (ds : List Char)

include hx

theorem fractionLength_append (cs : List Char) :
    fractionLength (cs ++ x :: ds) = fractionLength cs := by
  fun_cases fractionLength cs with
  | case1 cs h => simp [fractionLength, run_append cs ds hx.1, h]
  | case2 cs h => simp [fractionLength, run_append cs ds hx.1, h]
  | case3 cs h =>
    cases cs with
    | nil =>
      rw [List.nil_append, fractionLength]
      intro cs' heq
      exact hx.2 (by simp [(List.cons.inj heq).1])
    | cons c cs =>
      rw [List.cons_append, fractionLength]
      rintro cs' ⟨rfl, rfl⟩
      exact h _ rfl

theorem signLength_append (cs : List Char) : signLength (cs ++ x :: ds) = signLength cs := by
  cases cs with
  | nil =>
    rw [List.nil_append, signLength, if_neg]
    · rfl
    · rintro (rfl | rfl) <;> exact hx.2 (by simp)
  | cons c cs => rfl

theorem exponentLength_append (cs : List Char) :
    exponentLength (cs ++ x :: ds) = exponentLength cs := by
  cases cs with
  | nil =>
    rw [List.nil_append, exponentLength, if_neg]
    · rfl
    · rintro (rfl | rfl) <;> exact hx.2 (by simp)
  | cons c cs =>
    rw [List.cons_append, exponentLength, exponentLength, signLength_append hx,
      List.drop_append_of_le_length (signLength_le cs), run_append _ _ hx.1]

theorem numberLength_append (cs : List Char) :
    numberLength (cs ++ x :: ds) = numberLength cs := by
  have hwhole := run_le Char.isDigit cs
  have hfraction := fractionLength_le (cs.drop (run Char.isDigit cs))
  rw [List.length_drop] at hfraction
  rw [numberLength, numberLength, run_append _ _ hx.1, List.drop_append_of_le_length hwhole,
    fractionLength_append hx, List.drop_append_of_le_length (by omega), exponentLength_append hx]

end

variable (ds : List Char)

theorem stringLength_cons {quote c : Char} (hc : c ≠ '\\') (cs : List Char) :
    stringLength quote (c :: cs) =
      if c = quote then (true, 1)
      else ((stringLength quote cs).1, (stringLength quote cs).2 + 1) := by
  rw [stringLength]
  · rintro rfl
    exact absurd rfl hc
  · rintro c' cs' rfl
    exact absurd rfl hc

/-- What is not an escape in a string, whether cut off or not, does not begin with a backslash. -/
theorem ne_backslash {c : Char} {cs : List Char} (h₁ : c = '\\' → cs = [] → False)
    (h₂ : ∀ d ds, c = '\\' → cs = d :: ds → False) : c ≠ '\\' := by
  intro hc
  cases cs with
  | nil => exact h₁ hc rfl
  | cons d ds => exact h₂ d ds hc rfl

theorem stringLength_append {quote : Char} {cs : List Char} {n : Nat}
    (h : stringLength quote cs = (true, n)) : stringLength quote (cs ++ ds) = (true, n) := by
  fun_induction stringLength quote cs generalizing n with
  | case1 | case2 | case3 => cases h
  | case4 c cs hc closed m hm ih =>
    cases h
    simp only [List.cons_append, stringLength, hc, if_false, ih hm]
  | case5 cs h₁ h₂ =>
    rw [List.cons_append, stringLength_cons (ne_backslash h₁ h₂), if_pos rfl]
    exact h
  | case6 c cs h₁ h₂ hc closed m hm ih =>
    cases h
    rw [List.cons_append, stringLength_cons (ne_backslash h₁ h₂), if_neg hc, ih hm]

theorem commentLength?_append {cs : List Char} {n : Nat} (h : commentLength? cs = some n) :
    commentLength? (cs ++ ds) = some n := by
  fun_induction commentLength? cs generalizing n with
  | case1 => cases h; rfl
  | case2 c cs hne ih =>
    obtain ⟨m, hm, rfl⟩ := Option.map_eq_some_iff.mp h
    rw [List.cons_append, commentLength?, ih hm]
    · rfl
    · rintro cs' rfl heq
      cases cs with
      | nil => cases hm
      | cons d cs =>
        obtain ⟨rfl, -⟩ := List.cons.inj heq
        exact hne cs rfl rfl
  | case3 => cases h

/-- A line feed after a token or a comment does not belong to it. -/
theorem munch_append {c : Char} {cs : List Char} (hspace : isSpace c = false)
    (hstray : (munch c cs).1 ≠ .stray) (hclosed : (munch c cs).1 ≠ .token .unterminated) :
    munch c (cs ++ '\n' :: ds) = munch c cs := by
  have hnumber : EndsNumber '\n' := ⟨rfl, by decide⟩
  unfold munch at hstray hclosed ⊢
  rw [hspace] at hstray hclosed ⊢
  simp only [Bool.false_eq_true, if_false] at hstray hclosed ⊢
  by_cases hname : isNameStart c = true
  · simp only [if_pos hname, run_append _ _ (show isNamePart '\n' = false from rfl)]
  simp only [if_neg hname] at hstray hclosed ⊢
  by_cases hdigit : c.isDigit = true
  · simp only [if_pos hdigit, numberLength_append hnumber]
  simp only [if_neg hdigit] at hstray hclosed ⊢
  by_cases hminus : c = '-'
  · simp only [if_pos hminus] at hstray ⊢
    cases cs with
    | nil => exact absurd rfl hstray
    | cons d cs => simp only [List.cons_append, numberLength_append hnumber]
  simp only [if_neg hminus] at hstray hclosed ⊢
  by_cases hquote : c = '"' ∨ c = '\''
  · simp only [if_pos hquote] at hclosed ⊢
    cases hs : stringLength c cs with
    | mk closed n =>
      cases closed with
      | true => rw [stringLength_append _ hs]
      | false => simp [hs] at hclosed
  simp only [if_neg hquote] at hstray ⊢
  by_cases hslash : c = '/'
  · simp only [if_pos hslash] at hstray ⊢
    split at hstray
    · simp only [List.cons_append]
      rw [run_append _ _ rfl]
    · rename_i rest
      cases hcomment : commentLength? rest with
      | none => simp [hcomment] at hstray
      | some n => simp only [List.cons_append, commentLength?_append _ hcomment]
    · exact absurd rfl hstray
  · simp only [if_neg hslash]

theorem lexemesFrom_cons (offset : Nat) (c : Char) (cs : List Char) :
    lexemesFrom offset (c :: cs) =
      ⟨(munch c cs).1, c :: cs.take (munch c cs).2, offset⟩ ::
        lexemesFrom (offset + byteSize (c :: cs.take (munch c cs).2)) (cs.drop (munch c cs).2) := by
  rw [lexemesFrom]

def shift (l : Lexeme) (n : Nat) : Lexeme := { l with start := l.start + n }

theorem lexemesFrom_add (offset n : Nat) (cs : List Char) :
    lexemesFrom (offset + n) cs = (lexemesFrom offset cs).map (·.shift n) := by
  fun_induction lexemesFrom offset cs with
  | case1 => rw [lexemesFrom]; rfl
  | case2 offset c cs cls m hm text ih =>
    rw [lexemesFrom_cons, hm, List.map_cons, ← ih, Nat.add_right_comm]
    rfl

def piecesFrom (offset : Nat) (cs : List Char) : List (Except CompileError Token) :=
  (lexemesFrom offset cs).filterMap piece?

theorem piecesFrom_nil (offset : Nat) : piecesFrom offset [] = [] := by
  rw [piecesFrom, lexemesFrom, List.filterMap_nil]

theorem munch_space {c : Char} (hc : isSpace c = true) (cs : List Char) :
    munch c cs = (.blank, run isSpace cs) := by
  unfold munch
  rw [if_pos hc]

theorem piecesFrom_space (offset : Nat) {c : Char} (hc : isSpace c = true) (cs : List Char) :
    piecesFrom offset (c :: cs) = piecesFrom (offset + c.utf8Size) cs := by
  have hblank : ∀ offset c cs, isSpace c = true → piecesFrom offset (c :: cs) =
      piecesFrom (offset + c.utf8Size + byteSize (cs.takeWhile isSpace))
        (cs.dropWhile isSpace) := by
    intro offset c cs hc
    rw [piecesFrom, lexemesFrom_cons, munch_space hc, take_run, drop_run, byteSize, piecesFrom,
      Nat.add_assoc]
    rfl
  rw [hblank _ _ _ hc]
  cases cs with
  | nil => rfl
  | cons d cs =>
    cases hd : isSpace d with
    | false => simp [hd, byteSize]
    | true =>
      rw [hblank _ _ _ hd, List.takeWhile_cons_of_pos hd, List.dropWhile_cons_of_pos hd, byteSize,
        ← Nat.add_assoc]

theorem piecesFrom_cons (offset : Nat) (c : Char) (cs : List Char) :
    piecesFrom offset (c :: cs) =
      (piece? ⟨(munch c cs).1, c :: cs.take (munch c cs).2, offset⟩).toList ++
        piecesFrom (offset + byteSize (c :: cs.take (munch c cs).2)) (cs.drop (munch c cs).2) := by
  rw [piecesFrom, lexemesFrom_cons, List.filterMap_cons]
  cases piece? _ <;> rfl

theorem not_error_of_piece {l : Lexeme} (h : ∀ p ∈ l.piece?, ∃ t, p = .ok t) :
    l.cls ≠ .stray ∧ l.cls ≠ .token .unterminated := by
  constructor <;> intro hcls <;> simp [piece?, hcls] at h

theorem piecesFrom_append (offset : Nat) (cs : List Char)
    (h : ∀ p ∈ piecesFrom offset cs, ∃ t, p = .ok t) :
    piecesFrom offset (cs ++ '\n' :: ds) =
      piecesFrom offset cs ++ piecesFrom (offset + byteSize cs + 1) ds := by
  match cs with
  | [] =>
    rw [List.nil_append, piecesFrom_space offset rfl, piecesFrom_nil]
    rfl
  | c :: cs =>
    cases hspace : isSpace c with
    | true =>
      -- one character at a time: white space at the end goes on into the line feed
      rw [piecesFrom_space offset hspace] at h ⊢
      rw [List.cons_append, piecesFrom_space offset hspace, piecesFrom_append _ cs h, byteSize,
        Nat.add_assoc offset]
    | false =>
      have hle := munch_le c cs
      rw [piecesFrom_cons] at h ⊢
      obtain ⟨hstray, hclosed⟩ := not_error_of_piece fun p hp =>
        h p (List.mem_append_left _ (Option.mem_toList.mpr hp))
      have hrest := piecesFrom_append _ (cs.drop (munch c cs).2)
        fun p hp => h p (List.mem_append_right _ hp)
      have hsize : byteSize (c :: cs) =
          byteSize (c :: cs.take (munch c cs).2) + byteSize (cs.drop (munch c cs).2) := by
        rw [← byteSize_append, List.cons_append, List.take_append_drop]
      rw [List.cons_append, piecesFrom_cons, munch_append ds hspace hstray hclosed,
        List.take_append_of_le_length hle, List.drop_append_of_le_length hle, hrest, hsize,
        List.append_assoc, Nat.add_assoc offset]
termination_by cs.length
decreasing_by
  · simp only [List.length_drop, List.length_cons]
    omega
  · simp

theorem span_shift (l : Lexeme) (n : Nat) : (l.shift n).span = l.span.shift n := by
  simp only [span, shift, Span.shift, Nat.add_right_comm]

theorem piece?_shift (n : Nat) (l : Lexeme) :
    (l.shift n).piece? = l.piece?.map (mapPlaces (· + n) (·.shift n)) := by
  have hcls : (l.shift n).cls = l.cls := rfl
  have htext : (l.shift n).text = l.text := rfl
  rw [piece?, hcls, htext, span_shift]
  unfold piece?
  cases l.cls with
  | blank | stray => rfl
  | token kind => cases kind <;> rfl

theorem filterMap_shift (n : Nat) (ls : List Lexeme) :
    (ls.map (·.shift n)).filterMap piece? =
      (ls.filterMap piece?).map (mapPlaces (· + n) (·.shift n)) := by
  rw [List.filterMap_map, List.map_filterMap]
  congr 1
  funext l
  exact piece?_shift n l

theorem filterMap_shift_of_ok {ls : List Lexeme} {ts : List Token}
    (h : ls.filterMap piece? = ts.map .ok) (n : Nat) :
    (ls.map (·.shift n)).filterMap piece? = (ts.map (·.shift n)).map .ok := by
  rw [filterMap_shift, h, List.map_map, List.map_map]
  rfl

end Lexeme

theorem Scan.eq_map_ok {ps : List (Except CompileError Token)}
    (h : (Scan.ofPieces ps).error? = none) : ps = (Scan.ofPieces ps).tokens.map .ok := by
  induction ps with
  | nil => rfl
  | cons p ps ih =>
    cases p with
    | error e => cases h
    | ok t => exact congrArg (.ok t :: ·) (ih h)

theorem Scan.ofPieces_map_ok (ts : List Token) : Scan.ofPieces (ts.map .ok) = ⟨ts, none⟩ := by
  induction ts with
  | nil => rfl
  | cons t ts ih => rw [List.map_cons, Scan.ofPieces, ih]

theorem scan_append {s t : String} (hs : (scan s).error? = none) (ht : (scan t).error? = none) :
    scan (s ++ "\n" ++ t) =
      ⟨(scan s).tokens ++ (scan t).tokens.map (·.shift (Text.byteSize s.toList + 1)), none⟩ := by
  have hps : pieces s = (scan s).tokens.map .ok := Scan.eq_map_ok hs
  have hpt : pieces t = (scan t).tokens.map .ok := Scan.eq_map_ok ht
  have hclean : ∀ p ∈ Lexeme.piecesFrom 0 s.toList, ∃ t, p = .ok t := by
    intro p hp
    change p ∈ pieces s at hp
    rw [hps] at hp
    obtain ⟨t, -, rfl⟩ := List.mem_map.mp hp
    exact ⟨t, rfl⟩
  have hmoved : Lexeme.piecesFrom (0 + Text.byteSize s.toList + 1) t.toList =
      ((scan t).tokens.map (·.shift (Text.byteSize s.toList + 1))).map .ok := by
    rw [Nat.add_assoc, Lexeme.piecesFrom, Lexeme.lexemesFrom_add]
    exact Lexeme.filterMap_shift_of_ok hpt _
  have hpieces : pieces (s ++ "\n" ++ t) = ((scan s).tokens ++
      (scan t).tokens.map (·.shift (Text.byteSize s.toList + 1))).map .ok := by
    rw [List.map_append, ← hmoved, ← hps, pieces, String.toList_append,
      String.toList_append, List.append_assoc]
    exact Lexeme.piecesFrom_append t.toList 0 s.toList hclean
  rw [scan, hpieces, Scan.ofPieces_map_ok]

theorem Span.merge_shift (a b : Span) (n : Nat) :
    (a.shift n).merge (b.shift n) = (a.merge b).shift n :=
  merge_mapOffsets (fun _ _ h => Nat.add_le_add_right h n) a b

namespace Expr

def shift (n : Nat) (e : Expr) : Expr := e.mapOffsets (· + n)

def shiftAll (n : Nat) (es : List Expr) : List Expr := mapOffsetsAll (· + n) es

theorem span_shift (n : Nat) (e : Expr) : (e.shift n).span = e.span.shift n :=
  span_mapOffsets (· + n) e

theorem shift_reference (n : Nat) (p : Span) (name : String) :
    (reference p name).shift n = .reference (p.shift n) name :=
  rfl

theorem shift_invocation (n : Nat) (p : Span) (e : Expr) (args : List Expr) :
    (invocation p e args).shift n = .invocation (p.shift n) (e.shift n) (shiftAll n args) :=
  rfl

theorem shift_block (n : Nat) (p : Span) (items : List Expr) :
    (block p items).shift n = .block (p.shift n) (shiftAll n items) :=
  rfl

end Expr

namespace Grammar

variable (n : Nat)

theorem Head.Spells.shift {form : Head} {ts : List Token} {e : Expr} (h : form.Spells ts e) :
    form.Spells (ts.map (·.shift n)) (e.shift n) := by
  cases h with
  | name ht => exact .name ht
  | reference hs ht =>
    rw [Expr.shift_reference, ← Span.merge_shift]
    exact .reference hs ht

mutual

theorem Spells.shift {d : Derivation} {ts : List Token} {e : Expr} (h : Spells d ts e) :
    Spells d (ts.map (·.shift n)) (e.shift n) := by
  cases h with
  | number ht hn => exact .number ht hn
  | string ht => exact .string ht
  | head h => exact .head (h.shift n)
  | call hc ho ha hl =>
    rw [Expr.shift_invocation, ← Span.merge_shift, ← Expr.span_shift, List.map_append,
      List.map_cons, List.map_append]
    exact .call (hc.shift n) ho ha.shift hl
  | block ho hi hl =>
    rw [Expr.shift_block, ← Span.merge_shift, List.map_cons, List.map_append]
    exact .block ho hi.shift hl

theorem SpellsSequence.shift {ds : List Derivation} {ts : List Token} {es : List Expr}
    (h : SpellsSequence ds ts es) :
    SpellsSequence ds (ts.map (·.shift n)) (Expr.shiftAll n es) := by
  cases h with
  | nil => exact .nil
  | cons h hs =>
    rw [List.map_append]
    exact .cons h.shift hs.shift

theorem SpellsArguments.shift {ds : List Derivation} {ts : List Token} {es : List Expr}
    (h : SpellsArguments ds ts es) :
    SpellsArguments ds (ts.map (·.shift n)) (Expr.shiftAll n es) := by
  cases h with
  | nil => exact .nil
  | cons h hs =>
    rw [List.map_append]
    exact .cons h.shift hs.shift

theorem SpellsFurther.shift {ds : List Derivation} {ts : List Token} {es : List Expr}
    (h : SpellsFurther ds ts es) :
    SpellsFurther ds (ts.map (·.shift n)) (Expr.shiftAll n es) := by
  cases h with
  | nil => exact .nil
  | cons hc h hs =>
    rw [List.map_cons, List.map_append]
    exact .cons hc h.shift hs.shift

end

end Grammar

open Grammar in
/-- Two texts with a line feed between them have the expressions of the one and then those of the
other, moved. -/
theorem parse_append {s t : String} {p q : Span} {es es' : List Expr}
    (hs : parse s = .ok (.block p es)) (ht : parse t = .ok (.block q es')) :
    parse (s ++ "\n" ++ t) = .ok (.block ⟨0, (s ++ "\n" ++ t).utf8ByteSize⟩
      (es ++ Expr.shiftAll (Text.byteSize s.toList + 1) es')) := by
  obtain ⟨ds, _, herror, hes, heq⟩ := spells_of_parse hs
  obtain ⟨ds', _, herror', hes', heq'⟩ := spells_of_parse ht
  cases heq
  cases heq'
  have hscan := scan_append herror herror'
  have hspells : SpellsSequence (ds ++ ds') (scan (s ++ "\n" ++ t)).tokens
      (es ++ Expr.shiftAll (Text.byteSize s.toList + 1) es') := by
    rw [hscan]
    exact hes.append (hes'.shift _)
  exact parse_of_spells (by rw [hscan]) hspells

end Fexpr
