import Fexpr.Proofs.Coverage
import Fexpr.Proofs.EarliestError

/-!
# The text under a label

An error of the parser has one label. The label covers a stray text, a quote, a token, nothing at
the end, or an expression in front of a parenthesis, and that text is what the error speaks of.
-/

namespace Fexpr

open Grammar

inductive CompileError.Describes (before under after : String) : CompileError → Prop
  | stray {p : Span} (hmessage : (strayText under p).diagnostic.message =
      "Unexpected character `" ++ under ++ "`") :
    Describes before under after (.strayText under p)
  | unterminated {start : Nat} (hquote : under = "\"" ∨ under = "'") :
    Describes before under after (.unterminatedString start)
  | token {expected : Expectation} {t : Token} (ht : t ∈ (scan (before ++ under ++ after)).tokens)
    (hkind : t.kind ≠ .endOfInput) (htext : t.text = under)
    (hspan : t.span = ⟨before.utf8ByteSize, (before ++ under).utf8ByteSize⟩)
    (hmessage : (unexpectedToken expected t).diagnostic.message =
      "Unexpected token: expected " ++ expected.text ++ ", found `" ++ under ++ "`") :
    Describes before under after (.unexpectedToken expected t)
  | stop {expected : Expectation} {offset : Nat} (hunder : under = "") (hafter : after = "") :
    Describes before under after (.unexpectedEnd expected offset)
  | callee {p : Span} {c : Expr} {us vs : List Token} {t : Token}
    (hparse : parse under = .ok (.block ⟨0, under.utf8ByteSize⟩ [c]))
    (hspan : c.span = ⟨0, under.utf8ByteSize⟩)
    (hform : (∃ q l, c = .literal q l) ∨ (∃ q items, c = .block q items) ∨
      ∃ q f args, c = .invocation q f args)
    (htokens : (scan (before ++ under ++ after)).tokens =
      us ++ ((scan under).tokens.map (·.shift before.utf8ByteSize) ++ t :: vs))
    (ht : t.kind = .leftParen) : Describes before under after (.invalidCallee p)

structure CompileError.PointsAt (e : CompileError) (source before under after : String) : Prop where
  source_eq : source = before ++ under ++ after
  labels : e.diagnostic.labels.map (fun label => (label.offset, label.size)) =
    [(before.utf8ByteSize, under.utf8ByteSize)]
  describes : e.Describes before under after

theorem Span.place_eq {p : Span} {before under : String}
    (hp : p = ⟨before.utf8ByteSize, (before ++ under).utf8ByteSize⟩) :
    [(p.start, p.size)] = [(before.utf8ByteSize, under.utf8ByteSize)] := by
  rw [hp, size, String.utf8ByteSize_append, Nat.add_sub_cancel_left]

namespace Lexeme

theorem exists_text_of_mem {source : String} {l : Lexeme} (h : l ∈ lexemes source.toList) :
    ∃ before after : String, source = before ++ String.ofList l.text ++ after ∧
      l.span = ⟨before.utf8ByteSize, (before ++ String.ofList l.text).utf8ByteSize⟩ := by
  obtain ⟨front, back, hsplit⟩ := List.append_of_mem h
  have hstart := (step_of_mem_lexemesFrom (lexemesFrom_of_append hsplit)).2
  refine ⟨String.ofList (front.flatMap text), String.ofList (back.flatMap text), ?_, ?_⟩
  · have hall := flatMap_text_lexemesFrom 0 source.toList
    rw [lexemes] at hsplit
    rw [hsplit, List.flatMap_append, List.flatMap_cons, ← List.append_assoc] at hall
    rw [← String.ofList_append, ← String.ofList_append, hall, String.ofList_toList]
  · rw [String.utf8ByteSize_append, Text.utf8ByteSize_ofList, Text.utf8ByteSize_ofList, span,
      hstart, Nat.zero_add]

end Lexeme

open Lexeme in
theorem pointsAt_of_error {source : String} {e : CompileError} (h : .error e ∈ pieces source) :
    ∃ before under after, e.PointsAt source before under after := by
  obtain ⟨l, hl, hpiece⟩ := List.mem_filterMap.mp h
  obtain ⟨before, after, hsource, hspan⟩ := exists_text_of_mem hl
  unfold piece? at hpiece
  split at hpiece
  · cases hpiece
  · cases hpiece
    exact ⟨before, String.ofList l.text, after, hsource, Span.place_eq hspan, .stray rfl⟩
  · rename_i hcls
    cases hpiece
    obtain ⟨quote, w, hquote, htext⟩ :=
      Reader.exists_quote (hcls ▸ matches_of_mem_lexemesFrom hl (by rw [hcls]; decide))
    have hunder : String.singleton quote = "\"" ∨ String.singleton quote = "'" :=
      hquote.imp (fun h => by rw [h]; rfl) fun h => by rw [h]; rfl
    have hstart : l.start = before.utf8ByteSize := congrArg Span.start hspan
    have hsize : (String.singleton quote).utf8ByteSize = 1 := by
      rcases hunder with h | h <;> rw [h] <;> rfl
    refine ⟨before, String.singleton quote, String.ofList w ++ after, ?_, ?_,
      .unterminated hunder⟩
    · rw [hsource, htext, ← List.singleton_append, String.ofList_append,
        ← String.singleton_eq_ofList, String.append_assoc, String.append_assoc, String.append_assoc]
    · rw [hsize, ← hstart]
      rfl
  · cases hpiece

theorem pointsAt_of_token {source : String} {t : Token} (h : t ∈ (scan source).tokens)
    (expected : Expectation) :
    ∃ before under after, (CompileError.unexpectedToken expected t).PointsAt source before under
      after := by
  obtain ⟨l, hl, hpiece⟩ := List.mem_filterMap.mp (mem_of_mem_ofPieces h)
  obtain ⟨before, after, hsource, hspan⟩ := Lexeme.exists_text_of_mem hl
  obtain ⟨-, -, htext, htspan⟩ := Lexeme.piece?_eq_ok_iff.mp hpiece
  rw [← htspan] at hspan
  refine ⟨before, String.ofList l.text, after, hsource, Span.place_eq hspan, ?_⟩
  refine .token (hsource ▸ h) (kind_ne_endOfInput h) htext hspan ?_
  rw [← htext]
  rfl

theorem Scan.exists_pieces (ps : List (Except CompileError Token)) :
    ∃ more, ps = (Scan.ofPieces ps).tokens.map .ok ++ more := by
  cases herror : (Scan.ofPieces ps).error? with
  | none => exact ⟨[], (Scan.eq_map_ok herror).trans (List.append_nil _).symm⟩
  | some e =>
    obtain ⟨rest, hrest⟩ := Scan.pieces_of_error herror
    exact ⟨_, hrest⟩

theorem Expr.form_of_not_isCallable {e : Expr} (h : e.isCallable = false) :
    (∃ q l, e = .literal q l) ∨ (∃ q items, e = .block q items) ∨
      ∃ q f args, e = .invocation q f args := by
  cases e with
  | literal q l => exact .inl ⟨q, l, rfl⟩
  | block q items => exact .inr (.inl ⟨q, items, rfl⟩)
  | invocation q f args => exact .inr (.inr ⟨q, f, args, rfl⟩)
  | lookup | reference => cases h

theorem Expr.isCallable_shift (n : Nat) (e : Expr) : (e.shift n).isCallable = e.isCallable :=
  isCallable_mapOffsets (· + n) e

theorem Span.shift_cancel {p q : Span} {n : Nat} (h : p.shift n = q.shift n) : p = q := by
  obtain ⟨hstart, hstop⟩ := Span.mk.inj h
  exact congrArg₂ Span.mk (Nat.add_right_cancel hstart) (Nat.add_right_cancel hstop)

theorem Grammar.Spells.ne_nil {d : Derivation} {ts : List Token} {e : Expr} (h : Spells d ts e) :
    ts ≠ [] := by
  cases h with
  | head h => cases h <;> exact List.cons_ne_nil _ _
  | call => simp
  | number | string | block => exact List.cons_ne_nil _ _

theorem pointsAt_of_callee {source : String} {us ts vs : List Token} {t : Token} {d : Derivation}
    {callee : Expr} (htokens : (scan source).tokens = us ++ (ts ++ t :: vs))
    (hcallee : Spells d ts callee) (hcallable : callee.isCallable = false)
    (ht : t.kind = .leftParen) :
    ∃ before under after, (CompileError.invalidCallee callee.span).PointsAt source before under
      after := by
  obtain ⟨more, hmore⟩ := Scan.exists_pieces (pieces source)
  have hpieces : pieces source = us.map .ok ++ (ts.map .ok ++ ((t :: vs).map .ok ++ more)) := by
    rw [← List.append_assoc, ← List.append_assoc, ← List.map_append, ← List.map_append,
      List.append_assoc, ← htokens]
    exact hmore
  obtain ⟨before, under, after, hsource, hcovers, hlaid, ts', hscan, rfl⟩ :=
    exists_text_of_pieces hcallee.ne_nil hpieces
  obtain ⟨c, hparse, rfl⟩ := parse_of_shifted hscan hcallee
  have hspan := (hcallee.covers hlaid).unique hcovers
  rw [Expr.isCallable_shift] at hcallable
  have hcspan : c.span = ⟨0, under.utf8ByteSize⟩ := by
    apply Span.shift_cancel (n := before.utf8ByteSize)
    rw [← Expr.span_shift, hspan, Span.shift, String.utf8ByteSize_append, Nat.zero_add,
      Nat.add_comm]
  have hnext : (scan (before ++ under ++ after)).tokens =
      us ++ ((scan under).tokens.map (·.shift before.utf8ByteSize) ++ t :: vs) := by
    rw [← hsource, htokens, hscan]
  exact ⟨before, under, after, hsource, Span.place_eq hspan,
    .callee hparse hcspan (Expr.form_of_not_isCallable hcallable) hnext ht⟩

open Parser.State in
/--
Every error of the parser has one label, which covers a text of the source: the stray text that the
message shows, the quote that opens a string, the whole token that the message shows, the empty text
at the end, or a literal, a block or a call in front of a parenthesis.
-/
theorem pointsAt_of_parse_eq_error {source : String} {e : CompileError}
    (h : parse source = .error e) : ∃ before under after, e.PointsAt source before under after := by
  obtain hfeed | ⟨s, -, herror | ⟨-, expected, -, rfl⟩⟩ := parse_eq_error_iff.mp h
  · obtain ⟨front, t, back, s, htokens, hfront, ht⟩ := foldlM_eq_error hfeed
    obtain ⟨expected, rfl⟩ | ⟨callee, items, hparen, hpending, hphase, hitems, hcallable, rfl⟩ :=
      feed_eq_error ht
    · refine pointsAt_of_token ?_ expected
      rw [htokens]
      exact List.mem_append_right _ List.mem_cons_self
    · obtain ⟨us, vs, d, rfl, hcallee⟩ :=
        spells_of_items (numeric_of_tokens htokens) hfront hphase hpending hitems
      rw [List.append_assoc] at htokens
      exact pointsAt_of_callee htokens hcallee hcallable hparen
  · obtain ⟨rest, hpieces⟩ := Scan.pieces_of_error herror
    apply pointsAt_of_error
    rw [hpieces]
    exact List.mem_append_right _ List.mem_cons_self
  · refine ⟨source, "", "", ?_, ?_, .stop rfl rfl⟩
    · rw [String.append_empty, String.append_empty]
    · exact Span.place_eq (by rw [String.append_empty]; rfl)

/-- The label is over the string, of four bytes, in front of the parenthesis. -/
theorem pointsAt_of_parse_eq_error_string : parse "'é' (1)" = .error (.invalidCallee ⟨0, 4⟩) ∧
    ∃ before under after,
      (CompileError.invalidCallee ⟨0, 4⟩).PointsAt "'é' (1)" before under after := by
  have herror : (parse "'é' (1)").map (fun _ => ()) = .error (.invalidCallee ⟨0, 4⟩) := by
    decide +kernel
  have hparse := Except.map_eq_error_iff.mp herror
  exact ⟨hparse, pointsAt_of_parse_eq_error hparse⟩

end Fexpr
