import Fexpr.Proofs.LongestMatch
import Fexpr.Proofs.Reading

/-!
# Errors at the earliest token

Whatever the parser has read can be completed: after a promised name or argument, the open brackets
can be closed one after the other. What it refuses cannot be completed, since it accepts along every
derivation. So an error stands at the first token behind which no sentence goes on.
-/

namespace Fexpr

namespace Grammar

open Token (Kind)

def Viable (kinds : List Kind) : Prop := ∃ more, IsSentence (kinds ++ more)

end Grammar

namespace Parser.State

open Grammar
open Token (Kind)

def Completes (s : State) : Prop :=
  ∃ (ts : List Token) (s' : State) (es : List Expr),
    ts.foldlM feed s = .ok s' ∧ s'.finish = .ok es

theorem Completes.of_feed {s s' : State} {t : Token} (h : s.feed t = .ok s')
    (hs : s'.Completes) : s.Completes := by
  obtain ⟨ts, s₁, es, hts, hfinish⟩ := hs
  exact ⟨t :: ts, s₁, es, (foldlM_feed_cons h ts).trans hts, hfinish⟩

theorem completes_of_nothing (brackets : List (Bracket × List Expr)) (items : List Expr) :
    Completes ⟨items, .nothing, brackets⟩ := by
  induction brackets generalizing items with
  | nil => exact ⟨[], ⟨items, .nothing, []⟩, items.reverse, rfl, rfl⟩
  | cons b outer ih =>
    obtain ⟨bracket, before⟩ := b
    cases bracket with
    | brace opening =>
      have hclose : feed ⟨items, .nothing, (.brace opening, before) :: outer⟩
          (sample .rightBrace) = .ok ⟨.block (opening.merge default) items.reverse :: before,
            .nothing, outer⟩ := rfl
      exact .of_feed hclose (ih _)
    | paren callee =>
      have hclose : feed ⟨items, .nothing, (.paren callee, before) :: outer⟩
          (sample .rightParen) = .ok ⟨.invocation (callee.span.merge default) callee items.reverse
            :: before, .nothing, outer⟩ := rfl
      exact .of_feed hclose (ih _)

/-- A promised name or argument can be given, and then the brackets can be closed. -/
theorem completes (s : State) : s.Completes := by
  obtain ⟨items, pending, brackets⟩ := s
  cases pending with
  | nothing => exact completes_of_nothing brackets items
  | name sign =>
    have hname : feed ⟨items, .name sign, brackets⟩ (sample .ident) =
        .ok ⟨.reference (sign.merge default) (sample .ident).text :: items, .nothing, brackets⟩ :=
      rfl
    exact .of_feed hname (completes_of_nothing brackets _)
  | argument =>
    have hready : Ready ⟨items, .argument, brackets⟩ := by
      refine ⟨?_, by simp⟩
      unfold phase
      split <;> simp
    have hargument : feed ⟨items, .argument, brackets⟩ (sample .ident) =
        .ok ⟨.lookup default (sample .ident).text :: items, .nothing, brackets⟩ := by
      rw [feed_of_ready hready]
      rfl
    exact .of_feed hargument (completes_of_nothing brackets _)

theorem viable_kinds (s : State) : Viable s.kinds := by
  obtain ⟨ts, s', es, hts, hfinish⟩ := s.completes
  refine ⟨ts.map Token.kind ++ [.endOfInput], Expr.derivations es, ?_⟩
  rw [programKinds, ← kinds_of_finish hfinish, kinds_foldlM_feed hts, List.append_assoc]

theorem viable_of_foldlM {ts : List Token} {s : State} (h : ts.foldlM feed start = .ok s) :
    Viable (ts.map Token.kind) := by
  have hkinds : s.kinds = ts.map Token.kind := kinds_foldlM_feed h
  rw [← hkinds]
  exact viable_kinds s

theorem foldlM_of_viable {ts : List Token} (hn : Numeric ts)
    (hend : ∀ t ∈ ts, t.kind ≠ .endOfInput) (h : Viable (ts.map Token.kind)) :
    ∃ s, ts.foldlM feed start = .ok s := by
  obtain ⟨more, ds, hds⟩ := h
  rcases List.eq_nil_or_concat more with rfl | ⟨rest, stop, rfl⟩
  · -- the end of the sentence is not among the tokens
    have hmem : Kind.endOfInput ∈ ts.map Token.kind := by
      rw [List.append_nil] at hds
      rw [← hds, programKinds]
      simp
    obtain ⟨t, ht, hkind⟩ := List.mem_map.mp hmem
    exact absurd hkind (hend t ht)
  · rw [programKinds, List.concat_eq_append, ← List.append_assoc] at hds
    have hsequence := (List.append_inj' hds rfl).1
    have hkinds : (ts ++ rest.map sample).map Token.kind = sequenceKinds ds := by
      rw [hsequence, List.map_append, List.map_map]
      exact congrArg _ (List.map_id rest)
    have hnumeric : Numeric (ts ++ rest.map sample) := by
      intro t ht
      rcases List.mem_append.mp ht with ht | ht
      · exact hn t ht
      · exact numeric_sample rest t ht
    obtain ⟨es, hes⟩ := exists_spellsSequence ds hkinds hnumeric
    have hfeed := foldlM_feed_start hes
    rw [List.foldlM_append] at hfeed
    cases hts : ts.foldlM feed start with
    | ok s => exact ⟨s, rfl⟩
    | error e => rw [hts] at hfeed; cases hfeed

theorem foldlM_eq_error {ts : List Token} {s : State} {e : CompileError}
    (h : ts.foldlM feed s = .error e) : ∃ before t after s', ts = before ++ t :: after ∧
      before.foldlM feed s = .ok s' ∧ s'.feed t = .error e := by
  induction ts generalizing s with
  | nil => cases h
  | cons t ts ih =>
    rw [List.foldlM_cons] at h
    cases hfeed : s.feed t with
    | error e' =>
      rw [hfeed] at h
      cases h
      exact ⟨[], t, ts, s, rfl, rfl, hfeed⟩
    | ok s₁ =>
      rw [hfeed] at h
      obtain ⟨before, t', after, s', rfl, hbefore, herror⟩ := ih h
      exact ⟨t :: before, t', after, s', rfl, (foldlM_feed_cons hfeed before).trans hbefore, herror⟩

theorem feed_eq_error {s : State} {t : Token} {e : CompileError} (h : s.feed t = .error e) :
    (∃ expected, e = .unexpectedToken expected t) ∨
      ∃ callee before, t.kind = .leftParen ∧ (∀ sign, s.pending ≠ .name sign) ∧
        s.phase ≠ .argument ∧ s.items = callee :: before ∧ callee.isCallable = false ∧
        e = .invalidCallee callee.span := by
  have hunexpected : ∀ {e}, s.unexpected t = .error e →
      ∃ expected, e = .unexpectedToken expected t := by
    intro e he
    cases he
    exact ⟨_, rfl⟩
  have hbegin : ∀ {next e}, s.begin t next = .error e →
      ∃ expected, e = .unexpectedToken expected t := by
    intro next e he
    unfold begin at he
    split at he
    · exact hunexpected he
    · cases he
  unfold feed at h
  split at h
  · split at h
    · cases h
    · cases h
      exact .inl ⟨_, rfl⟩
  · rename_i hpending
    split at h
    case h_1 | h_2 | h_3 | h_4 | h_5 => exact .inl (hbegin h)
    case h_6 ht =>
      unfold call at h
      split at h
      · exact .inl (hunexpected h)
      · exact .inl (hunexpected h)
      · rename_i callee before hitems hphase
        split at h
        · cases h
        · rename_i hcallable
          cases h
          exact .inr ⟨callee, before, ht, fun sign hs => hpending sign hs, hphase, hitems,
            by simpa using hcallable, rfl⟩
    case h_7 =>
      unfold closeBrace at h
      split at h
      · cases h
      · exact .inl (hunexpected h)
    case h_8 =>
      unfold closeParen at h
      split at h
      · split at h
        · exact .inl (hunexpected h)
        · cases h
      · exact .inl (hunexpected h)
    case h_9 =>
      split at h
      · cases h
      · exact .inl (hunexpected h)
    case h_10 | h_11 => exact .inl (hunexpected h)

end Parser.State

open Lexeme Pattern in
theorem kind_ne_endOfInput {source : String} {t : Token} (ht : t ∈ (scan source).tokens) :
    t.kind ≠ .endOfInput := by
  intro hkind
  obtain ⟨l, hl, hpiece⟩ := List.mem_filterMap.mp (mem_of_mem_ofPieces ht)
  obtain ⟨hcls, -⟩ := piece?_eq_ok_iff.mp hpiece
  rw [hkind] at hcls
  obtain ⟨_, hdeclared, -⟩ := matches_of_mem_lexemesFrom hl (by rw [hcls]; decide)
  rw [hcls] at hdeclared
  simp [declared] at hdeclared

theorem Scan.pieces_of_error {ps : List (Except CompileError Token)} {e : CompileError}
    (h : (Scan.ofPieces ps).error? = some e) :
    ∃ rest, ps = (Scan.ofPieces ps).tokens.map .ok ++ .error e :: rest := by
  induction ps with
  | nil => cases h
  | cons p ps ih =>
    cases p with
    | error e' =>
      cases h
      exact ⟨ps, rfl⟩
    | ok t =>
      obtain ⟨rest, hrest⟩ := ih h
      exact ⟨rest, congrArg (.ok t :: ·) hrest⟩

theorem Lexeme.piece?_eq_error {l : Lexeme} {e : CompileError} (h : l.piece? = some (.error e)) :
    (∃ found p, e = .strayText found p) ∨ ∃ start, e = .unterminatedString start := by
  unfold piece? at h
  split at h
  · cases h
  · cases h
    exact .inl ⟨_, _, rfl⟩
  · cases h
    exact .inr ⟨_, rfl⟩
  · cases h

open Grammar Parser.State

/-- Token `k` is the first behind which no sentence goes on. -/
def FirstRefused (tokens : List Token) (k : Nat) : Prop :=
  Viable ((tokens.take k).map Token.kind) ∧ ¬ Viable ((tokens.take (k + 1)).map Token.kind)

inductive Earliest (source : String) : CompileError → Prop
  | token {expected : Expectation} {t : Token} {k : Nat} (ht : (scan source).tokens[k]? = some t)
    (h : FirstRefused (scan source).tokens k) : Earliest source (.unexpectedToken expected t)
  | callee {t : Token} {k : Nat} {us vs : List Token} {d : Derivation} {callee : Expr}
    (ht : (scan source).tokens[k]? = some t) (hparen : t.kind = .leftParen)
    (hfront : (scan source).tokens.take k = us ++ vs) (hcallee : Spells d vs callee)
    (hcallable : callee.isCallable = false) (h : FirstRefused (scan source).tokens k) :
    Earliest source (.invalidCallee callee.span)
  | stop {expected : Expectation} (herror : (scan source).error? = none)
    (h : Viable ((scan source).tokens.map Token.kind))
    (hnot : ¬ IsSentence ((scan source).tokens.map Token.kind ++ [.endOfInput])) :
    Earliest source (.unexpectedEnd expected source.utf8ByteSize)
  | stray {found : String} {p : Span} {rest : List (Except CompileError Token)}
    (hfirst : pieces source = (scan source).tokens.map .ok ++ .error (.strayText found p) :: rest)
    (h : Viable ((scan source).tokens.map Token.kind)) : Earliest source (.strayText found p)
  | unterminated {start : Nat} {rest : List (Except CompileError Token)}
    (hfirst : pieces source =
      (scan source).tokens.map .ok ++ .error (.unterminatedString start) :: rest)
    (h : Viable ((scan source).tokens.map Token.kind)) :
    Earliest source (.unterminatedString start)

theorem firstRefused_of_feed {source : String} {before after : List Token} {t : Token}
    {s : Parser.State} {e : CompileError} (htokens : (scan source).tokens = before ++ t :: after)
    (hbefore : before.foldlM feed start = .ok s) (ht : s.feed t = .error e) :
    FirstRefused (scan source).tokens before.length := by
  have htokens' : (scan source).tokens = before ++ [t] ++ after := by
    rw [htokens, List.append_cons]
  have htake : (scan source).tokens.take before.length = before := by
    rw [htokens, List.take_left]
  have htake' : (scan source).tokens.take (before.length + 1) = before ++ [t] := by
    have hlength : before.length + 1 = (before ++ [t]).length := by simp
    rw [htokens', hlength, List.take_left]
  constructor
  · rw [htake]
    exact viable_of_foldlM hbefore
  · rw [htake']
    intro hviable
    have hend : ∀ u ∈ before ++ [t], u.kind ≠ .endOfInput := by
      intro u hu
      have hmem : u ∈ (scan source).tokens := by
        rw [htokens']
        exact List.mem_append_left after hu
      exact kind_ne_endOfInput hmem
    obtain ⟨s', hs'⟩ := foldlM_of_viable (numeric_of_tokens htokens') hend hviable
    rw [foldlM_feed_append hbefore, List.foldlM_cons, ht] at hs'
    cases hs'

theorem earliest_of_feed {source : String} {e : CompileError}
    (h : (scan source).tokens.foldlM feed start = .error e) : Earliest source e := by
  obtain ⟨before, t, after, s, htokens, hbefore, ht⟩ := foldlM_eq_error h
  have hrefused := firstRefused_of_feed htokens hbefore ht
  have hget : (scan source).tokens[before.length]? = some t := by
    rw [htokens]
    simp
  rcases feed_eq_error ht with ⟨expected, rfl⟩ | ⟨callee, items, hparen, hpending, hphase, hitems,
    hcallable, rfl⟩
  · exact .token hget hrefused
  · obtain ⟨us, vs, d, hsplit, hcallee⟩ :=
      spells_of_items (numeric_of_tokens htokens) hbefore hphase hpending hitems
    have hfront : (scan source).tokens.take before.length = us ++ vs := by
      rw [htokens, List.take_left, hsplit]
    exact .callee hget hparen hfront hcallee hcallable hrefused

/--
If a source has no tree, then the error stands at the first token behind which no sentence goes on,
or at the end of tokens that begin a sentence but are none, or it is the first lexical error and the
tokens before it begin a sentence.
-/
theorem earliest_of_parse_eq_error {source : String} {e : CompileError}
    (h : parse source = .error e) : Earliest source e := by
  unfold parse at h
  cases hfeed : (scan source).tokens.foldlM feed start with
  | error e' =>
    simp only [bind, Except.bind, hfeed] at h
    cases h
    exact earliest_of_feed hfeed
  | ok s =>
    have hviable := viable_of_foldlM hfeed
    cases herror : (scan source).error? with
    | some e' =>
      simp only [bind, Except.bind, hfeed, herror] at h
      cases h
      obtain ⟨rest, hpieces⟩ := Scan.pieces_of_error herror
      have hmem : .error e ∈ pieces source := by
        rw [pieces] at hpieces ⊢
        rw [hpieces]
        simp
      obtain ⟨l, -, hl⟩ := List.mem_filterMap.mp hmem
      rcases Lexeme.piece?_eq_error hl with ⟨found, p, rfl⟩ | ⟨start, rfl⟩
      · exact .stray hpieces hviable
      · exact .unterminated hpieces hviable
    | none =>
      cases hfinish : s.finish with
      | ok es => simp [bind, Except.bind, hfeed, herror, hfinish] at h
      | error expected =>
        simp only [bind, Except.bind, hfeed, herror, hfinish] at h
        cases h
        refine .stop herror hviable ?_
        rintro ⟨ds, hds⟩
        have hkinds : (scan source).tokens.map Token.kind = sequenceKinds ds :=
          (List.append_cancel_right hds).symm
        obtain ⟨es, hes⟩ := exists_spellsSequence ds hkinds (numeric_scan source)
        have hstate := Except.ok.inj (hfeed.symm.trans (foldlM_feed_start hes))
        rw [hstate] at hfinish
        cases hfinish

/-- A second argument list is refused, though a stray character comes after it. -/
theorem earliest_of_parse_eq_error_callee :
    parse "@f()(^" = .error (.invalidCallee ⟨0, 4⟩) ∧
      Earliest "@f()(^" (.invalidCallee ⟨0, 4⟩) := by
  have herror : (parse "@f()(^").map (fun _ => ()) = .error (.invalidCallee ⟨0, 4⟩) := by
    decide +kernel
  have hparse := Except.map_eq_error_iff.mp herror
  exact ⟨hparse, earliest_of_parse_eq_error hparse⟩

end Fexpr
