import Fexpr.Proofs.Grammar
import Fexpr.Proofs.Numerals

/-!
# The parser and the grammar

Along a derivation the parser reads every token and pushes the expression that the derivation makes
of them. Conversely the state of the parser shows the kinds of all tokens that were read, so when it
accepts, they are those of the expressions that it returns.
-/

namespace Fexpr.Parser.State

open Grammar
open Token (Kind)

structure Ready (s : State) : Prop where
  phase : s.phase ≠ .separator
  pending : ∀ sign, s.pending ≠ .name sign

theorem begin_eq {s : State} (h : s.phase ≠ .separator) (t : Token) (next : State) :
    s.begin t next = .ok next := by
  rw [begin, if_neg h]

theorem feed_of_ready {s : State} (h : s.Ready) (t : Token) :
    s.feed t = match t.kind with
      | .number => .ok (s.push (.literal t.span (.number (numberOf t))))
      | .string => .ok (s.push (.literal t.span (.string (Text.unescape t.text))))
      | .ident => .ok (s.push (.lookup t.span t.text))
      | .atSign => .ok { s with pending := .name t.span }
      | .leftBrace => .ok (s.openBrace t.span)
      | .leftParen => s.call t
      | .rightBrace => s.closeBrace t
      | .rightParen => s.closeParen t
      | .comma | .unterminated | .endOfInput => s.unexpected t := by
  unfold feed
  split
  · rename_i sign hp
    exact absurd hp (h.pending sign)
  · cases t.kind <;> simp [begin_eq h.phase, h.phase]

/-- After an expression nothing is promised, and a parenthesis would belong to it. -/
theorem feed_leftParen_push (s : State) {e : Expr} (he : e.isCallable) {t : Token}
    (ht : t.kind = .leftParen) :
    (s.push e).feed t = .ok (s.openParen e s.items) := by
  have hphase : (s.push e).phase ≠ .argument := by
    unfold phase push
    split <;> simp
  simp only [feed, ht, push, call]
  split
  · rename_i h
    exact absurd h hphase
  · rename_i hitems _
    cases hitems
  · rename_i hitems _
    cases hitems
    rw [if_pos he]
    rfl

theorem foldlM_feed_append {s s' : State} {ts : List Token} (h : ts.foldlM feed s = .ok s')
    (us : List Token) : (ts ++ us).foldlM feed s = us.foldlM feed s' := by
  rw [List.foldlM_append, h]
  rfl

theorem foldlM_feed_cons {s s' : State} {t : Token} (h : s.feed t = .ok s') (us : List Token) :
    (t :: us).foldlM feed s = us.foldlM feed s' := by
  rw [List.foldlM_cons, h]
  rfl

theorem phase_push_of_sequence {s : State} (h : s.phase = .sequence) (e : Expr) :
    (s.push e).phase = .sequence := by
  unfold phase at h
  split at h
  · split at h <;> cases h
  · rename_i hb
    unfold phase push
    split
    · rename_i c before outer hp
      exact absurd hp (hb c before outer)
    · rfl

theorem feed_head {s : State} (h : s.Ready) {form : Head} {ts : List Token} {e : Expr}
    (he : form.Spells ts e) : e.isCallable ∧ ts.foldlM feed s = .ok (s.push e) := by
  cases he with
  | @name t ht =>
    have hfeed : s.feed t = .ok (s.push (.lookup t.span t.text)) := by
      rw [feed_of_ready h, ht]
    exact ⟨rfl, foldlM_feed_cons hfeed []⟩
  | @reference sign t hs ht =>
    have hsign : s.feed sign = .ok { s with pending := .name sign.span } := by
      rw [feed_of_ready h, hs]
    have hname : feed { s with pending := .name sign.span } t =
        .ok (s.push (.reference (sign.span.merge t.span) t.text)) := by
      simp [feed, ht, push]
    refine ⟨rfl, ?_⟩
    rw [foldlM_feed_cons hsign, foldlM_feed_cons hname]
    rfl

mutual

theorem feed_spells {d : Derivation} {s : State} (h : s.Ready) {ts : List Token} {e : Expr}
    (he : Spells d ts e) : ts.foldlM feed s = .ok (s.push e) := by
  cases he with
  | @number t n ht hn =>
    have hfeed : s.feed t = .ok (s.push (.literal t.span (.number n))) := by
      rw [feed_of_ready h, ht]
      simp only [numberOf, hn, Option.getD_some]
    exact foldlM_feed_cons hfeed []
  | @string t ht =>
    have hfeed : s.feed t = .ok (s.push (.literal t.span (.string (Text.unescape t.text)))) := by
      rw [feed_of_ready h, ht]
    exact foldlM_feed_cons hfeed []
  | head he => exact (feed_head h he).2
  | @call form args ts us opening closing callee es hc ho ha hl =>
    obtain ⟨hcallable, hcallee⟩ := feed_head h hc
    have hclose : feed ⟨es.reverse, .nothing, (.paren callee, s.items) :: s.brackets⟩ closing =
        .ok (s.push (.invocation (callee.span.merge closing.span) callee es)) := by
      simp [feed, hl, closeParen, push]
    rw [foldlM_feed_append hcallee, foldlM_feed_cons (feed_leftParen_push s hcallable ho),
      foldlM_feed_append (feed_arguments callee s ha), foldlM_feed_cons hclose]
    rfl
  | @block items us opening closing es ho hi hl =>
    have hopen : s.feed opening = .ok (s.openBrace opening.span) := by
      rw [feed_of_ready h, ho]
    have hitems := feed_sequence (s := s.openBrace opening.span) rfl rfl hi
    have hclose : feed ⟨es.reverse ++ [], .nothing, (.brace opening.span, s.items) :: s.brackets⟩
        closing = .ok (s.push (.block (opening.span.merge closing.span) es)) := by
      simp [feed, hl, closeBrace, push]
    rw [foldlM_feed_cons hopen, foldlM_feed_append hitems, openBrace, foldlM_feed_cons hclose]
    rfl

theorem feed_sequence {ds : List Derivation} {s : State} (hphase : s.phase = .sequence)
    (hpending : s.pending = .nothing) {ts : List Token} {es : List Expr}
    (hes : SpellsSequence ds ts es) :
    ts.foldlM feed s = .ok ⟨es.reverse ++ s.items, .nothing, s.brackets⟩ := by
  cases hes with
  | nil =>
    rw [← hpending]
    rfl
  | @cons d ds ts us e es he hes =>
    have hready : s.Ready := ⟨by rw [hphase]; decide, by rw [hpending]; intro sign h; cases h⟩
    rw [foldlM_feed_append (feed_spells hready he),
      feed_sequence (phase_push_of_sequence hphase e) rfl hes]
    simp [push]

theorem feed_arguments {ds : List Derivation} (callee : Expr) (s : State) {ts : List Token}
    {es : List Expr} (hes : SpellsArguments ds ts es) :
    ts.foldlM feed (s.openParen callee s.items) =
      .ok ⟨es.reverse, .nothing, (.paren callee, s.items) :: s.brackets⟩ := by
  cases hes with
  | nil => rfl
  | @cons d ds ts us e es he hes =>
    have hready : (s.openParen callee s.items).Ready :=
      ⟨by simp [openParen, phase], by simp [openParen]⟩
    have hfurther := feed_further callee s.items s.brackets [] e hes
    rw [foldlM_feed_append (feed_spells hready he)]
    simpa [push, openParen] using hfurther

theorem feed_further {ds : List Derivation} (callee : Expr) (before : List Expr)
    (outer : List (Bracket × List Expr)) (read : List Expr) (last : Expr) {ts : List Token}
    {es : List Expr} (hes : SpellsFurther ds ts es) :
    ts.foldlM feed ⟨last :: read, .nothing, (.paren callee, before) :: outer⟩ =
      .ok ⟨es.reverse ++ last :: read, .nothing, (.paren callee, before) :: outer⟩ := by
  cases hes with
  | nil => rfl
  | @cons d ds ts us comma e es hc he hes =>
    have hcomma : feed ⟨last :: read, .nothing, (.paren callee, before) :: outer⟩ comma =
        .ok ⟨last :: read, .argument, (.paren callee, before) :: outer⟩ := by
      simp [feed, hc, phase]
    have hready : Ready ⟨last :: read, .argument, (.paren callee, before) :: outer⟩ :=
      ⟨by simp [phase], by simp⟩
    have hfurther := feed_further callee before outer (last :: read) e hes
    rw [foldlM_feed_cons hcomma, foldlM_feed_append (feed_spells hready he)]
    simpa [push] using hfurther

end

theorem foldlM_feed_start {ds : List Derivation} {ts : List Token} {es : List Expr}
    (hes : SpellsSequence ds ts es) : ts.foldlM feed start = .ok ⟨es.reverse, .nothing, []⟩ := by
  simpa [start] using feed_sequence (s := start) rfl rfl hes

end Fexpr.Parser.State

namespace Fexpr.Expr

open Grammar

/-- The form of a callee. Only a name and a reference have one; anything else counts as a name. -/
def head : Expr → Head
  | reference _ _ => .reference
  | _ => .name

mutual

def derivation : Expr → Derivation
  | literal _ (.number _) => .number
  | literal _ (.string _) => .string
  | e@(lookup _ _) | e@(reference _ _) => .head e.head
  | invocation _ callee args => .call callee.head (derivations args)
  | block _ items => .block (derivations items)

def derivations : List Expr → List Derivation
  | [] => []
  | e :: es => derivation e :: derivations es

end

theorem derivations_eq_map (es : List Expr) : derivations es = es.map derivation := by
  induction es with
  | nil => rfl
  | cons e es ih => rw [derivations, ih, List.map_cons]

theorem kinds_derivation_of_isCallable {e : Expr} (h : e.isCallable) :
    e.derivation.kinds = e.head.kinds := by
  cases e <;> first | rfl | cases h

end Fexpr.Expr

namespace Fexpr.Parser.State

open Grammar
open Token (Kind)

def itemKinds (brackets : List (Bracket × List Expr)) (items : List Expr) : List Kind :=
  match brackets with
  | (.paren _, _) :: _ => argumentKinds (Expr.derivations items.reverse)
  | _ => sequenceKinds (Expr.derivations items.reverse)

def leadKinds (brackets : List (Bracket × List Expr)) (items : List Expr) : List Kind :=
  match brackets with
  | (.paren _, _) :: _ => itemKinds brackets items ++ (if items.isEmpty then [] else [.comma])
  | _ => itemKinds brackets items

def bracketKinds : List (Bracket × List Expr) → List Kind
  | [] => []
  | (.brace _, before) :: outer => bracketKinds outer ++ (leadKinds outer before ++ [.leftBrace])
  | (.paren callee, before) :: outer =>
    bracketKinds outer ++ (leadKinds outer before ++ (callee.head.kinds ++ [.leftParen]))

def kinds (s : State) : List Kind :=
  bracketKinds s.brackets ++ match s.pending with
    | .nothing => itemKinds s.brackets s.items
    | .argument => leadKinds s.brackets s.items
    | .name _ => leadKinds s.brackets s.items ++ [.atSign]

theorem itemKinds_cons (brackets : List (Bracket × List Expr)) (e : Expr) (items : List Expr) :
    itemKinds brackets (e :: items) = leadKinds brackets items ++ e.derivation.kinds := by
  rcases brackets with _ | ⟨⟨_ | _, before⟩, outer⟩
  case cons.paren =>
    cases items with
    | nil => simp [itemKinds, leadKinds, Expr.derivations, argumentKinds, furtherKinds]
    | cons e' items =>
      simp only [itemKinds, leadKinds, Expr.derivations_eq_map, List.reverse_cons (a := e),
        List.map_append, List.map_cons, List.map_nil]
      rw [argumentKinds_concat (by simp)]
      simp
  all_goals
    simp [itemKinds, leadKinds, Expr.derivations_eq_map, sequenceKinds_append, sequenceKinds]

theorem kinds_push (s : State) (e : Expr) :
    (s.push e).kinds = bracketKinds s.brackets ++ leadKinds s.brackets s.items ++
      e.derivation.kinds := by
  rw [List.append_assoc, ← itemKinds_cons]
  rfl

theorem kinds_of_ready {s : State} (h : s.Ready) :
    s.kinds = bracketKinds s.brackets ++ leadKinds s.brackets s.items := by
  obtain ⟨items, pending, brackets⟩ := s
  cases pending with
  | argument => rfl
  | name sign => exact absurd rfl (h.pending sign)
  | nothing =>
    rcases brackets with _ | ⟨⟨_ | _, before⟩, outer⟩
    case nothing.cons.paren =>
      cases items with
      | nil => simp [kinds, leadKinds]
      | cons e items => exact absurd rfl h.phase
    all_goals rfl

theorem phase_eq_separator {s : State} (h : s.phase = .separator) :
    ∃ e items callee before outer, s.items = e :: items ∧ s.pending ≠ .argument ∧
      s.brackets = (.paren callee, before) :: outer := by
  unfold phase at h
  split at h
  · rename_i callee before outer hb
    split at h
    · cases h
    · rename_i hp
      simp only [Bool.or_eq_true, not_or, beq_iff_eq] at hp
      have hne : s.items ≠ [] := fun hi => hp.1 (by rw [hi]; rfl)
      obtain ⟨e, items, hi⟩ := List.exists_cons_of_ne_nil hne
      exact ⟨e, items, callee, before, outer, hi, hp.2, hb⟩
  · cases h

theorem kinds_begin {s s' next : State} {t : Token} (h : s.begin t next = .ok s')
    (hp : ∀ sign, s.pending ≠ .name sign) (hnext : s.Ready → next.kinds = s.kinds ++ [t.kind]) :
    s'.kinds = s.kinds ++ [t.kind] := by
  unfold begin at h
  split at h
  · cases h
  · rename_i hphase
    cases h
    exact hnext ⟨hphase, hp⟩

theorem kinds_of_items {s : State} {e : Expr} {before : List Expr} (hi : s.items = e :: before)
    (hphase : s.phase ≠ .argument) (hp : ∀ sign, s.pending ≠ .name sign) :
    s.kinds = bracketKinds s.brackets ++ leadKinds s.brackets before ++ e.derivation.kinds := by
  rw [List.append_assoc, ← itemKinds_cons, ← hi]
  obtain ⟨items, pending, brackets⟩ := s
  cases pending with
  | nothing => rfl
  | name sign => exact absurd rfl (hp sign)
  | argument =>
    rcases brackets with _ | ⟨⟨_ | _, outer⟩, rest⟩
    case argument.cons.paren => exact absurd (by simp [phase]) hphase
    all_goals rfl

theorem kinds_call {s s' : State} {t : Token} (ht : t.kind = .leftParen) (h : s.call t = .ok s')
    (hp : ∀ sign, s.pending ≠ .name sign) : s'.kinds = s.kinds ++ [t.kind] := by
  unfold call at h
  split at h
  · cases h
  · cases h
  · rename_i callee before hitems hphase
    split at h
    · rename_i hcallable
      cases h
      rw [kinds_of_items hitems hphase hp, Expr.kinds_derivation_of_isCallable hcallable, ht]
      simp [kinds, openParen, bracketKinds, itemKinds, Expr.derivations, argumentKinds]
    · cases h

theorem kinds_closeBrace {s s' : State} {t : Token} (ht : t.kind = .rightBrace)
    (h : s.closeBrace t = .ok s') (hp : ∀ sign, s.pending ≠ .name sign) :
    s'.kinds = s.kinds ++ [t.kind] := by
  unfold closeBrace at h
  split at h
  · rename_i opening before outer hb
    cases h
    have hs : s.kinds = bracketKinds s.brackets ++ itemKinds s.brackets s.items := by
      unfold kinds
      cases hpending : s.pending with
      | nothing => rfl
      | argument => rw [hb]; rfl
      | name sign => exact absurd hpending (hp sign)
    rw [kinds_push, hs, hb, ht]
    simp [bracketKinds, itemKinds, Expr.derivation, Derivation.kinds]
  · cases h

theorem kinds_closeParen {s s' : State} {t : Token} (ht : t.kind = .rightParen)
    (h : s.closeParen t = .ok s') (hp : ∀ sign, s.pending ≠ .name sign) :
    s'.kinds = s.kinds ++ [t.kind] := by
  unfold closeParen at h
  split at h
  · rename_i callee before outer hb
    split at h
    · cases h
    · rename_i hargument
      cases h
      have hs : s.kinds = bracketKinds s.brackets ++ itemKinds s.brackets s.items := by
        unfold kinds
        cases hpending : s.pending with
        | nothing => rfl
        | argument => exact absurd hpending hargument
        | name sign => exact absurd hpending (hp sign)
      rw [kinds_push, hs, hb, ht]
      simp [bracketKinds, itemKinds, Expr.derivation, Derivation.kinds]
  · cases h

theorem kinds_comma {s : State} (hphase : s.phase = .separator)
    (hp : ∀ sign, s.pending ≠ .name sign) :
    kinds { s with pending := .argument } = s.kinds ++ [.comma] := by
  obtain ⟨e, items, callee, before, outer, hi, hargument, hb⟩ := phase_eq_separator hphase
  unfold kinds
  cases hpending : s.pending with
  | nothing => simp [leadKinds, hi, hb]
  | argument => exact absurd hpending hargument
  | name sign => exact absurd hpending (hp sign)

/-- One step: a state shows the kind of the token that led to it. -/
theorem kinds_feed {s s' : State} {t : Token} (h : s.feed t = .ok s') :
    s'.kinds = s.kinds ++ [t.kind] := by
  unfold feed at h
  split at h
  · rename_i sign hpending
    split at h
    · rename_i ht
      cases h
      rw [kinds_push, ht]
      simp [kinds, hpending, Expr.derivation, Derivation.kinds, Head.kinds, Expr.head]
    · cases h
  · rename_i hpending
    have hp : ∀ sign, s.pending ≠ .name sign := fun sign hs => hpending sign hs
    split at h
    case h_1 ht | h_2 ht | h_3 ht =>
      refine kinds_begin h hp fun hready => ?_
      rw [kinds_push, kinds_of_ready hready, ht]
      rfl
    case h_4 ht =>
      refine kinds_begin h hp fun hready => ?_
      rw [kinds_of_ready hready, ht, List.append_assoc]
      rfl
    case h_5 ht =>
      refine kinds_begin h hp fun hready => ?_
      rw [kinds_of_ready hready, ht]
      simp [kinds, openBrace, bracketKinds, itemKinds, Expr.derivations, sequenceKinds]
    case h_6 ht => exact kinds_call ht h hp
    case h_7 ht => exact kinds_closeBrace ht h hp
    case h_8 ht => exact kinds_closeParen ht h hp
    case h_9 ht =>
      split at h
      · rename_i hphase
        cases h
        rw [kinds_comma hphase hp, ht]
      · cases h
    case h_10 | h_11 => cases h

/-- A run: the kinds of a state are those of all tokens since the start. -/
theorem kinds_foldlM_feed {s s' : State} {ts : List Token} (h : ts.foldlM feed s = .ok s') :
    s'.kinds = s.kinds ++ ts.map Token.kind := by
  induction ts generalizing s with
  | nil =>
    cases h
    simp
  | cons t ts ih =>
    rw [List.foldlM_cons] at h
    cases hfeed : s.feed t with
    | error e => rw [hfeed] at h; cases h
    | ok s₁ =>
      rw [hfeed] at h
      rw [ih h, kinds_feed hfeed, List.map_cons, List.append_assoc, List.singleton_append]

theorem kinds_of_finish {s : State} {es : List Expr} (h : s.finish = .ok es) :
    s.kinds = sequenceKinds (Expr.derivations es) := by
  obtain ⟨items, pending, brackets⟩ := s
  unfold finish at h
  split at h
  · cases h
  · rename_i hb hpending
    cases h
    simp only at hb
    subst hb
    cases pending with
    | name sign => exact absurd rfl (hpending sign)
    | nothing | argument => rfl
  · cases h
  · cases h

end Fexpr.Parser.State

namespace Fexpr.Grammar

open Fexpr.Parser Fexpr.Parser.State
open Token (Kind)

theorem Head.Spells.head_eq {form : Head} {ts : List Token} {e : Expr} (h : form.Spells ts e) :
    e.head = form ∧ e.derivation = .head form := by
  cases h <;> exact ⟨rfl, rfl⟩

mutual

theorem Spells.derivation_eq {d : Derivation} {ts : List Token} {e : Expr} (h : Spells d ts e) :
    e.derivation = d := by
  cases h with
  | number ht hn => rfl
  | string ht => rfl
  | head h => exact h.head_eq.2
  | call hc ho ha hl => rw [Expr.derivation, hc.head_eq.1, ha.derivations_eq]
  | block ho hi hl => rw [Expr.derivation, hi.derivations_eq]

theorem SpellsSequence.derivations_eq {ds : List Derivation} {ts : List Token} {es : List Expr}
    (h : SpellsSequence ds ts es) : Expr.derivations es = ds := by
  cases h with
  | nil => rfl
  | cons h hs => rw [Expr.derivations, h.derivation_eq, hs.derivations_eq]

theorem SpellsArguments.derivations_eq {ds : List Derivation} {ts : List Token} {es : List Expr}
    (h : SpellsArguments ds ts es) : Expr.derivations es = ds := by
  cases h with
  | nil => rfl
  | cons h hs => rw [Expr.derivations, h.derivation_eq, hs.derivations_eq]

theorem SpellsFurther.derivations_eq {ds : List Derivation} {ts : List Token} {es : List Expr}
    (h : SpellsFurther ds ts es) : Expr.derivations es = ds := by
  cases h with
  | nil => rfl
  | cons hc h hs => rw [Expr.derivations, h.derivation_eq, hs.derivations_eq]

end

def sample (k : Kind) : Token := ⟨k, String.ofList ['0'], default⟩

theorem numeric_sample (kinds : List Kind) : Numeric (kinds.map sample) := by
  intro t ht _
  obtain ⟨k, _, rfl⟩ := List.mem_map.mp ht
  refine ⟨Decimal.toNumber ⟨false, Decimal.digitsValue ['0'], 0⟩, ?_⟩
  simp [sample, Number.ofText?, Decimal.ofChars?, Decimal.splitSign, Decimal.splitFraction,
    Decimal.exponentValue?]

/-- The parser is a function, and the expressions it returns show the derivation. -/
theorem sequenceKinds_injective {ds ds' : List Derivation}
    (h : sequenceKinds ds = sequenceKinds ds') : ds = ds' := by
  have hkinds : ((sequenceKinds ds).map sample).map Token.kind = sequenceKinds ds := by
    rw [List.map_map]
    exact List.map_id _
  have hn := numeric_sample (sequenceKinds ds)
  obtain ⟨es, hes⟩ := exists_spellsSequence ds hkinds hn
  obtain ⟨es', hes'⟩ := exists_spellsSequence ds' (hkinds.trans h) hn
  have heq : es.reverse = es'.reverse := by
    have hfeed := (foldlM_feed_start hes).symm.trans (foldlM_feed_start hes')
    exact congrArg State.items (Except.ok.inj hfeed)
  rw [← hes.derivations_eq, ← hes'.derivations_eq, List.reverse_inj.mp heq]

theorem programKinds_injective {ds ds' : List Derivation} (h : programKinds ds = programKinds ds') :
    ds = ds' :=
  sequenceKinds_injective (List.append_cancel_right h)

end Fexpr.Grammar

namespace Fexpr

open Grammar Fexpr.Parser Fexpr.Parser.State

theorem parse_eq_ok_iff {source : String} {e : Expr} :
    parse source = .ok e ↔ ∃ s es, (scan source).error? = none ∧
      (scan source).tokens.foldlM feed start = .ok s ∧ s.finish = .ok es ∧
      e = .block ⟨0, source.utf8ByteSize⟩ es := by
  unfold parse
  cases hfeed : (scan source).tokens.foldlM feed start with
  | error e' => simp [bind, Except.bind, hfeed]
  | ok s =>
    cases herror : (scan source).error? with
    | some e' => simp [bind, Except.bind, hfeed, herror]
    | none =>
      cases hfinish : s.finish with
      | error expected => simp [bind, Except.bind, hfeed, herror, hfinish]
      | ok es => simp [bind, Except.bind, hfeed, herror, hfinish, eq_comm]

/-- An error is that of the first refused token, or else the first lexical one, or else the end. -/
theorem parse_eq_error_iff {source : String} {e : CompileError} :
    parse source = .error e ↔ (scan source).tokens.foldlM feed start = .error e ∨
      ∃ s, (scan source).tokens.foldlM feed start = .ok s ∧
        ((scan source).error? = some e ∨ (scan source).error? = none ∧
          ∃ expected, s.finish = .error expected ∧
            e = .unexpectedEnd expected source.utf8ByteSize) := by
  unfold parse
  cases hfeed : (scan source).tokens.foldlM feed start with
  | error e' => simp [bind, Except.bind, hfeed]
  | ok s =>
    cases herror : (scan source).error? with
    | some e' => simp [bind, Except.bind, hfeed, herror]
    | none =>
      cases hfinish : s.finish with
      | error expected => simp [bind, Except.bind, hfeed, herror, hfinish, eq_comm]
      | ok es => simp [bind, Except.bind, hfeed, herror, hfinish]

theorem lex_eq_ok_iff {source : String} {tokens : List Token} :
    lex source = .ok tokens ↔ (scan source).error? = none ∧
      tokens = (scan source).tokens ++ [Token.endOf source] := by
  unfold lex
  cases herror : (scan source).error? with
  | some e' => simp [herror]
  | none => simp [herror, eq_comm]

theorem mem_of_mem_ofPieces {ps : List (Except CompileError Token)} {t : Token}
    (h : t ∈ (Scan.ofPieces ps).tokens) : .ok t ∈ ps := by
  induction ps with
  | nil => cases h
  | cons p ps ih =>
    cases p with
    | error e => cases h
    | ok u =>
      rcases List.mem_cons.mp h with rfl | h
      · exact List.mem_cons_self
      · exact List.mem_cons_of_mem _ (ih h)

theorem Lexeme.piece?_eq_ok_iff {l : Lexeme} {t : Token} :
    l.piece? = some (.ok t) ↔ l.cls = .token t.kind ∧ t.kind ≠ .unterminated ∧
      t.text = String.ofList l.text ∧ t.span = l.span := by
  obtain ⟨kind, text, span⟩ := t
  unfold piece?
  split
  · rename_i hcls
    simp [hcls]
  · rename_i hcls
    simp [hcls]
  · rename_i hcls
    simp only [hcls, Class.token.injEq]
    exact ⟨fun h => (nomatch h), fun ⟨hk, hne, _⟩ => absurd hk.symm hne⟩
  · rename_i kind' hkind hcls
    simp only [hcls, Class.token.injEq, Option.some.injEq, Except.ok.injEq, Token.mk.injEq]
    constructor
    · rintro ⟨rfl, rfl, rfl⟩
      exact ⟨rfl, fun h => hkind (h ▸ rfl), rfl, rfl⟩
    · rintro ⟨rfl, _, rfl, rfl⟩
      exact ⟨rfl, rfl, rfl⟩

theorem numeric_scan (source : String) : Numeric (scan source).tokens := by
  intro t ht hk
  obtain ⟨l, hl, hpiece⟩ := List.mem_filterMap.mp (mem_of_mem_ofPieces ht)
  obtain ⟨hcls, _, htext, _⟩ := Lexeme.piece?_eq_ok_iff.mp hpiece
  have hnumeral := Lexeme.isNumeral_of_mem_lexemesFrom hl (by rw [hcls, hk])
  apply Numeral.ofText?_of_isNumeral
  rw [htext, String.toList_ofList]
  exact hnumeral

theorem numeric_of_tokens {source : String} {front back : List Token}
    (h : (scan source).tokens = front ++ back) : Numeric front := by
  have hn := numeric_scan source
  rw [h] at hn
  exact hn.left

theorem spells_of_parse {source : String} {e : Expr} (h : parse source = .ok e) :
    ∃ ds es, (scan source).error? = none ∧ SpellsSequence ds (scan source).tokens es ∧
      e = .block ⟨0, source.utf8ByteSize⟩ es := by
  obtain ⟨s, es, herror, hfeed, hfinish, rfl⟩ := parse_eq_ok_iff.mp h
  have hkinds : (scan source).tokens.map Token.kind = sequenceKinds (Expr.derivations es) := by
    rw [← kinds_of_finish hfinish, kinds_foldlM_feed hfeed]
    rfl
  obtain ⟨es', hes'⟩ := exists_spellsSequence _ hkinds (numeric_scan source)
  -- the parser is run along this derivation, so it can return nothing else
  have hstate : s = ⟨es'.reverse, .nothing, []⟩ :=
    Except.ok.inj (hfeed.symm.trans (foldlM_feed_start hes'))
  have hes : es = es' := by
    rw [hstate] at hfinish
    exact (Except.ok.inj hfinish).symm.trans (List.reverse_reverse es')
  subst hes
  exact ⟨_, es, herror, hes', rfl⟩

theorem parse_of_spells {source : String} {ds : List Derivation} {es : List Expr}
    (herror : (scan source).error? = none) (h : SpellsSequence ds (scan source).tokens es) :
    parse source = .ok (.block ⟨0, source.utf8ByteSize⟩ es) := by
  refine parse_eq_ok_iff.mpr ⟨_, es, herror, foldlM_feed_start h, ?_, rfl⟩
  exact congrArg Except.ok (List.reverse_reverse es)

theorem spellsProgram_append_endOf {source : String} {ds : List Derivation} {ts : List Token}
    {es : List Expr} :
    SpellsProgram ds (ts ++ [Token.endOf source]) es ↔ SpellsSequence ds ts es := by
  constructor
  · rintro ⟨us, stop, heq, _, hes⟩
    obtain ⟨rfl, _⟩ := List.append_inj' heq rfl
    exact hes
  · intro hes
    exact ⟨ts, Token.endOf source, rfl, rfl, hes⟩

/--
A source has a tree if and only if its tokens are a sentence of the grammar. The sentence has one
derivation, and the tree is the block of the expressions that the derivation makes of the tokens.
-/
theorem parse_eq_ok_iff_derivation (source : String) :
    ((∃ e, parse source = .ok e) ↔
      ∃ tokens, lex source = .ok tokens ∧ IsSentence (tokens.map Token.kind)) ∧
    ∀ e, parse source = .ok e ↔ ∃ tokens ds es, lex source = .ok tokens ∧
      (∀ ds', programKinds ds' = tokens.map Token.kind ↔ ds' = ds) ∧
      SpellsProgram ds tokens es ∧ e = .block ⟨0, source.utf8ByteSize⟩ es := by
  have hsound : ∀ e, parse source = .ok e → ∃ tokens ds es, lex source = .ok tokens ∧
      (∀ ds', programKinds ds' = tokens.map Token.kind ↔ ds' = ds) ∧
      SpellsProgram ds tokens es ∧ e = .block ⟨0, source.utf8ByteSize⟩ es := by
    intro e h
    obtain ⟨ds, es, herror, hes, he⟩ := spells_of_parse h
    have hkinds : programKinds ds =
        ((scan source).tokens ++ [Token.endOf source]).map Token.kind := by
      rw [programKinds, List.map_append, hes.kinds_eq]
      rfl
    refine ⟨_, ds, es, lex_eq_ok_iff.mpr ⟨herror, rfl⟩, ?_, spellsProgram_append_endOf.mpr hes, he⟩
    intro ds'
    rw [← hkinds]
    exact ⟨programKinds_injective, fun h => h ▸ rfl⟩
  refine ⟨⟨?_, ?_⟩, fun e => ⟨hsound e, ?_⟩⟩
  · rintro ⟨e, h⟩
    obtain ⟨tokens, ds, _, hlex, hunique, _⟩ := hsound e h
    exact ⟨tokens, hlex, ds, (hunique ds).mpr rfl⟩
  · rintro ⟨tokens, hlex, ds, hds⟩
    obtain ⟨herror, rfl⟩ := lex_eq_ok_iff.mp hlex
    have hkinds : (scan source).tokens.map Token.kind = sequenceKinds ds := by
      rw [programKinds, List.map_append] at hds
      exact (List.append_cancel_right hds).symm
    obtain ⟨es, hes⟩ := exists_spellsSequence ds hkinds (numeric_scan source)
    exact ⟨_, parse_of_spells herror hes⟩
  · rintro ⟨tokens, ds, es, hlex, _, hes, rfl⟩
    obtain ⟨herror, rfl⟩ := lex_eq_ok_iff.mp hlex
    exact parse_of_spells herror (spellsProgram_append_endOf.mp hes)

end Fexpr
