import Mathlib.Order.MinMax
import Fexpr.Expr.Parser

/-!
# Reading at other offsets

The parser decides by the kinds and the texts of tokens and only copies their places. If the offsets
in the tokens are mapped by a monotone function, then it goes through the same states to the same
tree or the same error, with the offsets in them mapped.
-/

namespace Fexpr

def Span.mapOffsets (f : Nat → Nat) (p : Span) : Span := ⟨f p.start, f p.stop⟩

def Token.mapOffsets (f : Nat → Nat) (t : Token) : Token := { t with span := t.span.mapOffsets f }

theorem Span.merge_mapOffsets {f : Nat → Nat} (hf : Monotone f) (a b : Span) :
    (a.mapOffsets f).merge (b.mapOffsets f) = (a.merge b).mapOffsets f := by
  simp only [merge, mapOffsets, hf.map_min, hf.map_max]

namespace Expr

variable (f : Nat → Nat)

mutual

def mapOffsets : Expr → Expr
  | literal p l => .literal (p.mapOffsets f) l
  | lookup p name => .lookup (p.mapOffsets f) name
  | reference p name => .reference (p.mapOffsets f) name
  | invocation p e args => .invocation (p.mapOffsets f) (mapOffsets e) (mapOffsetsAll args)
  | block p items => .block (p.mapOffsets f) (mapOffsetsAll items)

def mapOffsetsAll : List Expr → List Expr
  | [] => []
  | e :: es => mapOffsets e :: mapOffsetsAll es

end

theorem mapOffsetsAll_eq_map (es : List Expr) : mapOffsetsAll f es = es.map (mapOffsets f) := by
  induction es with
  | nil => rfl
  | cons e es ih => rw [mapOffsetsAll, ih, List.map_cons]

theorem span_mapOffsets (e : Expr) : (e.mapOffsets f).span = e.span.mapOffsets f := by
  cases e <;> rfl

theorem isCallable_mapOffsets (e : Expr) : (e.mapOffsets f).isCallable = e.isCallable := by
  cases e <;> rfl

end Expr

def CompileError.mapOffsets (f : Nat → Nat) : CompileError → CompileError
  | strayText found p => .strayText found (p.mapOffsets f)
  | unterminatedString start => .unterminatedString (f start)
  | unexpectedToken expected found => .unexpectedToken expected (found.mapOffsets f)
  | unexpectedEnd expected offset => .unexpectedEnd expected (f offset)
  | invalidCallee p => .invalidCallee (p.mapOffsets f)

def mapPlaces {α : Type} (f : Nat → Nat) (g : α → α) : Except CompileError α → Except CompileError α
  | .ok a => .ok (g a)
  | .error e => .error (e.mapOffsets f)

namespace Parser

def Bracket.mapOffsets (f : Nat → Nat) : Bracket → Bracket
  | brace opening => .brace (opening.mapOffsets f)
  | paren callee => .paren (callee.mapOffsets f)

def Pending.mapOffsets (f : Nat → Nat) : Pending → Pending
  | name sign => .name (sign.mapOffsets f)
  | p => p

namespace State

def mapOffsets (f : Nat → Nat) (s : State) : State where
  items := s.items.map (Expr.mapOffsets f)
  pending := s.pending.mapOffsets f
  brackets := s.brackets.map fun (b, before) => (b.mapOffsets f, before.map (Expr.mapOffsets f))

theorem phase_mapOffsets (f : Nat → Nat) (s : State) : (s.mapOffsets f).phase = s.phase := by
  obtain ⟨items, pending, brackets⟩ := s
  rcases brackets with _ | ⟨⟨_ | _, before⟩, outer⟩
  · rfl
  · rfl
  · cases items <;> cases pending <;> rfl

theorem unexpected_mapOffsets (f : Nat → Nat) (s : State) (t : Token) :
    (s.mapOffsets f).unexpected (t.mapOffsets f) =
      mapPlaces f (mapOffsets f) (s.unexpected t) := by
  rw [unexpected, unexpected, expectation, expectation, phase_mapOffsets]
  rfl

theorem begin_mapOffsets (f : Nat → Nat) (s next : State) (t : Token) :
    (s.mapOffsets f).begin (t.mapOffsets f) (next.mapOffsets f) =
      mapPlaces f (mapOffsets f) (s.begin t next) := by
  rw [begin, begin, phase_mapOffsets]
  split
  · exact unexpected_mapOffsets f s t
  · rfl

theorem call_mapOffsets (f : Nat → Nat) (s : State) (t : Token) :
    (s.mapOffsets f).call (t.mapOffsets f) = mapPlaces f (mapOffsets f) (s.call t) := by
  have hunexpected := unexpected_mapOffsets f s t
  rw [call, call, phase_mapOffsets]
  cases hphase : s.phase with
  | argument => exact hunexpected
  | sequence | separator =>
    obtain ⟨items, pending, brackets⟩ := s
    cases items with
    | nil => exact hunexpected
    | cons callee before =>
      simp only [mapOffsets, List.map_cons, Expr.isCallable_mapOffsets]
      split
      · rfl
      · rw [Expr.span_mapOffsets]
        rfl

section

variable {f : Nat → Nat} (hf : Monotone f)

include hf

theorem closeBrace_mapOffsets (s : State) (t : Token) :
    (s.mapOffsets f).closeBrace (t.mapOffsets f) =
      mapPlaces f (mapOffsets f) (s.closeBrace t) := by
  have hunexpected := unexpected_mapOffsets f s t
  obtain ⟨items, pending, brackets⟩ := s
  rcases brackets with _ | ⟨⟨opening | callee, before⟩, outer⟩
  · exact hunexpected
  · change Except.ok _ = Except.ok _
    simp only [mapOffsets, push, List.map_cons, Expr.mapOffsets, Expr.mapOffsetsAll_eq_map,
      List.map_reverse, ← Span.merge_mapOffsets hf]
    rfl
  · exact hunexpected

theorem closeParen_mapOffsets (s : State) (t : Token) :
    (s.mapOffsets f).closeParen (t.mapOffsets f) =
      mapPlaces f (mapOffsets f) (s.closeParen t) := by
  have hunexpected := unexpected_mapOffsets f s t
  obtain ⟨items, pending, brackets⟩ := s
  rcases brackets with _ | ⟨⟨opening | callee, before⟩, outer⟩
  · exact hunexpected
  · exact hunexpected
  · have hclose : Except.ok (State.mk (before.map (Expr.mapOffsets f)) .nothing
        (outer.map fun (b, before) => (b.mapOffsets f, before.map (Expr.mapOffsets f))) |>.push
          (.invocation ((callee.mapOffsets f).span.merge (t.span.mapOffsets f))
            (callee.mapOffsets f) (items.map (Expr.mapOffsets f)).reverse)) =
        mapPlaces f (mapOffsets f) (.ok (State.mk before .nothing outer |>.push
          (.invocation (callee.span.merge t.span) callee items.reverse))) := by
      simp only [mapPlaces, mapOffsets, push, List.map_cons, Expr.mapOffsets,
        Expr.mapOffsetsAll_eq_map, List.map_reverse, Expr.span_mapOffsets,
        ← Span.merge_mapOffsets hf]
      rfl
    cases pending with
    | nothing => exact hclose
    | argument => exact hunexpected
    | name sign => exact hclose

theorem feed_mapOffsets (s : State) (t : Token) :
    (s.mapOffsets f).feed (t.mapOffsets f) = mapPlaces f (mapOffsets f) (s.feed t) := by
  have hunexpected := unexpected_mapOffsets f s t
  obtain ⟨items, pending, brackets⟩ := s
  obtain ⟨kind, text, span⟩ := t
  cases pending with
  | name sign =>
    cases kind with
    | ident =>
      change Except.ok (push _ (.reference ((sign.mapOffsets f).merge (span.mapOffsets f)) text)) =
        Except.ok (mapOffsets f (push _ _))
      rw [Span.merge_mapOffsets hf]
      rfl
    | _ => rfl
  | nothing | argument =>
    cases kind with
    | number =>
      exact begin_mapOffsets f _
        (push _ (.literal span (.number (numberOf ⟨.number, text, span⟩)))) _
    | string => exact begin_mapOffsets f _ (push _ (.literal span (.string (Text.unescape text)))) _
    | ident => exact begin_mapOffsets f _ (push _ (.lookup span text)) _
    | atSign => exact begin_mapOffsets f _ ⟨items, .name span, brackets⟩ _
    | leftBrace => exact begin_mapOffsets f _ (openBrace _ span) _
    | leftParen => exact call_mapOffsets f _ _
    | rightBrace => exact closeBrace_mapOffsets hf _ _
    | rightParen => exact closeParen_mapOffsets hf _ _
    | comma =>
      change ite _ _ _ = mapPlaces f _ (ite _ _ _)
      rw [phase_mapOffsets]
      split
      · rfl
      · exact hunexpected
    | unterminated | endOfInput => exact hunexpected

theorem foldlM_feed_mapOffsets (s : State) (ts : List Token) :
    (ts.map (Token.mapOffsets f)).foldlM feed (s.mapOffsets f) =
      mapPlaces f (mapOffsets f) (ts.foldlM feed s) := by
  induction ts generalizing s with
  | nil => rfl
  | cons t ts ih =>
    rw [List.map_cons, List.foldlM_cons, List.foldlM_cons, feed_mapOffsets hf]
    cases s.feed t with
    | ok s' => exact ih s'
    | error e => rfl

end

theorem finish_mapOffsets (f : Nat → Nat) (s : State) :
    (s.mapOffsets f).finish = s.finish.map (·.map (Expr.mapOffsets f)) := by
  obtain ⟨items, pending, brackets⟩ := s
  rcases brackets with _ | ⟨⟨opening | callee, before⟩, outer⟩
  · cases pending with
    | name sign => rfl
    | nothing | argument => exact congrArg Except.ok List.map_reverse.symm
  · cases pending <;> rfl
  · cases pending with
    | name sign => rfl
    | nothing | argument =>
      change Except.error (expectation (mapOffsets f _)) = Except.error (expectation _)
      rw [expectation, expectation, phase_mapOffsets]

end State

end Parser

end Fexpr
