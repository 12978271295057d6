import Fexpr.Proofs.Coverage
import Fexpr.Proofs.Offsets

/-!
# Tokens written and read back

Tokens are written one after another, with white space and comments before, between and after them.
Scanning the text gives them back, each at the place where it was written. So the tree of a text
depends on its tokens alone, up to places.
-/

namespace Fexpr

theorem Pattern.Matches.ne_nil {cls : Lexeme.Class} {text : List Char} (h : Matches cls text) :
    text ≠ [] := by
  have hone : ∀ p, [] ∉ one p := by
    rintro p ⟨c, -, heq⟩
    cases heq
  have hmul : ∀ p l, [] ∉ one p * l := by
    intro p l hnil
    obtain ⟨c, w, -, -, heq⟩ := mem_one_mul.mp hnil
    cases heq
  have hnumber : [] ∉ number := by
    intro hnil
    cases mem_number.mp hnil with
    | plain h => exact h.ne_nil rfl
  rintro rfl
  obtain ⟨l, hl, hnil⟩ := h
  have hall : ∀ entry ∈ declared, [] ∉ entry.2 := by
    simp only [declared, List.forall_mem_cons]
    exact ⟨hmul _ _, hmul _ _, hmul _ _, hnumber, hmul _ _, hmul _ _, hmul _ _, hmul _ _, hmul _ _,
      hone _, hone _, hone _, hone _, hone _, hone _, by simp⟩
  exact hall _ hl hnil

namespace Lexeme

open Pattern Text

def OpensGap (x : Char) : Prop := isSpace x = true ∨ x = '/'

theorem OpensGap.endsNumber {x : Char} (h : OpensGap x) : EndsNumber x := by
  rcases h with h | rfl
  · refine ⟨not_isDigit_of_isSpace h, fun hx => ?_⟩
    simp only [List.mem_cons, List.not_mem_nil, or_false] at hx
    rcases hx with rfl | rfl | rfl | rfl | rfl <;> cases h
  · exact ⟨rfl, by decide⟩

theorem OpensGap.not_isNamePart {x : Char} (h : OpensGap x) : isNamePart x = false := by
  rcases h with h | rfl
  · rw [isNamePart, not_isNameStart_of_isSpace h, not_isDigit_of_isSpace h, Bool.or_self]
  · rfl

theorem opensGap_of_mem_gap {g : List Char} (hg : g ∈ gap) : ∀ x ∈ g.head?, OpensGap x := by
  intro x hx
  cases g with
  | nil => cases hx
  | cons c g =>
    obtain rfl : c = x := Option.some.inj hx
    exact (mem_gap_cons hg).imp_left And.left

theorem opensGap_of_mem_lastGap {u : List Char} (hu : u ∈ lastGap) :
    ∀ x ∈ u.head?, OpensGap x := by
  obtain ⟨g, hg, tail, htail, rfl⟩ := Language.mem_mul.mp hu
  intro x hx
  cases g with
  | nil =>
    rcases mem_maybe.mp htail with rfl | hline
    · cases hx
    · obtain ⟨c, w, rfl, -, rfl⟩ := mem_one_mul.mp hline
      exact .inr (Option.some.inj hx).symm
  | cons c g => exact opensGap_of_mem_gap hg x hx

theorem numberLength_le_of_opensGap {w rest : List Char} (hrest : ∀ x ∈ rest.head?, OpensGap x) :
    numberLength (w ++ rest) ≤ w.length := by
  cases rest with
  | nil =>
    rw [List.append_nil]
    exact numberLength_le w
  | cons x rest =>
    rw [numberLength_append (hrest x rfl).endsNumber]
    exact numberLength_le w

theorem munch_le_of_opensGap {kind : Token.Kind} {c : Char} {w rest : List Char}
    (h : Matches (.token kind) (c :: w)) (hkind : kind ≠ .unterminated)
    (hrest : ∀ x ∈ rest.head?, OpensGap x) : (munch c (w ++ rest)).2 ≤ w.length := by
  obtain ⟨l, hl, hw⟩ := h
  simp only [declared, List.mem_cons, Prod.mk.injEq, List.not_mem_nil, or_false, reduceCtorEq,
    Class.token.injEq, hkind, false_and, false_or] at hl
  rcases hl with ⟨rfl, rfl⟩ | ⟨rfl, rfl⟩ | ⟨rfl, rfl⟩ | ⟨rfl, rfl⟩ | hl
  · generalize hcs : c :: w = cs at hw
    cases mem_number.mp hw with
    | plain h =>
      subst hcs
      obtain ⟨hc, -⟩ := le_numberLength h rest
      rw [munch_digit hc]
      exact numberLength_le_of_opensGap hrest
    | negative h =>
      obtain ⟨rfl, rfl⟩ := List.cons.inj hcs
      obtain ⟨d, ds, rfl⟩ := List.exists_cons_of_ne_nil h.ne_nil
      obtain ⟨hd, -⟩ := le_numberLength h rest
      have hle : numberLength (ds ++ rest) ≤ ds.length := numberLength_le_of_opensGap hrest
      rw [List.cons_append, munch_minus hd, List.length_cons]
      simp only
      omega
  · rw [munch_string (.inl rfl) hw]
  · rw [munch_string (.inr rfl) hw]
  · obtain ⟨hc, hparts⟩ := mem_ident.mp hw
    have hrun : run isNamePart (w ++ rest) = w.length := by
      apply run_append_of_all (List.all_eq_true.mpr hparts)
      intro x hx
      simp [(hrest x hx).not_isNamePart]
    rw [munch_name hc, hrun]
  · rcases hl with ⟨rfl, rfl⟩ | ⟨rfl, rfl⟩ | ⟨rfl, rfl⟩ | ⟨rfl, rfl⟩ | ⟨rfl, rfl⟩ | ⟨rfl, rfl⟩ <;>
    · obtain ⟨_, rfl, heq⟩ := hw
      obtain ⟨rfl, rfl⟩ := List.cons.inj heq
      exact Nat.zero_le 0

theorem step_of_opensGap {kind : Token.Kind} {text rest : List Char}
    (h : Matches (.token kind) text) (hkind : kind ≠ .unterminated)
    (hrest : ∀ x ∈ rest.head?, OpensGap x) : Step (text ++ rest) (.token kind) text := by
  obtain ⟨c, w, rfl⟩ := List.exists_cons_of_ne_nil h.ne_nil
  have hwithin := within_of_matches h rest
  have hlength : (munch c (w ++ rest)).2 = w.length :=
    Nat.le_antisymm (munch_le_of_opensGap h hkind hrest) hwithin.length_le
  apply step_of_munch
  exact Prod.ext (hwithin.cls_eq hlength.symm) hlength

end Lexeme

open Pattern Text

/-- A token to be written. A quote that is never closed has a pattern as well, but it is an error
and not a token. -/
structure Word where
  kind : Token.Kind
  text : List Char
  found : Matches (.token kind) text
  closed : kind ≠ .unterminated

/-- What is written before, between and after words: gaps that are not empty between them, and any
gap at either end. -/
structure Spacing where
  lead : List Char
  between : Nat → List Char
  trail : List Char
  lead_mem : lead ∈ gap
  between_mem : ∀ i, between i ∈ gap
  between_ne_nil : ∀ i, between i ≠ []
  trail_mem : trail ∈ lastGap

namespace Spacing

variable (s : Spacing)

def textFrom : Nat → List Word → List Char
  | _, [] => s.trail
  | _, [w] => w.text ++ s.trail
  | i, w :: ws => w.text ++ (s.between i ++ textFrom (i + 1) ws)

def write (ws : List Word) : String := String.ofList (s.lead ++ s.textFrom 0 ws)

def placeFrom : Nat → Nat → List Word → List Token
  | _, _, [] => []
  | offset, i, w :: ws =>
    ⟨w.kind, String.ofList w.text, ⟨offset, offset + byteSize w.text⟩⟩ ::
      placeFrom (offset + byteSize w.text + byteSize (s.between i)) (i + 1) ws

def place (ws : List Word) : List Token := s.placeFrom (byteSize s.lead) 0 ws

open Lexeme in
theorem piecesFrom_word (w : Word) {rest : List Char} (hrest : ∀ x ∈ rest.head?, OpensGap x)
    (offset : Nat) : piecesFrom offset (w.text ++ rest) =
      .ok ⟨w.kind, String.ofList w.text, ⟨offset, offset + byteSize w.text⟩⟩ ::
        piecesFrom (offset + byteSize w.text) rest := by
  have hpiece : piece? ⟨.token w.kind, w.text, offset⟩ =
      some (.ok ⟨w.kind, String.ofList w.text, ⟨offset, offset + byteSize w.text⟩⟩) :=
    piece?_eq_ok_iff.mpr ⟨rfl, w.closed, rfl, rfl⟩
  rw [piecesFrom_of_step (step_of_opensGap w.found w.closed hrest), hpiece]
  rfl

open Lexeme in
theorem piecesFrom_textFrom (offset i : Nat) (ws : List Word) :
    piecesFrom offset (s.textFrom i ws) = (s.placeFrom offset i ws).map .ok := by
  fun_induction textFrom s i ws generalizing offset with
  | case1 => exact piecesFrom_lastGap s.trail_mem offset
  | case2 i w =>
    rw [piecesFrom_word w (opensGap_of_mem_lastGap s.trail_mem), piecesFrom_lastGap s.trail_mem]
    rfl
  | case3 i w ws hne ih =>
    have hopens : ∀ x ∈ (s.between i ++ s.textFrom (i + 1) ws).head?, OpensGap x := by
      rw [List.head?_append_of_ne_nil _ (s.between_ne_nil i)]
      exact opensGap_of_mem_gap (s.between_mem i)
    rw [piecesFrom_word w hopens, piecesFrom_gap (s.between_mem i), ih]
    rfl

theorem pieces_write (ws : List Word) : pieces (s.write ws) = (s.place ws).map .ok := by
  rw [pieces, write, String.toList_ofList]
  change Lexeme.piecesFrom 0 _ = _
  rw [Lexeme.piecesFrom_gap s.lead_mem, piecesFrom_textFrom, Nat.zero_add, place]

theorem scan_write (ws : List Word) : scan (s.write ws) = ⟨s.place ws, none⟩ := by
  rw [scan, pieces_write, Scan.ofPieces_map_ok]

end Spacing

namespace Word

def alone (w : Word) : Token := ⟨w.kind, String.ofList w.text, ⟨0, byteSize w.text⟩⟩

theorem scan_alone (w : Word) : scan (String.ofList w.text) = ⟨[w.alone], none⟩ := by
  have hpieces : pieces (String.ofList w.text) = [w.alone].map .ok := by
    rw [pieces, String.toList_ofList, ← List.append_nil w.text]
    change Lexeme.piecesFrom 0 (w.text ++ []) = _
    rw [Spacing.piecesFrom_word w (by simp), Lexeme.piecesFrom_nil, Nat.zero_add]
    rfl
  rw [scan, hpieces, Scan.ofPieces_map_ok]

theorem lex_alone (w : Word) : lex (String.ofList w.text) =
    .ok [w.alone, Token.endOf (String.ofList w.text)] := by
  rw [lex, scan_alone]
  rfl

open Grammar in
theorem parse_alone (w : Word) {d : Derivation} {e : Expr} (h : Spells d [w.alone] e) :
    parse (String.ofList w.text) = .ok (.block w.alone.span [e]) := by
  have hscan := w.scan_alone
  have hsequence : SpellsSequence [d] (scan (String.ofList w.text)).tokens [e] := by
    rw [hscan]
    exact .cons h .nil
  rw [parse_of_spells (by rw [hscan]) hsequence, utf8ByteSize_ofList]
  rfl

end Word

def Token.withoutSpan (t : Token) : Token := { t with span := default }

def Expr.withoutSpans (e : Expr) : Expr := e.mapOffsets fun _ => 0

def forgetPlaces {α : Type} (f : α → α) (r : Except CompileError α) : Except CompileError α :=
  mapPlaces (fun _ => 0) f r

open Parser.State in
/-- Up to places, the tree of a text without lexical errors depends on its tokens alone. -/
theorem forgetPlaces_parse {a b : String} (ha : (scan a).error? = none)
    (hb : (scan b).error? = none)
    (h : (scan a).tokens.map Token.withoutSpan = (scan b).tokens.map Token.withoutSpan) :
    forgetPlaces Expr.withoutSpans (parse a) = forgetPlaces Expr.withoutSpans (parse b) := by
  have hfeed : mapPlaces (fun _ => 0) (mapOffsets fun _ => 0) ((scan a).tokens.foldlM feed start) =
      mapPlaces (fun _ => 0) (mapOffsets fun _ => 0) ((scan b).tokens.foldlM feed start) := by
    rw [← foldlM_feed_mapOffsets monotone_const, ← foldlM_feed_mapOffsets monotone_const]
    exact congrArg (List.foldlM feed start) h
  unfold forgetPlaces parse
  simp only [bind, Except.bind, ha, hb]
  generalize (scan a).tokens.foldlM feed start = x at hfeed
  generalize (scan b).tokens.foldlM feed start = y at hfeed
  cases x with
  | error e =>
    cases y with
    | error e' => exact congrArg Except.error (Except.error.inj hfeed)
    | ok s' => cases hfeed
  | ok s =>
    cases y with
    | error e' => cases hfeed
    | ok s' =>
      have hfinish : s.finish.map (·.map (Expr.mapOffsets fun _ => 0)) =
          s'.finish.map (·.map (Expr.mapOffsets fun _ => 0)) := by
        rw [← finish_mapOffsets, Except.ok.inj hfeed, finish_mapOffsets]
      simp only
      generalize s.finish = r at hfinish
      generalize s'.finish = r' at hfinish
      cases r with
      | error expected =>
        cases r' with
        | error expected' =>
          obtain rfl : expected = expected' := Except.error.inj hfinish
          rfl
        | ok es' => cases hfinish
      | ok es =>
        cases r' with
        | error expected' => cases hfinish
        | ok es' =>
          have hes : Expr.mapOffsetsAll (fun _ => 0) es = Expr.mapOffsetsAll (fun _ => 0) es' := by
            rw [Expr.mapOffsetsAll_eq_map, Expr.mapOffsetsAll_eq_map]
            exact Except.ok.inj hfinish
          simp only [mapPlaces, Expr.withoutSpans, Expr.mapOffsets, hes]
          rfl

namespace Spacing

theorem map_placeFrom (s s' : Spacing) (offset offset' i i' : Nat) (ws : List Word) :
    (s.placeFrom offset i ws).map Token.withoutSpan =
      (s'.placeFrom offset' i' ws).map Token.withoutSpan := by
  induction ws generalizing offset offset' i i' with
  | nil => rfl
  | cons w ws ih =>
    rw [placeFrom, placeFrom, List.map_cons, List.map_cons, ih]
    rfl

/-- Words are read back as they were written, and the tree does not depend on what lies between
them. -/
theorem lex_write (s : Spacing) (ws : List Word) :
    lex (s.write ws) = .ok (s.place ws ++ [Token.endOf (s.write ws)]) ∧
    ∀ s' : Spacing, forgetPlaces Expr.withoutSpans (parse (s.write ws)) =
      forgetPlaces Expr.withoutSpans (parse (s'.write ws)) := by
  constructor
  · rw [lex, scan_write]
  · intro s'
    apply forgetPlaces_parse
    · rw [scan_write]
    · rw [scan_write]
    · rw [scan_write, scan_write]
      exact map_placeFrom s s' _ _ 0 0 ws

end Spacing

end Fexpr
