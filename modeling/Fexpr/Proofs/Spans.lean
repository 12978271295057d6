import Fexpr.Proofs.LongestMatch

/-!
# Spans

The tokens of a source lie one behind the other. A node of the tree is spelled by consecutive tokens
and its span goes from the first to the last of them, so parts lie inside their whole, in order. Cut
out of the source, the text of a span is scanned as it was in its place: a longer match would have
been longer there too. So it parses to the node alone.
-/

namespace Fexpr

namespace Lexeme

open Text

theorem Longest.cut {rest rest' text : List Char} {cls : Class} (h : Longest rest cls text)
    (hcut : rest' <+: rest) (htext : text <+: rest') : Longest rest' cls text where
  candidate := ⟨h.candidate.ne_nil, htext, h.candidate.found⟩
  length_le h' := h.length_le ⟨h'.ne_nil, h'.front.trans hcut, h'.found⟩
  cls_eq h' := h.cls_eq ⟨h'.ne_nil, h'.front.trans hcut, h'.found⟩

theorem lexemesFrom_of_cut {offset : Nat} {cs : List Char} {kept dropped : List Lexeme}
    (h : lexemesFrom offset cs = kept ++ dropped) (hkept : ∀ l ∈ kept, l.cls ≠ .stray) :
    lexemesFrom offset (kept.flatMap text) = kept := by
  induction kept generalizing offset cs with
  | nil => rw [List.flatMap_nil, lexemesFrom]
  | cons l kept ih =>
    have hall : l.text ++ (kept.flatMap text ++ dropped.flatMap text) = cs := by
      rw [← flatMap_text_lexemesFrom offset cs, h, List.flatMap_append, List.flatMap_cons,
        List.append_assoc]
    obtain ⟨hstep, hstart⟩ := step_of_mem_lexemesFrom h
    have hlongest := hstep.longest_of_ne (hkept l List.mem_cons_self)
    have hcut : Step (l.text ++ kept.flatMap text) l.cls l.text := by
      refine .longest (hlongest.cut ?_ (List.prefix_append _ _))
      rw [← hall, ← List.append_assoc]
      exact List.prefix_append _ _
    have hrest : lexemesFrom (offset + byteSize l.text)
        (kept.flatMap text ++ dropped.flatMap text) = kept ++ dropped := by
      rw [← hall] at h hstep
      rw [lexemesFrom_of_step hstep] at h
      exact (List.cons.inj h).2
    rw [List.flatMap_cons, lexemesFrom_of_step hcut,
      ih hrest fun l' hl' => hkept l' (List.mem_cons_of_mem l hl'), ← hstart]

end Lexeme

def Laid (lo hi : Nat) : List Token → Prop
  | [] => lo ≤ hi
  | t :: ts => lo ≤ t.span.start ∧ t.span.start < t.span.stop ∧ Laid t.span.stop hi ts

theorem Laid.le {lo hi : Nat} {ts : List Token} (h : Laid lo hi ts) : lo ≤ hi := by
  induction ts generalizing lo with
  | nil => exact h
  | cons t ts ih =>
    obtain ⟨hlo, hlt, hs⟩ := h
    have := ih hs
    omega

theorem laid_append {lo hi : Nat} {ts us : List Token} :
    Laid lo hi (ts ++ us) ↔ ∃ mid, Laid lo mid ts ∧ Laid mid hi us := by
  induction ts generalizing lo with
  | nil =>
    constructor
    · intro h
      exact ⟨lo, Nat.le_refl lo, h⟩
    · rintro ⟨mid, hlo, h⟩
      cases us with
      | nil => exact Nat.le_trans hlo h
      | cons u us => exact ⟨Nat.le_trans hlo h.1, h.2⟩
  | cons t ts ih =>
    constructor
    · rintro ⟨hlo, hlt, hs⟩
      obtain ⟨mid, hts, hus⟩ := ih.mp hs
      exact ⟨mid, ⟨hlo, hlt, hts⟩, hus⟩
    · rintro ⟨mid, ⟨hlo, hlt, hts⟩, hus⟩
      exact ⟨hlo, hlt, ih.mpr ⟨mid, hts, hus⟩⟩

open Lexeme Text in
theorem laid_of_filterMap {offset : Nat} {cs : List Char} {ts : List Token}
    (h : (lexemesFrom offset cs).filterMap piece? = ts.map .ok) :
    Laid offset (offset + byteSize cs) ts := by
  fun_induction lexemesFrom offset cs generalizing ts with
  | case1 offset =>
    obtain rfl := List.map_eq_nil_iff.mp h.symm
    exact Nat.le_refl offset
  | case2 offset c cs cls n hm text =>
    rename_i ih
    have hsize : byteSize (c :: cs) = byteSize text + byteSize (cs.drop n) := by
      rw [← byteSize_append, List.cons_append, List.take_append_drop]
    have hpos : 0 < byteSize text := byteSize_pos (List.cons_ne_nil _ _)
    rw [hsize, ← Nat.add_assoc]
    cases hpiece : piece? ⟨cls, text, offset⟩ with
    | none =>
      rw [List.filterMap_cons_none hpiece] at h
      have hmid : Laid offset (offset + byteSize text) [] := Nat.le_add_right _ _
      exact laid_append.mpr ⟨_, hmid, ih h⟩
    | some p =>
      rw [List.filterMap_cons_some hpiece] at h
      obtain ⟨t, us, rfl, rfl, hus⟩ := List.map_eq_cons_iff.mp h.symm
      obtain ⟨-, -, -, hspan⟩ := piece?_eq_ok_iff.mp hpiece
      have hspan : t.span = ⟨offset, offset + byteSize text⟩ := hspan
      refine ⟨?_, ?_, ?_⟩
      · rw [hspan]
      · rw [hspan]
        simp only
        omega
      · rw [hspan]
        exact ih hus.symm

theorem Laid.bounds {lo hi : Nat} {ts : List Token} (h : Laid lo hi ts) {t : Token}
    (ht : t ∈ ts) : lo ≤ t.span.start ∧ t.span.start < t.span.stop ∧ t.span.stop ≤ hi := by
  obtain ⟨us, vs, rfl⟩ := List.append_of_mem ht
  obtain ⟨mid, hus, hlo, hlt, hvs⟩ := laid_append.mp h
  have := hus.le
  have := hvs.le
  omega

namespace Grammar

def Covers (p : Span) (ts : List Token) : Prop :=
  ∃ first rest init last, ts = first :: rest ∧ ts = init ++ [last] ∧
    p = ⟨first.span.start, last.span.stop⟩

theorem Covers.ne_nil {p : Span} {ts : List Token} (h : Covers p ts) : ts ≠ [] := by
  obtain ⟨_, _, _, _, rfl, -⟩ := h
  exact List.cons_ne_nil _ _

theorem Covers.unique {p q : Span} {ts : List Token} (h : Covers p ts) (h' : Covers q ts) :
    p = q := by
  obtain ⟨first, rest, init, last, rfl, hlast, rfl⟩ := h
  obtain ⟨first', rest', init', last', hfirst, hlast', rfl⟩ := h'
  obtain ⟨rfl, -⟩ := List.cons.inj hfirst
  obtain ⟨-, hsame⟩ := List.append_inj' (hlast.symm.trans hlast') rfl
  rw [(List.cons.inj hsame).1]

theorem Head.Spells.covers {form : Head} {ts : List Token} {e : Expr} (h : form.Spells ts e)
    {lo hi : Nat} (hlaid : Laid lo hi ts) : Covers e.span ts := by
  cases h with
  | @name t ht => exact ⟨t, [], [], t, rfl, rfl, rfl⟩
  | @reference sign t hs ht =>
    obtain ⟨-, hsign, hnext, hname, -⟩ := hlaid
    refine ⟨sign, [t], [sign], t, rfl, rfl, ?_⟩
    simp only [Expr.span, Span.merge, Span.mk.injEq]
    omega

theorem Spells.covers {d : Derivation} {ts : List Token} {e : Expr} (h : Spells d ts e)
    {lo hi : Nat} (hlaid : Laid lo hi ts) : Covers e.span ts := by
  cases h with
  | @number t n ht hn => exact ⟨t, [], [], t, rfl, rfl, rfl⟩
  | @string t ht => exact ⟨t, [], [], t, rfl, rfl, rfl⟩
  | head h => exact h.covers hlaid
  | @call form args us vs opening closing callee es hc ho ha hl =>
    obtain ⟨mid, hus, hrest⟩ := laid_append.mp hlaid
    obtain ⟨first, rest, init, last, hfirst, hlast, hspan⟩ := hc.covers hus
    have hfront := hus.bounds (t := first) (by simp [hfirst])
    have hback := hus.bounds (t := last) (by simp [hlast])
    have hclosing := hrest.bounds (t := closing) (by simp)
    refine ⟨first, rest ++ opening :: (vs ++ [closing]), us ++ opening :: vs, closing, ?_, ?_, ?_⟩
    · rw [hfirst, List.cons_append]
    · rw [List.append_assoc, List.cons_append]
    · change callee.span.merge closing.span = _
      simp only [hspan, Span.merge, Span.mk.injEq]
      omega
  | @block items us opening closing es ho hi hl =>
    obtain ⟨-, hopening, hrest⟩ := hlaid
    have hclosing := hrest.bounds (t := closing) (by simp)
    refine ⟨opening, us ++ [closing], opening :: us, closing, rfl, rfl, ?_⟩
    simp only [Expr.span, Span.merge, Span.mk.injEq]
    omega

theorem Covers.bounds {p : Span} {ts : List Token} (h : Covers p ts) {lo hi : Nat}
    (hlaid : Laid lo hi ts) : lo ≤ p.start ∧ p.start < p.stop ∧ p.stop ≤ hi := by
  obtain ⟨first, rest, init, last, hfirst, hlast, rfl⟩ := h
  have hback := hlaid.bounds (t := last) (by simp [hlast])
  rw [hfirst] at hlaid
  have hmem : last ∈ first :: rest := by simp [← hfirst, hlast]
  have hfront := hlaid.1
  have hle : first.span.start ≤ last.span.start := by
    rcases List.mem_cons.mp hmem with rfl | hmem
    · exact Nat.le_refl _
    · have := (hlaid.2.2.bounds hmem).1
      have := hlaid.2.1
      omega
  simp only
  omega

theorem Covers.laid {p : Span} {ts : List Token} (h : Covers p ts) {lo hi : Nat}
    (hlaid : Laid lo hi ts) : Laid p.start p.stop ts := by
  obtain ⟨first, rest, init, last, hfirst, hlast, rfl⟩ := h
  have hfront : Laid first.span.start hi ts := by
    rw [hfirst] at hlaid ⊢
    exact ⟨Nat.le_refl _, hlaid.2⟩
  rw [hlast] at hfront ⊢
  obtain ⟨mid, hinit, hmid, hlt, -⟩ := laid_append.mp hfront
  exact laid_append.mpr ⟨mid, hinit, hmid, hlt, Nat.le_refl _⟩

/-- Expressions spelled by consecutive tokens, with other tokens before, between and after them. -/
inductive Parts : List Expr → List Token → Prop
  | nil (ts : List Token) : Parts [] ts
  | cons {between ts rest : List Token} {d : Derivation} {e : Expr} {es : List Expr}
    (h : Spells d ts e) (hs : Parts es rest) : Parts (e :: es) (between ++ (ts ++ rest))

theorem Parts.front {es : List Expr} {ts : List Token} (h : Parts es ts) (us : List Token) :
    Parts es (us ++ ts) := by
  cases h with
  | nil ts => exact .nil _
  | cons h hs =>
    rw [← List.append_assoc]
    exact .cons h hs

theorem Parts.back {es : List Expr} {ts : List Token} (h : Parts es ts) (us : List Token) :
    Parts es (ts ++ us) := by
  induction h with
  | nil ts => exact .nil _
  | cons h _ ih =>
    rw [List.append_assoc, List.append_assoc]
    exact .cons h ih

theorem SpellsSequence.parts {ds : List Derivation} {ts : List Token} {es : List Expr}
    (h : SpellsSequence ds ts es) : Parts es ts := by
  induction ds generalizing ts es with
  | nil =>
    cases h
    exact .nil _
  | cons d ds ih =>
    cases h with
    | cons h hs => exact @Parts.cons [] _ _ _ _ _ h (ih hs)

theorem SpellsFurther.parts {ds : List Derivation} {ts : List Token} {es : List Expr}
    (h : SpellsFurther ds ts es) : Parts es ts := by
  induction ds generalizing ts es with
  | nil =>
    cases h
    exact .nil _
  | cons d ds ih =>
    cases h with
    | @cons _ _ _ _ comma _ _ hc h hs => exact @Parts.cons [comma] _ _ _ _ _ h (ih hs)

theorem SpellsArguments.parts {ds : List Derivation} {ts : List Token} {es : List Expr}
    (h : SpellsArguments ds ts es) : Parts es ts := by
  cases h with
  | nil => exact .nil _
  | cons h hs => exact @Parts.cons [] _ _ _ _ _ h hs.parts

end Grammar

namespace Expr

open Grammar

def children : Expr → List Expr
  | literal _ _ | lookup _ _ | reference _ _ => []
  | invocation _ callee args => callee :: args
  | block _ items => items

inductive IsNode (root : Expr) : Expr → Prop
  | root : IsNode root root
  | child {e part : Expr} (h : IsNode root e) (hpart : part ∈ e.children) : IsNode root part

def Before (e e' : Expr) : Prop := e.span.stop ≤ e'.span.start

end Expr

namespace Grammar

theorem Spells.parts {d : Derivation} {ts : List Token} {e : Expr} (h : Spells d ts e) :
    Parts e.children ts := by
  cases h with
  | number ht hn => exact .nil _
  | string ht => exact .nil _
  | head h => cases h <;> exact .nil _
  | @call form args us vs opening closing callee es hc ho ha hl =>
    have hargs : Parts es ([opening] ++ (vs ++ [closing])) := (ha.parts.back [closing]).front _
    exact @Parts.cons [] _ _ _ _ _ (.head hc) hargs
  | @block items us opening closing es ho hi hl => exact (hi.parts.back [closing]).front [opening]

theorem Parts.spans {es : List Expr} {ts : List Token} (h : Parts es ts) {lo hi : Nat}
    (hlaid : Laid lo hi ts) : es.Pairwise Expr.Before ∧
      ∀ e ∈ es, lo ≤ e.span.start ∧ e.span.start < e.span.stop ∧ e.span.stop ≤ hi := by
  induction h generalizing lo with
  | nil ts => exact ⟨List.Pairwise.nil, by simp⟩
  | @cons between ts rest d e es h _ ih =>
    obtain ⟨mid, hbetween, hrest⟩ := laid_append.mp hlaid
    obtain ⟨mid', hts, hrest⟩ := laid_append.mp hrest
    obtain ⟨hpairwise, hbounds⟩ := ih hrest
    have hspan := (h.covers hts).bounds hts
    have hle := hbetween.le
    have hle' := hrest.le
    refine ⟨List.pairwise_cons.mpr ⟨?_, hpairwise⟩, ?_⟩
    · intro e' he'
      have := hbounds e' he'
      unfold Expr.Before
      omega
    · intro e' he'
      rcases List.mem_cons.mp he' with rfl | he'
      · omega
      · have := hbounds e' he'
        omega

theorem Parts.spelled {es : List Expr} {ts : List Token} (h : Parts es ts) {e : Expr}
    (he : e ∈ es) : ∃ us vs ws d, ts = us ++ (vs ++ ws) ∧ Spells d vs e := by
  induction h with
  | nil ts => cases he
  | @cons between ts rest d e' es h _ ih =>
    rcases List.mem_cons.mp he with rfl | he
    · exact ⟨between, ts, rest, d, rfl, h⟩
    · obtain ⟨us, vs, ws, d', rfl, hvs⟩ := ih he
      exact ⟨between ++ (ts ++ us), vs, ws, d', by simp only [List.append_assoc], hvs⟩

def Placed (tokens : List Token) (e : Expr) : Prop :=
  ∃ us ts vs, tokens = us ++ (ts ++ vs) ∧ Parts e.children ts ∧ Laid e.span.start e.span.stop ts

theorem placed_of_spells {us ts vs : List Token} {d : Derivation} {e : Expr}
    (h : Spells d ts e) {lo hi : Nat} (hlaid : Laid lo hi (us ++ (ts ++ vs))) :
    Placed (us ++ (ts ++ vs)) e := by
  obtain ⟨mid, -, hrest⟩ := laid_append.mp hlaid
  obtain ⟨mid', hts, -⟩ := laid_append.mp hrest
  exact ⟨us, ts, vs, rfl, h.parts, (h.covers hts).laid hts⟩

theorem Placed.spans {tokens : List Token} {e : Expr} (h : Placed tokens e) :
    e.children.Pairwise Expr.Before ∧ ∀ part ∈ e.children, e.span.start ≤ part.span.start ∧
      part.span.start < part.span.stop ∧ part.span.stop ≤ e.span.stop := by
  obtain ⟨us, ts, vs, -, hparts, hlaid⟩ := h
  exact hparts.spans hlaid

theorem Placed.spelled {tokens : List Token} {e part : Expr} (h : Placed tokens e)
    (hpart : part ∈ e.children) :
    ∃ us ts vs d, tokens = us ++ (ts ++ vs) ∧ Spells d ts part := by
  obtain ⟨us, ts, vs, rfl, hparts, -⟩ := h
  obtain ⟨us', ts', vs', d, rfl, hspells⟩ := hparts.spelled hpart
  exact ⟨us ++ us', ts', vs' ++ vs, d, by simp only [List.append_assoc], hspells⟩

theorem placed_of_isNode {tokens : List Token} {lo hi : Nat} (hlaid : Laid lo hi tokens)
    {root e : Expr} (hroot : Placed tokens root) (h : root.IsNode e) : Placed tokens e := by
  induction h with
  | root => exact hroot
  | child _ hpart ih =>
    obtain ⟨us, ts, vs, d, rfl, hspells⟩ := ih.spelled hpart
    exact placed_of_spells hspells hlaid

end Grammar

namespace Lexeme

open Text

def IsClean (ls : List Lexeme) : Prop :=
  ∀ l ∈ ls, l.cls ≠ .stray ∧ l.cls ≠ .token .unterminated

theorem isClean_of_filterMap {ls : List Lexeme} {ts : List Token}
    (h : ls.filterMap piece? = ts.map .ok) : IsClean ls := by
  intro l hl
  apply not_error_of_piece
  intro p hp
  have hmem : p ∈ ls.filterMap piece? := List.mem_filterMap.mpr ⟨l, hl, hp⟩
  rw [h] at hmem
  obtain ⟨t, -, rfl⟩ := List.mem_map.mp hmem
  exact ⟨t, rfl⟩

theorem exists_tokens {ls : List Lexeme} (h : IsClean ls) :
    ∃ ts : List Token, ls.filterMap piece? = ts.map .ok := by
  induction ls with
  | nil => exact ⟨[], rfl⟩
  | cons l ls ih =>
    obtain ⟨ts, hts⟩ := ih fun l' hl' => h l' (List.mem_cons_of_mem l hl')
    obtain ⟨hstray, hclosed⟩ := h l List.mem_cons_self
    obtain ⟨cls, text, start⟩ := l
    cases cls with
    | stray => exact absurd rfl hstray
    | blank => exact ⟨ts, hts⟩
    | token kind =>
      have hk : kind ≠ .unterminated := fun hk => hclosed (by rw [hk])
      have hpiece := (piece?_eq_ok_iff (l := ⟨.token kind, text, start⟩)
        (t := ⟨kind, String.ofList text, ⟨start, start + byteSize text⟩⟩)).mpr
        ⟨rfl, hk, rfl, rfl⟩
      exact ⟨_ :: ts, by rw [List.filterMap_cons_some hpiece, hts, List.map_cons]⟩

theorem exists_between {ls : List Lexeme} {us vs : List (Except CompileError Token)}
    {ts rest init : List Token} {first last : Token}
    (h : ls.filterMap piece? = us ++ (ts.map .ok ++ vs))
    (hfirst : ts = first :: rest) (hlast : ts = init ++ [last]) :
    ∃ before l l' front tail after, ls = before ++ ((l :: tail) ++ after) ∧
      l :: tail = front ++ [l'] ∧ l.piece? = some (.ok first) ∧ l'.piece? = some (.ok last) ∧
      (l :: tail).filterMap piece? = ts.map .ok := by
  obtain ⟨skipped, ls₁, rfl, -, h₁⟩ := List.filterMap_eq_append_iff.mp h
  have hcons : ls₁.filterMap piece? = .ok first :: (rest.map .ok ++ vs) := by
    rw [h₁, hfirst]
    rfl
  obtain ⟨blanks, l, ls₂, rfl, hblanks, hl, h₂⟩ := List.filterMap_eq_cons_iff.mp hcons
  have hinit : (l :: ls₂).filterMap piece? = init.map .ok ++ .ok last :: vs := by
    rw [List.filterMap_cons_some hl, h₂, ← List.cons_append, ← List.map_cons, ← hfirst, hlast]
    simp
  obtain ⟨front, ls₃, hsplit, hfront, h₃⟩ := List.filterMap_eq_append_iff.mp hinit
  obtain ⟨blanks', l', after, rfl, hblanks', hl', -⟩ := List.filterMap_eq_cons_iff.mp h₃
  have hmid : l :: ls₂ = (front ++ blanks' ++ [l']) ++ after := by simp [hsplit]
  obtain ⟨tail, htail⟩ : ∃ tail, front ++ blanks' ++ [l'] = l :: tail := by
    cases hcase : front ++ blanks' ++ [l'] with
    | nil => simp at hcase
    | cons x tail =>
      rw [hcase] at hmid
      exact ⟨tail, by rw [(List.cons.inj hmid).1]⟩
  refine ⟨skipped ++ blanks, l, l', front ++ blanks', tail, after, ?_, htail.symm, hl, hl', ?_⟩
  · rw [← htail, ← hmid, List.append_assoc]
  · have hnone : blanks'.filterMap piece? = [] := List.filterMap_eq_nil_iff.mpr hblanks'
    rw [← htail, List.filterMap_append, List.filterMap_append, hfront, hnone, hlast,
      List.filterMap_cons_some hl']
    simp

end Lexeme

theorem Text.utf8ByteSize_ofList (cs : List Char) :
    (String.ofList cs).utf8ByteSize = byteSize cs := by
  induction cs with
  | nil => simp [byteSize]
  | cons c cs ih =>
    have hsplit : String.ofList (c :: cs) = String.singleton c ++ String.ofList cs := by
      rw [String.singleton_eq_ofList, ← String.ofList_append, List.singleton_append]
    rw [hsplit, String.utf8ByteSize_append, String.utf8ByteSize_singleton, ih, byteSize]

namespace Grammar

open Fexpr.Parser Fexpr.Parser.State in
theorem Spells.unique {d : Derivation} {ts : List Token} {e e' : Expr} (h : Spells d ts e)
    (h' : Spells d ts e') : e = e' := by
  have hready : start.Ready := ⟨by decide, by simp [start]⟩
  have hfeed := (feed_spells hready h).symm.trans (feed_spells hready h')
  exact (List.cons.inj (congrArg State.items (Except.ok.inj hfeed))).1

end Grammar

/-- The source has a text at the span of a node, between two characters, which alone parses to that
node and nothing else, nearer to the beginning. -/
def Expr.ReadsAlone (source : String) (e : Expr) : Prop :=
  ∃ before text after : String, source = before ++ text ++ after ∧
    before.utf8ByteSize = e.span.start ∧ (before ++ text).utf8ByteSize = e.span.stop ∧
    ∃ e', parse text = .ok (.block ⟨0, text.utf8ByteSize⟩ [e']) ∧ e = e'.shift e.span.start

open Lexeme in
theorem scan_of_lexemesFrom {offset : Nat} {cs : List Char} {ls : List Lexeme} {ts : List Token}
    (hls : lexemesFrom offset cs = ls) (hclean : IsClean ls)
    (hts : ls.filterMap piece? = ts.map .ok) :
    ∃ ts', scan (String.ofList cs) = ⟨ts', none⟩ ∧ ts = ts'.map (·.shift offset) := by
  have hmoved : (lexemesFrom 0 cs).map (·.shift offset) = ls := by
    rw [← lexemesFrom_add, Nat.zero_add, hls]
  have hcleanAlone : IsClean (lexemesFrom 0 cs) := by
    intro x hx
    refine hclean (x.shift offset) ?_
    rw [← hmoved]
    exact List.mem_map_of_mem hx
  obtain ⟨ts', hts'⟩ := exists_tokens hcleanAlone
  refine ⟨ts', ?_, ?_⟩
  · rw [scan, pieces, String.toList_ofList, lexemes, hts', Scan.ofPieces_map_ok]
  · have hmap := filterMap_shift_of_ok hts' offset
    rw [hmoved, hts] at hmap
    exact List.map_injective_iff.mpr (fun _ _ heq => Except.ok.inj heq) hmap

open Grammar in
theorem parse_of_shifted {text : String} {offset : Nat} {ts : List Token} {d : Derivation}
    {e : Expr} (hscan : scan text = ⟨ts, none⟩) (h : Spells d (ts.map (·.shift offset)) e) :
    ∃ e', parse text = .ok (.block ⟨0, text.utf8ByteSize⟩ [e']) ∧ e = e'.shift offset := by
  have hkinds : ts.map Token.kind = d.kinds := by
    rw [← h.kinds_eq, List.map_map]
    rfl
  have hnumeric : Numeric ts := by
    have hn := numeric_scan text
    rwa [hscan] at hn
  obtain ⟨e', he'⟩ := exists_spells d hkinds hnumeric
  refine ⟨e', ?_, h.unique (he'.shift offset)⟩
  have hsequence : SpellsSequence [d] (scan text).tokens [e'] := by
    rw [hscan, ← List.append_nil ts]
    exact .cons he' .nil
  exact parse_of_spells (by rw [hscan]) hsequence

open Grammar Lexeme in
/-- The text from the first to the last of consecutive tokens has these tokens alone, nearer to the
beginning. -/
theorem exists_text_of_pieces {source : String} {us vs : List (Except CompileError Token)}
    {ts : List Token} (hne : ts ≠ []) (hpieces : pieces source = us ++ (ts.map .ok ++ vs)) :
    ∃ before text after : String, source = before ++ text ++ after ∧
      Covers ⟨before.utf8ByteSize, (before ++ text).utf8ByteSize⟩ ts ∧
      Laid before.utf8ByteSize (before ++ text).utf8ByteSize ts ∧
      ∃ ts', scan text = ⟨ts', none⟩ ∧ ts = ts'.map (·.shift before.utf8ByteSize) := by
  obtain ⟨first, rest, hfirst⟩ := List.exists_cons_of_ne_nil hne
  obtain ⟨init, last, hlast⟩ : ∃ init last, ts = init ++ [last] :=
    ⟨_, _, (List.dropLast_append_getLast hne).symm⟩
  rw [pieces, lexemes] at hpieces
  obtain ⟨before, l, l', front, tail, after, hls, hmid, hl, hl', hts⟩ :=
    exists_between hpieces hfirst hlast
  have hscan := lexemesFrom_of_append hls
  rw [Nat.zero_add] at hscan
  have hclean := isClean_of_filterMap hts
  set offset := Text.byteSize (before.flatMap text)
  set mid := (l :: tail).flatMap text with hmidText
  have hkept : lexemesFrom offset mid = l :: tail :=
    lexemesFrom_of_cut hscan fun x hx => (hclean x hx).1
  have hstart : first.span.start = offset := by
    obtain ⟨-, -, -, hfirstSpan⟩ := piece?_eq_ok_iff.mp hl
    rw [hfirstSpan]
    exact (step_of_mem_lexemesFrom hkept).2
  have hstop : last.span.stop = offset + Text.byteSize mid := by
    obtain ⟨-, -, -, hlastSpan⟩ := piece?_eq_ok_iff.mp hl'
    have hkept' := hkept
    rw [hmid] at hkept'
    have hend := (step_of_mem_lexemesFrom (lexemesFrom_of_append hkept')).2
    rw [hlastSpan, hmidText, hmid]
    simp only [span, hend, List.flatMap_append, Text.byteSize_append, List.flatMap_singleton]
    omega
  refine ⟨String.ofList (before.flatMap text), String.ofList mid,
    String.ofList (after.flatMap text), ?_, ?_, ?_, ?_⟩
  · have hall := flatMap_text_lexemesFrom 0 source.toList
    rw [hls, List.flatMap_append, List.flatMap_append, ← List.append_assoc] at hall
    rw [← String.ofList_append, ← String.ofList_append, hall, String.ofList_toList]
  · refine ⟨first, rest, init, last, hfirst, hlast, ?_⟩
    rw [String.utf8ByteSize_append, Text.utf8ByteSize_ofList, Text.utf8ByteSize_ofList, hstart,
      hstop]
  · rw [String.utf8ByteSize_append, Text.utf8ByteSize_ofList, Text.utf8ByteSize_ofList]
    rw [← hkept] at hts
    exact laid_of_filterMap hts
  · rw [Text.utf8ByteSize_ofList]
    exact scan_of_lexemesFrom hkept hclean hts

open Grammar in
theorem readsAlone_of_spells {source : String} (herror : (scan source).error? = none)
    {us ts vs : List Token} (htokens : (scan source).tokens = us ++ (ts ++ vs))
    {d : Derivation} {e : Expr} (h : Spells d ts e) (hcovers : Covers e.span ts) :
    e.ReadsAlone source := by
  have hpieces : pieces source = us.map .ok ++ (ts.map .ok ++ vs.map .ok) := by
    rw [← List.map_append, ← List.map_append, ← htokens]
    exact Scan.eq_map_ok herror
  obtain ⟨before, text, after, hsource, hcovers', -, ts', hscan, hshift⟩ :=
    exists_text_of_pieces hcovers.ne_nil hpieces
  obtain ⟨e', hparse, heq⟩ := parse_of_shifted hscan (hshift ▸ h)
  have hspan := hcovers.unique hcovers'
  refine ⟨before, text, after, hsource, ?_, ?_, e', hparse, ?_⟩
  · rw [hspan]
  · rw [hspan]
  · rw [hspan]
    exact heq

open Grammar in
theorem placed_of_parse {source : String} {root e : Expr} (h : parse source = .ok root)
    (he : root.IsNode e) : Placed (scan source).tokens e := by
  obtain ⟨ds, es, herror, hes, rfl⟩ := spells_of_parse h
  have hlaid : Laid 0 source.utf8ByteSize (scan source).tokens := by
    have hlaid := laid_of_filterMap (Scan.eq_map_ok herror)
    rwa [Nat.zero_add, ← Text.utf8ByteSize_ofList, String.ofList_toList] at hlaid
  apply placed_of_isNode hlaid ?_ he
  exact ⟨[], (scan source).tokens, [], by simp, hes.parts, hlaid⟩

open Grammar in
/--
The parts of every node lie in order inside its span. The span of each is not empty, and its text
alone parses to that part.
-/
theorem parse_span_exact {source : String} {root : Expr} (h : parse source = .ok root)
    {e : Expr} (he : root.IsNode e) :
    e.children.Pairwise Expr.Before ∧
    ∀ part ∈ e.children, part.span.start < part.span.stop ∧
      part.span.stop ≤ source.utf8ByteSize ∧
      e.span.start ≤ part.span.start ∧ part.span.stop ≤ e.span.stop ∧
      part.ReadsAlone source := by
  obtain ⟨ds, es, herror, hes, rfl⟩ := spells_of_parse h
  have hlaid : Laid 0 source.utf8ByteSize (scan source).tokens := by
    have hlaid := laid_of_filterMap (Scan.eq_map_ok herror)
    rwa [Nat.zero_add, ← Text.utf8ByteSize_ofList, String.ofList_toList] at hlaid
  have hroot : Placed (scan source).tokens (.block ⟨0, source.utf8ByteSize⟩ es) :=
    ⟨[], (scan source).tokens, [], by simp, hes.parts, hlaid⟩
  have hplaced := placed_of_isNode hlaid hroot he
  obtain ⟨hpairwise, hbounds⟩ := hplaced.spans
  refine ⟨hpairwise, ?_⟩
  intro part hpart
  obtain ⟨us, ts, vs, d, htokens, hspells⟩ := hplaced.spelled hpart
  have hcovers : Covers part.span ts ∧ part.span.stop ≤ source.utf8ByteSize := by
    rw [htokens] at hlaid
    obtain ⟨lo, -, hrest⟩ := laid_append.mp hlaid
    obtain ⟨hi, hts, hvs⟩ := laid_append.mp hrest
    have hcovers := hspells.covers hts
    exact ⟨hcovers, (hcovers.bounds hts).2.2.trans hvs.le⟩
  obtain ⟨hstart, hlt, hstop⟩ := hbounds part hpart
  exact ⟨hlt, hcovers.2, hstart, hstop, readsAlone_of_spells herror htokens hspells hcovers.1⟩

/-- A call with a comment in front of its arguments, behind a string with a long character. -/
theorem parse_span_exact_call :
    ∃ root part, parse "'é' f /* ( */ (@ x)" = .ok root ∧ root.IsNode root ∧
      part ∈ root.children ∧ part.span = ⟨5, 20⟩ ∧ part.ReadsAlone "'é' f /* ( */ (@ x)" := by
  have hspans : (parse "'é' f /* ( */ (@ x)").map (·.children.map Expr.span) =
      .ok [⟨0, 4⟩, ⟨5, 20⟩] := by
    decide +kernel
  obtain ⟨root, hroot, hchildren⟩ := Except.map_eq_ok_iff.mp hspans
  have hmem : (⟨5, 20⟩ : Span) ∈ root.children.map Expr.span := by
    rw [hchildren]
    simp
  obtain ⟨part, hpart, hspan⟩ := List.mem_map.mp hmem
  have hexact := (parse_span_exact hroot .root).2 part hpart
  exact ⟨root, part, hroot, .root, hpart, hspan, hexact.2.2.2.2⟩

end Fexpr
