import Fexpr.Proofs.Parsing

/-!
# The tokens that a parser state has read

A state of the parser holds complete expressions and open brackets. All tokens that led to it are
spelled by them in order: the tokens before a bracket, the bracket, and the tokens since. So the
last complete expression of a state is spelled by the last tokens.
-/

namespace Fexpr.Grammar

theorem SpellsFurther.concat {ds : List Derivation} {ts us : List Token} {es : List Expr}
    (h : SpellsFurther ds ts es) {comma : Token} (hc : comma.kind = .comma) {d : Derivation}
    {e : Expr} (he : Spells d us e) :
    SpellsFurther (ds ++ [d]) (ts ++ comma :: us) (es ++ [e]) := by
  induction ds generalizing ts es with
  | nil =>
    cases h
    have hone := SpellsFurther.cons hc he .nil
    rwa [List.append_nil] at hone
  | cons d' ds ih =>
    cases h with
    | cons hc' h hs =>
      rw [List.cons_append, List.cons_append, List.cons_append, List.append_assoc]
      exact .cons hc' h (ih hs)

theorem SpellsArguments.concat {ds : List Derivation} {ts us : List Token} {es : List Expr}
    (h : SpellsArguments ds ts es) (hne : es ≠ []) {comma : Token} (hc : comma.kind = .comma)
    {d : Derivation} {e : Expr} (he : Spells d us e) :
    SpellsArguments (ds ++ [d]) (ts ++ comma :: us) (es ++ [e]) := by
  cases h with
  | nil => exact absurd rfl hne
  | cons h hs =>
    rw [List.append_assoc]
    exact .cons h (hs.concat hc he)

end Fexpr.Grammar

namespace Fexpr.Parser.State

open Grammar

def inArguments : List (Bracket × List Expr) → Bool
  | (.paren _, _) :: _ => true
  | _ => false

def IsLead (args : Bool) (items : List Expr) (lead : List Token) : Prop :=
  if args = true ∧ items ≠ [] then ∃ comma : Token, comma.kind = .comma ∧ lead = [comma]
  else lead = []

/-- Expressions, the last one first, and the tokens that spell them. -/
inductive ReadItems (args : Bool) : List Expr → List Token → Prop
  | nil : ReadItems args [] []
  | cons {items : List Expr} {e : Expr} {d : Derivation} {ts lead us : List Token}
    (h : ReadItems args items ts) (hl : IsLead args items lead) (he : Spells d us e) :
    ReadItems args (e :: items) (ts ++ (lead ++ us))

def ReadLead (args : Bool) (items : List Expr) (ts : List Token) : Prop :=
  ∃ us lead, ts = us ++ lead ∧ ReadItems args items us ∧ IsLead args items lead

def ReadBrackets : List (Bracket × List Expr) → List Token → Prop
  | [], ts => ts = []
  | (.brace opening, before) :: outer, ts =>
    ∃ us vs t, ts = us ++ (vs ++ [t]) ∧ ReadBrackets outer us ∧
      ReadLead (inArguments outer) before vs ∧ t.kind = .leftBrace ∧ t.span = opening
  | (.paren callee, before) :: outer, ts =>
    ∃ us vs ws t, ∃ form : Head, ts = us ++ (vs ++ (ws ++ [t])) ∧ ReadBrackets outer us ∧
      ReadLead (inArguments outer) before vs ∧ form.Spells ws callee ∧ t.kind = .leftParen

def ReadSince (args : Bool) (items : List Expr) : Pending → List Token → Prop
  | .nothing, ts => ReadItems args items ts
  | .argument, ts => ReadLead args items ts
  | .name sign, ts =>
    ∃ us t, ts = us ++ [t] ∧ ReadLead args items us ∧ t.kind = .atSign ∧ t.span = sign

def HasRead (s : State) (ts : List Token) : Prop :=
  ∃ us vs, ts = us ++ vs ∧ ReadBrackets s.brackets us ∧
    ReadSince (inArguments s.brackets) s.items s.pending vs

theorem ReadItems.sequence {items : List Expr} {ts : List Token} (h : ReadItems false items ts) :
    ∃ ds, SpellsSequence ds ts items.reverse := by
  induction h with
  | nil => exact ⟨[], .nil⟩
  | @cons items e d ts lead us _ hl he ih =>
    obtain ⟨ds, hds⟩ := ih
    obtain rfl : lead = [] := by simpa [IsLead] using hl
    have hone : SpellsSequence [d] us [e] := by
      rw [← List.append_nil us]
      exact .cons he .nil
    rw [List.reverse_cons, List.nil_append]
    exact ⟨ds ++ [d], hds.append hone⟩

theorem ReadItems.arguments {items : List Expr} {ts : List Token} (h : ReadItems true items ts) :
    ∃ ds, SpellsArguments ds ts items.reverse := by
  induction h with
  | nil => exact ⟨[], .nil⟩
  | @cons items e d ts lead us h hl he ih =>
    obtain ⟨ds, hds⟩ := ih
    rw [List.reverse_cons]
    cases items with
    | nil =>
      obtain rfl : lead = [] := by simpa [IsLead] using hl
      cases h
      have hone := SpellsArguments.cons he .nil
      rw [List.append_nil] at hone
      exact ⟨_, hone⟩
    | cons e' items =>
      obtain ⟨comma, hc, rfl⟩ : ∃ comma : Token, comma.kind = .comma ∧ lead = [comma] := by
        simpa [IsLead] using hl
      exact ⟨_, hds.concat (by simp) hc he⟩

theorem ReadLead.push {args : Bool} {items : List Expr} {ts us : List Token}
    (h : ReadLead args items ts) {d : Derivation} {e : Expr} (he : Spells d us e) :
    ReadItems args (e :: items) (ts ++ us) := by
  obtain ⟨vs, lead, rfl, hvs, hl⟩ := h
  rw [List.append_assoc]
  exact .cons hvs hl he

theorem ReadItems.last {args : Bool} {e : Expr} {items : List Expr} {ts : List Token}
    (h : ReadItems args (e :: items) ts) :
    ∃ us vs d, ts = us ++ vs ∧ ReadLead args items us ∧ Spells d vs e := by
  cases h with
  | @cons _ _ d ts lead us h hl he =>
    exact ⟨ts ++ lead, us, d, (List.append_assoc _ _ _).symm, ⟨ts, lead, rfl, h, hl⟩, he⟩

theorem isLead_nil {args : Bool} {items : List Expr} (h : args = false ∨ items = []) :
    IsLead args items [] := by
  unfold IsLead
  rw [if_neg]
  rintro ⟨hargs, hitems⟩
  rcases h with h | h
  · exact absurd hargs (by rw [h]; decide)
  · exact hitems h

theorem ReadLead.items {items : List Expr} {ts : List Token} (h : ReadLead false items ts) :
    ReadItems false items ts := by
  obtain ⟨us, lead, rfl, hus, hl⟩ := h
  obtain rfl : lead = [] := by simpa [IsLead] using hl
  rwa [List.append_nil]

variable {s s' : State} {t : Token} {ts : List Token}

theorem HasRead.lead (h : s.HasRead ts) (hready : s.Ready) :
    ∃ us vs, ts = us ++ vs ∧ ReadBrackets s.brackets us ∧
      ReadLead (inArguments s.brackets) s.items vs := by
  obtain ⟨us, vs, rfl, hus, hvs⟩ := h
  refine ⟨us, vs, rfl, hus, ?_⟩
  obtain ⟨items, pending, brackets⟩ := s
  cases pending with
  | argument => exact hvs
  | name sign => exact absurd rfl (hready.pending sign)
  | nothing =>
    refine ⟨vs, [], (List.append_nil vs).symm, hvs, isLead_nil ?_⟩
    rcases brackets with _ | ⟨⟨_ | _, before⟩, outer⟩
    · exact .inl rfl
    · exact .inl rfl
    · cases items with
      | nil => exact .inr rfl
      | cons e items => exact absurd rfl hready.phase

theorem HasRead.items (h : s.HasRead ts) (hphase : s.phase ≠ .argument ∨ s.pending = .nothing)
    (hp : ∀ sign, s.pending ≠ .name sign) :
    ∃ us vs, ts = us ++ vs ∧ ReadBrackets s.brackets us ∧
      ReadItems (inArguments s.brackets) s.items vs := by
  obtain ⟨us, vs, rfl, hus, hvs⟩ := h
  refine ⟨us, vs, rfl, hus, ?_⟩
  obtain ⟨items, pending, brackets⟩ := s
  cases pending with
  | nothing => exact hvs
  | name sign => exact absurd rfl (hp sign)
  | argument =>
    rcases brackets with _ | ⟨⟨_ | _, before⟩, outer⟩
    · exact ReadLead.items hvs
    · exact ReadLead.items hvs
    · rcases hphase with hphase | hphase
      · exact absurd (by simp [phase]) hphase
      · cases hphase

theorem HasRead.push (h : s.HasRead ts) (hready : s.Ready) {d : Derivation} {us : List Token}
    {e : Expr} (he : Spells d us e) : (s.push e).HasRead (ts ++ us) := by
  obtain ⟨us', vs, rfl, hus, hvs⟩ := h.lead hready
  exact ⟨us', vs ++ us, List.append_assoc _ _ _, hus, hvs.push he⟩

theorem HasRead.sign (h : s.HasRead ts) (hready : s.Ready) (ht : t.kind = .atSign) :
    HasRead { s with pending := .name t.span } (ts ++ [t]) := by
  obtain ⟨us, vs, rfl, hus, hvs⟩ := h.lead hready
  exact ⟨us, vs ++ [t], List.append_assoc _ _ _, hus, vs, t, rfl, hvs, ht, rfl⟩

theorem HasRead.openBrace (h : s.HasRead ts) (hready : s.Ready) (ht : t.kind = .leftBrace) :
    (s.openBrace t.span).HasRead (ts ++ [t]) := by
  obtain ⟨us, vs, rfl, hus, hvs⟩ := h.lead hready
  refine ⟨us ++ (vs ++ [t]), [], by simp, ?_, .nil⟩
  exact ⟨us, vs, t, rfl, hus, hvs, ht, rfl⟩

theorem head_spells_of_isCallable {d : Derivation} {us : List Token} {e : Expr}
    (he : Spells d us e) (hcallable : e.isCallable) : ∃ form : Head, form.Spells us e := by
  cases he with
  | head h => exact ⟨_, h⟩
  | number ht hn => cases hcallable
  | string ht => cases hcallable
  | call hc ho ha hl => cases hcallable
  | block ho hi hl => cases hcallable

theorem HasRead.call (h : s.HasRead ts) (ht : t.kind = .leftParen)
    (hp : ∀ sign, s.pending ≠ .name sign) (hs : s.call t = .ok s') : s'.HasRead (ts ++ [t]) := by
  unfold State.call at hs
  split at hs
  · cases hs
  · cases hs
  · rename_i callee before hitems hphase
    split at hs
    · rename_i hcallable
      cases hs
      obtain ⟨us, vs, rfl, hus, hvs⟩ := h.items (.inl hphase) hp
      rw [hitems] at hvs
      obtain ⟨vs, ws, d, rfl, hlead, he⟩ := hvs.last
      obtain ⟨form, hform⟩ := head_spells_of_isCallable he hcallable
      refine ⟨us ++ (vs ++ (ws ++ [t])), [], by simp, ?_, .nil⟩
      exact ⟨us, vs, ws, t, form, rfl, hus, hlead, hform, ht⟩
    · cases hs

theorem HasRead.closeBrace (h : s.HasRead ts) (ht : t.kind = .rightBrace)
    (hp : ∀ sign, s.pending ≠ .name sign) (hs : s.closeBrace t = .ok s') :
    s'.HasRead (ts ++ [t]) := by
  unfold State.closeBrace at hs
  split at hs
  · rename_i opening before outer hb
    cases hs
    have hphase : s.phase ≠ .argument := by simp [phase, hb]
    obtain ⟨us, vs, rfl, hus, hvs⟩ := h.items (.inl hphase) hp
    rw [hb] at hus hvs
    obtain ⟨us, ws, o, rfl, hus, hlead, ho, rfl⟩ := hus
    obtain ⟨ds, hds⟩ := ReadItems.sequence hvs
    have hpush := hlead.push (Spells.block ho hds ht)
    exact ⟨us, ws ++ (o :: (vs ++ [t])), by simp, hus, hpush⟩
  · cases hs

theorem HasRead.closeParen (h : s.HasRead ts) (ht : t.kind = .rightParen)
    (hp : ∀ sign, s.pending ≠ .name sign) (hs : s.closeParen t = .ok s') :
    s'.HasRead (ts ++ [t]) := by
  unfold State.closeParen at hs
  split at hs
  · rename_i callee before outer hb
    split at hs
    · cases hs
    · rename_i hargument
      cases hs
      have hnothing : s.pending = .nothing := by
        cases hpending : s.pending with
        | nothing => rfl
        | argument => exact absurd hpending hargument
        | name sign => exact absurd hpending (hp sign)
      obtain ⟨us, vs, rfl, hus, hvs⟩ := h.items (.inr hnothing) hp
      rw [hb] at hus hvs
      obtain ⟨us, ws, hs, o, form, rfl, hus, hlead, hform, ho⟩ := hus
      obtain ⟨ds, hds⟩ := ReadItems.arguments hvs
      have hpush := hlead.push (Spells.call hform ho hds ht)
      exact ⟨us, ws ++ (hs ++ o :: (vs ++ [t])), by simp, hus, hpush⟩
  · cases hs

theorem HasRead.comma (h : s.HasRead ts) (ht : t.kind = .comma) (hphase : s.phase = .separator)
    (hp : ∀ sign, s.pending ≠ .name sign) :
    HasRead { s with pending := .argument } (ts ++ [t]) := by
  obtain ⟨us, vs, rfl, hus, hvs⟩ := h.items (.inl (by rw [hphase]; decide)) hp
  obtain ⟨e, items, callee, before, outer, hi, -, hb⟩ := phase_eq_separator hphase
  refine ⟨us, vs ++ [t], List.append_assoc _ _ _, hus, vs, [t], rfl, hvs, ?_⟩
  simp [IsLead, hi, hb, inArguments, ht]

theorem HasRead.name {sign : Span} (h : s.HasRead ts) (hp : s.pending = .name sign)
    (ht : t.kind = .ident) :
    (s.push (.reference (sign.merge t.span) t.text)).HasRead (ts ++ [t]) := by
  obtain ⟨us, vs, rfl, hus, hvs⟩ := h
  rw [hp] at hvs
  obtain ⟨vs, o, rfl, hlead, ho, rfl⟩ := hvs
  have hpush := hlead.push (.head (.reference ho ht))
  exact ⟨us, vs ++ [o, t], by simp, hus, hpush⟩

theorem HasRead.begin {next : State} (hp : ∀ sign, s.pending ≠ .name sign)
    (hs : s.begin t next = .ok s') (hnext : s.Ready → next.HasRead (ts ++ [t])) :
    s'.HasRead (ts ++ [t]) := by
  unfold State.begin at hs
  split at hs
  · cases hs
  · rename_i hphase
    cases hs
    exact hnext ⟨hphase, hp⟩

/-- One step: the next token is spelled as well. -/
theorem hasRead_feed (h : s.HasRead ts) (hn : Numeric [t]) (hs : s.feed t = .ok s') :
    s'.HasRead (ts ++ [t]) := by
  unfold State.feed at hs
  split at hs
  · rename_i sign hpending
    split at hs
    · rename_i ht
      cases hs
      exact h.name hpending ht
    · cases hs
  · rename_i hpending
    have hp : ∀ sign, s.pending ≠ .name sign := fun sign hs => hpending sign hs
    split at hs
    case h_1 ht =>
      obtain ⟨n, hn⟩ := hn t (List.mem_singleton_self t) ht
      rw [numberOf, hn, Option.getD_some] at hs
      exact HasRead.begin hp hs fun hready => h.push hready (.number ht hn)
    case h_2 ht => exact HasRead.begin hp hs fun hready => h.push hready (.string ht)
    case h_3 ht => exact HasRead.begin hp hs fun hready => h.push hready (.head (.name ht))
    case h_4 ht => exact HasRead.begin hp hs fun hready => h.sign hready ht
    case h_5 ht => exact HasRead.begin hp hs fun hready => h.openBrace hready ht
    case h_6 ht => exact h.call ht hp hs
    case h_7 ht => exact h.closeBrace ht hp hs
    case h_8 ht => exact h.closeParen ht hp hs
    case h_9 ht =>
      split at hs
      · rename_i hphase
        cases hs
        exact h.comma ht hphase hp
      · cases hs
    case h_10 | h_11 => cases hs

/-- A run: a state has read the tokens that were fed since the start. -/
theorem hasRead_foldlM {us : List Token} (h : s.HasRead ts) (hn : Numeric us)
    (hs : us.foldlM feed s = .ok s') : s'.HasRead (ts ++ us) := by
  induction us generalizing s ts with
  | nil =>
    cases hs
    rwa [List.append_nil]
  | cons u us ih =>
    rw [List.foldlM_cons] at hs
    cases hfeed : s.feed u with
    | error e => rw [hfeed] at hs; cases hs
    | ok s₁ =>
      rw [hfeed] at hs
      have hone : Numeric [u] := fun v hv => hn v (by simp_all)
      have hread := ih (hasRead_feed h hone hfeed) hn.tail hs
      rwa [List.append_assoc, List.singleton_append] at hread

theorem hasRead_start : start.HasRead [] := ⟨[], [], rfl, rfl, .nil⟩

theorem spells_of_items {e : Expr} {items : List Expr} (hn : Numeric ts)
    (hs : ts.foldlM feed start = .ok s) (hphase : s.phase ≠ .argument)
    (hpending : ∀ sign, s.pending ≠ .name sign) (hitems : s.items = e :: items) :
    ∃ us vs d, ts = us ++ vs ∧ Spells d vs e := by
  obtain ⟨us, vs, rfl, -, hvs⟩ := (hasRead_foldlM hasRead_start hn hs).items (.inl hphase) hpending
  rw [hitems] at hvs
  obtain ⟨vs, ws, d, rfl, -, he⟩ := hvs.last
  exact ⟨us ++ vs, ws, d, (List.append_assoc _ _ _).symm, he⟩

end Fexpr.Parser.State
