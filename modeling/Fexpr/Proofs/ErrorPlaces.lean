import Fexpr.Proofs.Sessions
import Fexpr.Proofs.Spans

/-!
# Places of runtime errors

A run is matched with itself, in such a way that only places of a certain kind are matched. Then all
code that it can reach lies at such places, and so do its errors. In a session this is the code of
the entry that is run and that of functions which earlier entries have made; an error in such a
function stands at a place of the earlier entry.
-/

namespace Fexpr

namespace Code

mutual

def spans : Code → List Span
  | literal p _ | lookup p _ | reference p _ => [p]
  | call p _ args => p :: spansAll args
  | block p items => p :: spansAll items

def spansAll : List Code → List Span
  | [] => []
  | c :: cs => spans c ++ spansAll cs

end

end Code

def Body.spans (b : Body) : List Span := b.span :: Code.spansAll b.items

namespace Region

def inside (G : Span → Prop) (σ : Store) : Region := plain (fun p q => p = q ∧ G p) σ σ

variable {G G' : Span → Prop} {σ τ : Store} {w : Nat × Nat}

mutual

theorem forall_spans : ∀ {c c' : Code}, (inside G σ).matching.Codes c c' → ∀ p ∈ c.spans, G p
  | .literal _ _, _, .literal hp _ => by simpa [Code.spans] using hp.2
  | .lookup _ _, _, .lookup hp _ => by simpa [Code.spans] using hp.2
  | .reference _ _, _, .reference hp _ => by simpa [Code.spans] using hp.2
  | .call _ _ args, _, .call hp _ hargs => by
    rw [Code.spans, List.forall_mem_cons]
    exact ⟨hp.2, forall_spansAll args hargs⟩
  | .block _ items, _, .block hp hitems => by
    rw [Code.spans, List.forall_mem_cons]
    exact ⟨hp.2, forall_spansAll items hitems⟩

theorem forall_spansAll : ∀ (cs : List Code) {cs' : List Code},
    List.Forall₂ (inside G σ).matching.Codes cs cs' → ∀ p ∈ Code.spansAll cs, G p
  | [], _, .nil => by simp [Code.spansAll]
  | _ :: cs, _, .cons hc hcs => by
    rw [Code.spansAll, List.forall_mem_append]
    exact ⟨forall_spans hc, forall_spansAll cs hcs⟩

end

theorem relabel_span {p q : Span} (h : (inside G σ).matching.span p q) (hp : G' p) :
    (inside G' σ).matching.span p q :=
  ⟨h.1, hp⟩

theorem relabel_callees {c c' : Callee} (h : (inside G σ).matching.Callees c c') :
    (inside G' σ).matching.Callees c c' := by
  cases h with
  | keyword hk => exact .keyword hk
  | name hn => exact .name hn

mutual

theorem relabel_codes : ∀ {c c' : Code}, (inside G σ).matching.Codes c c' →
    (∀ p ∈ c.spans, G' p) → (inside G' σ).matching.Codes c c'
  | .literal p _, _, .literal hp l, h => .literal (relabel_span hp (h p (by simp [Code.spans]))) l
  | .lookup p _, _, .lookup hp hn, h => .lookup (relabel_span hp (h p (by simp [Code.spans]))) hn
  | .reference p _, _, .reference hp hn, h =>
    .reference (relabel_span hp (h p (by simp [Code.spans]))) hn
  | .call _ _ args, _, .call hp hc hargs, h => by
    rw [Code.spans, List.forall_mem_cons] at h
    exact .call (relabel_span hp h.1) (relabel_callees hc) (relabel_codesAll args hargs h.2)
  | .block _ items, _, .block hp hitems, h => by
    rw [Code.spans, List.forall_mem_cons] at h
    exact .block (relabel_span hp h.1) (relabel_codesAll items hitems h.2)

theorem relabel_codesAll : ∀ (cs : List Code) {cs' : List Code},
    List.Forall₂ (inside G σ).matching.Codes cs cs' → (∀ p ∈ Code.spansAll cs, G' p) →
    List.Forall₂ (inside G' σ).matching.Codes cs cs'
  | [], _, .nil, _ => .nil
  | _ :: cs, _, .cons hc hcs, h => by
    rw [Code.spansAll, List.forall_mem_append] at h
    exact .cons (relabel_codes hc h.1) (relabel_codesAll cs hcs h.2)

end

theorem forall_spans_body {f f' : Function} (h : (inside G σ).matching.Functions w f f') :
    ∀ p ∈ f.body.spans, G p := by
  rw [Body.spans, List.forall_mem_cons]
  exact ⟨h.body.span.2, forall_spansAll _ h.body.items⟩

theorem relabel_functions {f f' : Function} (h : (inside G σ).matching.Functions w f f')
    (hspans : ∀ p ∈ f.body.spans, G' p) : (inside G' σ).matching.Functions w f f' := by
  rw [Body.spans, List.forall_mem_cons] at hspans
  exact ⟨h.params, ⟨relabel_codesAll _ h.body.items hspans.2, h.body.span.1, hspans.1⟩, h.captured⟩

theorem relabel_values {v v' : Value} (h : (inside G σ).matching.Values w v v') :
    (inside G' σ).matching.Values w v v' := by
  apply h.imp
  · intro i i' hi
    exact hi
  · intro k k' hk
    exact hk

theorem relabel_frames {f f' : Frame} (h : (inside G σ).Frames w f f') :
    (inside G' σ).Frames w f f' := by
  obtain ⟨bindings, outer⟩ := f
  obtain ⟨bindings', outer'⟩ := f'
  obtain ⟨hbindings, houter⟩ := h
  refine ⟨hbindings.imp fun _ _ he => ⟨he.1, relabel_values he.2⟩, ?_⟩
  cases houter with
  | root hk => exact .root hk
  | child hs => exact .child hs

theorem relabel_stores (h : (inside G σ).Stores w τ τ)
    (hspans : ∀ i f, σ.functions.size ≤ i → τ.function? i = some f → ∀ p ∈ f.body.spans, G' p) :
    (inside G' σ).Stores w τ τ := by
  refine ⟨h.frames_left, h.frames_right, h.functions_left, h.functions_right, ?_, ?_,
    h.kept_left, h.kept_right, h.kept_functions_left, h.kept_functions_right⟩
  · intro i hi
    exact rel_mono (fun _ _ => relabel_frames) (h.frame i hi)
  · intro i hi
    have hf := h.function i hi
    change Option.Rel _ (τ.function? (σ.functions.size + i)) (τ.function? (σ.functions.size + i))
      at hf ⊢
    cases hτ : τ.function? (σ.functions.size + i) with
    | none => exact .none
    | some f =>
      rw [hτ] at hf
      cases hf with
      | some hf => exact .some (relabel_functions hf (hspans _ f (Nat.le_add_right _ _) hτ))

theorem span_of_errors {e e' : RuntimeError} (h : (inside G σ).matching.Errors e e') :
    G e.span := by
  cases h with
  | unresolved _ hp | notCallable _ _ hp | arity _ _ _ hp | mismatch _ _ _ _ hp => exact hp.2

end Region

namespace Expr

theorem IsNode.of_child {e part node : Expr} (hpart : part ∈ e.children) (h : part.IsNode node) :
    e.IsNode node := by
  induction h with
  | root => exact .child .root hpart
  | child _ hchild ih => exact .child ih hchild

end Expr

namespace Matching

variable {W : Type} {M : Matching W}

mutual

theorem Trees.of_nodes (hname : ∀ n, M.name n n) : ∀ e : Expr,
    (∀ node, e.IsNode node → M.span node.span node.span) → M.Trees e e
  | .literal _ l, h => .literal (h _ .root) l
  | .lookup _ n, h => .lookup (h _ .root) (hname n)
  | .reference _ n, h => .reference (h _ .root) (hname n)
  | .invocation _ callee args, h =>
    .invocation (h _ .root)
      (Trees.of_nodes hname callee fun _ hnode => h _ (hnode.of_child List.mem_cons_self))
      (Trees.of_nodes_list hname args fun _ harg _ hnode =>
        h _ (hnode.of_child (List.mem_cons_of_mem callee harg)))
  | .block _ items, h =>
    .block (h _ .root)
      (Trees.of_nodes_list hname items fun _ hitem _ hnode => h _ (hnode.of_child hitem))

theorem Trees.of_nodes_list (hname : ∀ n, M.name n n) : ∀ es : List Expr,
    (∀ e ∈ es, ∀ node, e.IsNode node → M.span node.span node.span) → List.Forall₂ M.Trees es es
  | [], _ => .nil
  | e :: es, h =>
    .cons (Trees.of_nodes hname e (h e List.mem_cons_self))
      (Trees.of_nodes_list hname es fun e' he' => h e' (List.mem_cons_of_mem e he'))

end

end Matching

def IsPlaceIn (text : String) (p : Span) : Prop :=
  ∃ root node, parse text = .ok root ∧ root.IsNode node ∧ node.span = p

theorem IsPlaceIn.bounds {text : String} {p : Span} (h : IsPlaceIn text p) :
    p.start ≤ p.stop ∧ p.stop ≤ text.utf8ByteSize := by
  obtain ⟨root, node, hparse, hnode, rfl⟩ := h
  induction hnode with
  | root =>
    obtain ⟨_, es, _, _, rfl⟩ := spells_of_parse hparse
    exact ⟨Nat.zero_le _, Nat.le_refl _⟩
  | child hparent hpart ih =>
    obtain ⟨-, hlt, hstop⟩ := (placed_of_parse hparse hparent).spans.2 _ hpart
    exact ⟨Nat.le_of_lt hlt, hstop.trans ih.2⟩

/-- An error at the place of an expression in a text, with labels that lie within the text. -/
structure RuntimeError.PointsInto (e : RuntimeError) (text : String) : Prop where
  place : IsPlaceIn text e.span
  labels : ∀ label ∈ e.diagnostic.labels,
    label.offset = e.span.start ∧ label.offset + label.size ≤ text.utf8ByteSize

theorem RuntimeError.pointsInto {e : RuntimeError} {text : String} (h : IsPlaceIn text e.span) :
    e.PointsInto text := by
  refine ⟨h, ?_⟩
  obtain ⟨words, hlabels⟩ : ∃ words, e.diagnostic.labels = [e.span.label words] := by
    cases e <;> exact ⟨_, rfl⟩
  obtain ⟨hle, hsize⟩ := h.bounds
  rw [hlabels, List.forall_mem_singleton]
  refine ⟨rfl, ?_⟩
  change e.span.start + (e.span.stop - e.span.start) ≤ _
  omega

namespace Session

open Region

variable {host : Host} {limit : Nat}

/-- The store of a session since it began in `σ`: all code made in it lies at places of a kind. -/
structure Keeps (G : Span → Prop) (c : Context) (σ : Store) (s : Session) (τ : Store) : Prop where
  context : s.context = c
  matched : ∃ w, (inside G σ).Stores w τ τ ∧ (inside G σ).matching.scope w s.scope s.scope

variable {G G' : Span → Prop} {c : Context} {σ σ₀ τ τ' : Store} {s s' : Session}

theorem keeps_start (hc : c.SelfContained) (h : start c σ = (s, σ₀)) : Keeps G c σ s σ₀ := by
  cases h
  have hcontexts : (inside G σ).Contexts c c := plain_contexts hc
  obtain ⟨w, -, hstores, hscope⟩ := related_newScope hcontexts σ σ (stores_start (inside G σ))
  cases hscope with
  | value hscope => exact ⟨rfl, w, hstores, hscope⟩

theorem Keeps.enter (hc : c.SelfContained) (h : Keeps G c σ s τ) {text : String}
    (htext : ∀ p, IsPlaceIn text p → G p) {result : Except Failure Value}
    (henter : s.enter host limit text τ = (result, s', τ')) :
    Keeps G c σ s' τ' ∧ ∀ e, result = .error (.runtime e) → G e.span := by
  obtain ⟨hcontext, w, hstores, hscope⟩ := h
  rcases enter_cases s text τ with ⟨e, hsame⟩ | ⟨p, es, cs, hparse, hcs, hrun⟩
  · rw [hsame] at henter
    cases henter
    refine ⟨⟨hcontext, w, hstores, hscope⟩, ?_⟩
    intro e' he'
    cases he'
  · have hcontexts : (inside G σ).Contexts c c := plain_contexts hc
    have htrees : List.Forall₂ (inside G σ).matching.Trees es es := by
      apply Matching.Trees.of_nodes_list
      · intro n
        rfl
      · intro e he node hnode
        exact ⟨rfl, htext _ ⟨_, node, hparse, hnode.of_child he, rfl⟩⟩
    rw [hcontext] at hcs
    obtain ⟨cs', hcs', hcodes⟩ := Matching.Trees.lowerAll hcontexts.tables es htrees hcs
    obtain rfl : cs = cs' := Except.ok.inj (hcs.symm.trans hcs')
    have hrelated := (Simulation.evaluators_eval (R := (inside G σ).simulation) host host
      limit).runItems hscope hcodes
    obtain ⟨w', hle, hstores', houtcome⟩ := hrelated τ τ hstores
    rw [hrun] at henter
    cases henter
    refine ⟨⟨hcontext, w', hstores', scope_mono hle hscope⟩, ?_⟩
    intro e he
    generalize (runItems (Code.eval host limit) s.scope cs τ).1 = outcome at houtcome he
    cases houtcome with
    | value | tooDeep => cases he
    | error herror =>
      cases he
      exact span_of_errors herror

theorem Keeps.enterAll (hc : c.SelfContained) {texts : List String} (h : Keeps G c σ s τ)
    (htexts : ∀ text ∈ texts, ∀ p, IsPlaceIn text p → G p)
    {results : List (Except Failure Value)}
    (henter : enterAll host limit texts s τ = (results, s', τ')) : Keeps G c σ s' τ' := by
  induction texts generalizing s τ results with
  | nil =>
    cases henter
    exact h
  | cons text texts ih =>
    obtain ⟨result, s₁, τ₁, rest, hfirst, hrest, rfl⟩ := enterAll_cons henter
    obtain ⟨hkeeps, -⟩ := h.enter hc (htexts text List.mem_cons_self) hfirst
    exact ih hkeeps (fun t ht => htexts t (List.mem_cons_of_mem text ht)) hrest

theorem Keeps.relabel (h : Keeps G c σ s τ)
    (hspans : ∀ i f, σ.functions.size ≤ i → τ.function? i = some f → ∀ p ∈ f.body.spans, G' p) :
    Keeps G' c σ s τ := by
  obtain ⟨hcontext, w, hstores, hscope⟩ := h
  exact ⟨hcontext, w, relabel_stores hstores hspans, hscope⟩

theorem Keeps.function (h : Keeps G c σ s τ) {i : Nat} {f : Function} (hi : σ.functions.size ≤ i)
    (hf : τ.function? i = some f) : ∀ p ∈ f.body.spans, G p := by
  obtain ⟨-, w, hstores, -⟩ := h
  obtain ⟨j, rfl⟩ := Nat.exists_eq_add_of_le hi
  have hj : j < w.2 := by
    have hsize := hstores.functions_left
    change τ.functions.size = σ.functions.size + w.2 at hsize
    obtain ⟨hlt, -⟩ := Array.getElem?_eq_some_iff.mp hf
    omega
  have hrel := hstores.function j hj
  change Option.Rel _ (τ.function? (σ.functions.size + j)) (τ.function? (σ.functions.size + j))
    at hrel
  rw [hf] at hrel
  cases hrel with
  | some hrel => exact forall_spans_body hrel

/--
An error of the last entry points into the text of that entry, or else into the text of an earlier
one, at a place in the code of a function that was there before the last entry.
-/
theorem enter_error_pointsInto (hc : c.SelfContained) {s₁ s₂ : Session} {σ₁ σ₂ : Store}
    {init : List String} {last : String} {results : List (Except Failure Value)} {e : RuntimeError}
    (hstart : start c σ = (s, σ₀)) (hinit : enterAll host limit init s σ₀ = (results, s₁, σ₁))
    (hlast : s₁.enter host limit last σ₁ = (.error (.runtime e), s₂, σ₂)) :
    s₂.sourceName = "<repl:" ++ toString (init.length + 1) ++ ">" ∧
    (e.PointsInto last ∨ ∃ text ∈ init, e.PointsInto text ∧
      ∃ i f, σ.functions.size ≤ i ∧ σ₁.function? i = some f ∧ e.span ∈ f.body.spans) := by
  constructor
  · have hentries : s.entries = 0 := by
      cases hstart
      rfl
    rw [sourceName, entries_enter hlast, entries_enterAll hinit, hentries, Nat.zero_add]
  have hkeeps : Keeps (fun p => ∃ text ∈ init, IsPlaceIn text p) c σ s₁ σ₁ := by
    refine (keeps_start hc hstart).enterAll hc ?_ hinit
    intro text htext p hp
    exact ⟨text, htext, hp⟩
  -- for the last entry, the places of earlier ones matter only where a function has them
  have hlater : Keeps (fun p => IsPlaceIn last p ∨
      ∃ i f, σ.functions.size ≤ i ∧ σ₁.function? i = some f ∧ p ∈ f.body.spans) c σ s₁ σ₁ := by
    apply hkeeps.relabel
    intro i f hi hf p hp
    exact .inr ⟨i, f, hi, hf, hp⟩
  have hspan := (hlater.enter hc (fun p hp => .inl hp) hlast).2 e rfl
  rcases hspan with hown | ⟨i, f, hi, hf, hp⟩
  · exact .inl (RuntimeError.pointsInto hown)
  · obtain ⟨text, htext, hplace⟩ := hkeeps.function hi hf _ hp
    exact .inr ⟨text, htext, RuntimeError.pointsInto hplace, i, f, hi, hf, hp⟩

def missingEntry : String := "var(@f, function({ missing }))"

def afterMissing : List (Except Failure Value) × Session × Store :=
  enterAll Host.absent defaultLimit [missingEntry] (start (.builtin 0) .empty).1
    (start (.builtin 0) .empty).2

theorem enter_missing :
    (afterMissing.2.1.enter Host.absent defaultLimit "f()" afterMissing.2.2).1 =
      .error (.runtime (.unresolved "missing" ⟨19, 26⟩)) := by
  have herror : (afterMissing.2.1.enter Host.absent defaultLimit "f()" afterMissing.2.2).1.map
      (fun _ => ()) = .error (.runtime (.unresolved "missing" ⟨19, 26⟩)) := by
    decide +kernel
  exact Except.map_eq_error_iff.mp herror

theorem enter_error_pointsInto_missing :
    (afterMissing.2.1.enter Host.absent defaultLimit "f()" afterMissing.2.2).1 =
      .error (.runtime (.unresolved "missing" ⟨19, 26⟩)) ∧
    (RuntimeError.unresolved "missing" ⟨19, 26⟩).PointsInto missingEntry := by
  refine ⟨enter_missing, ?_⟩
  obtain ⟨-, hown | ⟨text, htext, hpoints, -⟩⟩ := enter_error_pointsInto
    (Context.selfContained_builtin 0) rfl rfl (Prod.ext enter_missing rfl)
  · exact absurd hown.place.bounds.2 (by decide +kernel)
  · rw [← List.mem_singleton.mp htext]
    exact hpoints

/-- The error is reported with the second entry, and its label stands behind the end of that. -/
theorem enter_error_outside_entry :
    (afterMissing.2.1.enter Host.absent defaultLimit "f()" afterMissing.2.2).2.1.sourceName =
      "<repl:2>" ∧
    ∃ e, (afterMissing.2.1.enter Host.absent defaultLimit "f()" afterMissing.2.2).1 =
      .error (.runtime e) ∧ ∃ label ∈ e.diagnostic.labels, "f()".utf8ByteSize < label.offset := by
  refine ⟨by decide +kernel, _, enter_missing, ?_⟩
  exact ⟨_, List.mem_singleton_self _, by decide +kernel⟩

end Session

end Fexpr
