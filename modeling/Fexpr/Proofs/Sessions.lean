import Fexpr.Proofs.LineBreaks
import Fexpr.Proofs.Region
import Fexpr.Session

/-!
# A session is one long program

Entries that are given to a session one after another do what the program does that consists of all
of them, line after line. Only places in the source differ.
-/

namespace Fexpr

theorem forall₂_append_left {α β : Type} {R : α → β → Prop} {a b : List α} {l : List β}
    (h : List.Forall₂ R (a ++ b) l) :
    ∃ l₁ l₂, l = l₁ ++ l₂ ∧ List.Forall₂ R a l₁ ∧ List.Forall₂ R b l₂ :=
  ⟨l.take a.length, l.drop a.length, (List.take_append_drop _ l).symm,
    (List.forall₂_take_append l a b h.flip).flip, (List.forall₂_drop_append l a b h.flip).flip⟩

namespace Matching

variable {W : Type} {M : Matching W}

mutual

theorem Trees.shift (hspan : ∀ p q, M.span p q) (n : Nat) : ∀ {e e' : Expr}, M.Trees e e' →
    M.Trees e (e'.shift n)
  | .literal _ _, _, .literal _ l => .literal (hspan _ _) l
  | .lookup _ _, _, .lookup _ hn => .lookup (hspan _ _) hn
  | .reference _ _, _, .reference _ hn => .reference (hspan _ _) hn
  | .invocation _ _ args, _, .invocation _ he hargs =>
    .invocation (hspan _ _) (he.shift hspan n) (Trees.shiftAll hspan n args hargs)
  | .block _ items, _, .block _ hitems => .block (hspan _ _) (Trees.shiftAll hspan n items hitems)

theorem Trees.shiftAll (hspan : ∀ p q, M.span p q) (n : Nat) : ∀ (es : List Expr) {es' : List Expr},
    List.Forall₂ M.Trees es es' → List.Forall₂ M.Trees es (Expr.shiftAll n es')
  | [], _, .nil => .nil
  | _ :: es, _, .cons he hes => .cons (he.shift hspan n) (Trees.shiftAll hspan n es hes)

end

theorem parse_intercalate (hspan : ∀ p q, M.span p q) (hname : ∀ n, M.name n n)
    {texts : List String} {trees : List (List Expr)} (hne : texts ≠ [])
    (h : List.Forall₂ (fun t es => ∃ p, parse t = .ok (.block p es)) texts trees) :
    ∃ p items, parse ("\n".intercalate texts) = .ok (.block p items) ∧
      List.Forall₂ M.Trees trees.flatten items := by
  induction h with
  | nil => exact absurd rfl hne
  | @cons t es texts trees ht hrest ih =>
    obtain ⟨p, ht⟩ := ht
    cases texts with
    | nil =>
      cases hrest
      rw [List.flatten_singleton]
      exact ⟨p, es, ht, Trees.refl_list (fun p => hspan p p) hname es⟩
    | cons u texts =>
      obtain ⟨q, items, hq, hitems⟩ := ih (List.cons_ne_nil u texts)
      rw [String.intercalate_cons_cons, List.flatten_cons]
      refine ⟨_, _, parse_append ht hq, List.rel_append ?_ ?_⟩
      · exact Trees.refl_list (fun p => hspan p p) hname es
      · exact Trees.shiftAll hspan _ _ hitems

end Matching

def runAll (ev : Evaluator) (s : Scope) : List (List Code) → Eval Unit
  | [] => pure ()
  | items :: rest => do
    let _ ← runItems ev s items
    runAll ev s rest

namespace Simulation.Evaluators

variable {W : Type} [Preorder W] {R : Simulation W} {w : W} {s s' : Scope} {ev ev' : Evaluator}

/-- What a sequence does to the store does not depend on the value it starts with. -/
theorem effects (hev : R.Evaluators ev ev') (hs : R.scope w s s') {cs cs' : List Code}
    (hcs : List.Forall₂ R.Codes cs cs') (v : Value) :
    R.Related (fun _ _ _ => True) w (Fexpr.runItems ev s cs)
      (cs'.foldlM (fun _ code => ev' code s') v) := by
  cases hcs with
  | nil => exact .pure trivial
  | cons hc hcs => exact (hev.runItems hs (.cons hc hcs)).weaken fun _ _ _ _ => trivial

theorem runAll (hev : R.Evaluators ev ev') (hs : R.scope w s s') {bs : List (List Code)}
    {cs : List Code} (hcs : List.Forall₂ R.Codes bs.flatten cs) (v : Value) :
    R.Related (fun _ _ _ => True) w (Fexpr.runAll ev s bs)
      (cs.foldlM (fun _ code => ev' code s') v) := by
  induction bs generalizing w v cs with
  | nil =>
    cases hcs
    exact .pure trivial
  | cons b bs ih =>
    obtain ⟨cs₁, cs₂, rfl, hcs₁, hcs₂⟩ := forall₂_append_left hcs
    rw [List.foldlM_append, Fexpr.runAll]
    exact .bind (hev.effects hs hcs₁ v) fun w' hle _ v' _ => ih (R.scope_mono hle hs) hcs₂ v'

theorem runAll_last (hev : R.Evaluators ev ev') (hs : R.scope w s s') {bs : List (List Code)}
    {last cs : List Code} (hcs : List.Forall₂ R.Codes (bs.flatten ++ last) cs) (hne : last ≠ []) :
    R.Related R.Values w (do Fexpr.runAll ev s bs; Fexpr.runItems ev s last)
      (Fexpr.runItems ev' s' cs) := by
  obtain ⟨cs₁, cs₂, rfl, hcs₁, hcs₂⟩ := forall₂_append_left hcs
  rw [Fexpr.runItems, Fexpr.runItems, List.foldlM_append]
  refine .bind (hev.runAll hs hcs₁ .null) fun w' hle _ v _ => ?_
  cases hcs₂ with
  | nil => exact absurd rfl hne
  | cons hc hrest => exact hev.runItems (R.scope_mono hle hs) (.cons hc hrest)

end Simulation.Evaluators

namespace Session

def enterAll (host : Host) (limit : Nat) :
    List String → Session → Store → List (Except Failure Value) × Session × Store
  | [], s, σ => ([], s, σ)
  | text :: texts, s, σ =>
    let (r, s, σ) := s.enter host limit text σ
    let (rs, s, σ) := enterAll host limit texts s σ
    (r :: rs, s, σ)

variable {host : Host} {limit : Nat}

theorem enter_eq {s : Session} {text : String} {p : Span} {es : List Expr} {cs : List Code}
    (hparse : parse text = .ok (.block p es))
    (hcs : Expr.lowerAll s.context.keywords es = .ok cs) (σ : Store) :
    s.enter host limit text σ = ((runItems (Code.eval host limit) s.scope cs σ).1.toExcept,
      { s with entries := s.entries + 1 }, (runItems (Code.eval host limit) s.scope cs σ).2) := by
  have hbody : (Expr.block p es).lowerProgram s.context.keywords = .ok ⟨cs, p⟩ :=
    Expr.lowerProgram_eq_ok_iff.mpr ⟨hcs, rfl⟩
  have hcompile : ∀ name, Program.compile ⟨name, text⟩ s.context =
      .ok ⟨⟨name, text⟩, s.context, ⟨cs, p⟩⟩ :=
    fun _ => Program.compile_eq_ok_iff.mpr ⟨_, _, hparse, hbody, rfl⟩
  rw [enter, hcompile]
  rfl

theorem exists_items_of_compile {source text : String} {c : Context} {q : Program}
    (h : Program.compile ⟨source, text⟩ c = .ok q) :
    ∃ p es, parse text = .ok (.block p es) ∧ Expr.lowerAll c.keywords es = .ok q.body.items := by
  obtain ⟨tree, body, hparse, hbody, rfl⟩ := Program.compile_eq_ok_iff.mp h
  obtain ⟨_, es, _, _, rfl⟩ := spells_of_parse hparse
  exact ⟨_, es, hparse, (Expr.lowerProgram_eq_ok_iff.mp hbody).1⟩

theorem enter_cases (s : Session) (text : String) (σ : Store) :
    (∃ e, s.enter host limit text σ =
      (.error (.compile e), { s with entries := s.entries + 1 }, σ)) ∨
    ∃ p es cs, parse text = .ok (.block p es) ∧
      Expr.lowerAll s.context.keywords es = .ok cs ∧
      s.enter host limit text σ = ((runItems (Code.eval host limit) s.scope cs σ).1.toExcept,
        { s with entries := s.entries + 1 }, (runItems (Code.eval host limit) s.scope cs σ).2) := by
  cases hcompile : Program.compile
      ⟨({ s with entries := s.entries + 1 } : Session).sourceName, text⟩ s.context with
  | error e =>
    left
    refine ⟨e, ?_⟩
    rw [enter, hcompile]
  | ok q =>
    right
    obtain ⟨p, es, hparse, hes⟩ := exists_items_of_compile hcompile
    exact ⟨p, es, q.body.items, hparse, hes, enter_eq hparse hes σ⟩

theorem exists_code_of_enter {s : Session} {text : String} {σ : Store} {v : Value}
    (h : (s.enter host limit text σ).1 = .ok v) :
    ∃ p es cs, parse text = .ok (.block p es) ∧ Expr.lowerAll s.context.keywords es = .ok cs := by
  rcases enter_cases s text σ with ⟨e, henter⟩ | ⟨p, es, cs, hparse, hcs, -⟩
  · rw [henter] at h
    cases h
  · exact ⟨p, es, cs, hparse, hcs⟩

theorem enterAll_cons {text : String} {texts : List String} {s s' : Session} {τ τ' : Store}
    {results : List (Except Failure Value)}
    (h : enterAll host limit (text :: texts) s τ = (results, s', τ')) :
    ∃ result s₁ τ₁ rest, s.enter host limit text τ = (result, s₁, τ₁) ∧
      enterAll host limit texts s₁ τ₁ = (rest, s', τ') ∧ results = result :: rest := by
  rw [enterAll] at h
  generalize s.enter host limit text τ = step at h
  obtain ⟨result, s₁, τ₁⟩ := step
  simp only at h
  generalize hrest : enterAll host limit texts s₁ τ₁ = run at h
  obtain ⟨rest, s₂, τ₂⟩ := run
  cases h
  exact ⟨result, s₁, τ₁, rest, rfl, hrest, rfl⟩

theorem entries_enter {s s' : Session} {text : String} {τ τ' : Store}
    {result : Except Failure Value} (h : s.enter host limit text τ = (result, s', τ')) :
    s'.entries = s.entries + 1 := by
  rcases enter_cases s text τ with ⟨e, henter⟩ | ⟨p, es, cs, -, -, henter⟩
  · rw [henter] at h
    cases h
    rfl
  · rw [henter] at h
    cases h
    rfl

theorem entries_enterAll {texts : List String} {s s' : Session} {τ τ' : Store}
    {results : List (Except Failure Value)}
    (h : enterAll host limit texts s τ = (results, s', τ')) :
    s'.entries = s.entries + texts.length := by
  induction texts generalizing s τ results with
  | nil =>
    cases h
    rfl
  | cons text texts ih =>
    obtain ⟨result, s₁, τ₁, rest, hfirst, hrest, rfl⟩ := enterAll_cons h
    rw [ih hrest, entries_enter hfirst, List.length_cons]
    omega

theorem runAll_of_enterAll {texts : List String} {s s' : Session} {σ σ' : Store}
    {rs : List (Except Failure Value)} (h : enterAll host limit texts s σ = (rs, s', σ'))
    (hok : ∀ r ∈ rs, ∃ v, r = .ok v) :
    s'.context = s.context ∧ s'.scope = s.scope ∧ ∃ trees bodies,
      List.Forall₂ (fun t es => ∃ p, parse t = .ok (.block p es)) texts trees ∧
      List.Forall₂ (fun es cs => Expr.lowerAll s.context.keywords es = .ok cs) trees bodies ∧
      runAll (Code.eval host limit) s.scope bodies σ = (.value (), σ') := by
  induction texts generalizing s σ rs with
  | nil =>
    cases h
    exact ⟨rfl, rfl, [], [], .nil, .nil, rfl⟩
  | cons text texts ih =>
    rw [enterAll] at h
    obtain ⟨v, hv⟩ : ∃ v, (s.enter host limit text σ).1 = .ok v := by
      cases h
      exact hok _ List.mem_cons_self
    obtain ⟨p, es, cs, hparse, hcs⟩ := exists_code_of_enter hv
    rw [enter_eq hparse hcs] at hv h
    cases h
    obtain ⟨hcontext, hscope, trees, bodies, htrees, hbodies, hrun⟩ := ih rfl
      fun r hr => hok r (List.mem_cons_of_mem _ hr)
    refine ⟨hcontext, hscope, es :: trees, cs :: bodies, .cons ⟨p, hparse⟩ htrees,
      .cons hcs hbodies, ?_⟩
    rw [runAll, Eval.bind_apply]
    generalize runItems (Code.eval host limit) s.scope cs σ = r at hv hrun
    obtain ⟨o, τ⟩ := r
    cases o with
    | value => exact hrun
    | error | tooDeep => cases hv

end Session

namespace Code

mutual

def withoutSpans : Code → Code
  | literal _ l => .literal default l
  | lookup _ name => .lookup default name
  | reference _ name => .reference default name
  | call _ callee args => .call default callee (withoutSpansAll args)
  | block _ items => .block default (withoutSpansAll items)

def withoutSpansAll : List Code → List Code
  | [] => []
  | c :: cs => withoutSpans c :: withoutSpansAll cs

end

end Code

def Function.withoutSpans (f : Function) : Function :=
  { f with body := ⟨Code.withoutSpansAll f.body.items, default⟩ }

def RuntimeError.withoutSpan : RuntimeError → RuntimeError
  | unresolved name _ => .unresolved name default
  | notCallable name found _ => .notCallable name found default
  | arity keyword expected got _ => .arity keyword expected got default
  | mismatch keyword position expected found _ => .mismatch keyword position expected found default
  | host keyword message _ => .host keyword message default

def Failure.withoutSpan : Failure → Failure
  | runtime e => .runtime e.withoutSpan
  | f => f

namespace Region

variable {P : Span → Span → Prop} {σ₀ τ₀ σ τ : Store} {w : Nat × Nat}

theorem plain_callees {c c' : Callee} (h : (plain P σ₀ τ₀).matching.Callees c c') : c = c' := by
  cases h with
  | keyword hk => rw [hk.1]
  | name hn => exact congrArg _ hn

mutual

theorem plain_codes : ∀ {c c' : Code}, (plain P σ₀ τ₀).matching.Codes c c' →
    c.withoutSpans = c'.withoutSpans
  | .literal _ _, _, .literal _ _ => rfl
  | .lookup _ _, _, .lookup _ hn => congrArg (Code.lookup default) hn
  | .reference _ _, _, .reference _ hn => congrArg (Code.reference default) hn
  | .call _ _ args, _, .call _ hc hargs =>
    congrArg₂ (Code.call default) (plain_callees hc) (plain_codesAll args hargs)
  | .block _ items, _, .block _ hitems =>
    congrArg (Code.block default) (plain_codesAll items hitems)

theorem plain_codesAll : ∀ (cs : List Code) {cs' : List Code},
    List.Forall₂ (plain P σ₀ τ₀).matching.Codes cs cs' →
    Code.withoutSpansAll cs = Code.withoutSpansAll cs'
  | [], _, .nil => rfl
  | _ :: cs, _, .cons hc hcs => congrArg₂ List.cons (plain_codes hc) (plain_codesAll cs hcs)

end

theorem map_eq_of_parts {α β : Type} {f : α → β} {a b : Array α} {n k : Nat} (ha : a.size = n + k)
    (hb : b.size = n + k) (hold : ∀ i < n, a[i]? = b[i]?)
    (hnew : ∀ i < k, Option.Rel (fun x y => f x = f y) a[n + i]? b[n + i]?) :
    a.map f = b.map f := by
  apply Array.ext_getElem?
  intro i
  rw [Array.getElem?_map, Array.getElem?_map]
  by_cases hi : i < n
  · rw [hold i hi]
  by_cases hk : i - n < k
  · have hrel := hnew (i - n) hk
    rw [Nat.add_sub_cancel' (Nat.le_of_not_lt hi)] at hrel
    generalize a[i]? = x at hrel
    generalize b[i]? = y at hrel
    cases hrel with
    | none => rfl
    | some h => exact congrArg some h
  · have hna : a[i]? = none := Array.getElem?_eq_none (by omega)
    have hnb : b[i]? = none := Array.getElem?_eq_none (by omega)
    rw [hna, hnb]

theorem same_scope {s s' : Scope} (h : (plain P σ₀ σ₀).matching.scope w s s') : s = s' := by
  obtain ⟨i, -, rfl, rfl⟩ := h
  rfl

theorem same_value {v v' : Value} (h : (plain P σ₀ σ₀).matching.Values w v v') : v = v' := by
  cases h with
  | function hi =>
    obtain ⟨i, -, rfl, rfl⟩ := hi
    rfl
  | keyword hk => rw [hk.1]
  | null | number | string | boolean | host => rfl

theorem same_entries {α : Type} {V : α → α → Prop} (hV : ∀ a b, V a b → a = b) {b b' : Bindings α}
    (h : (plain P σ₀ τ₀).Entries V b b') : b = b' := by
  obtain ⟨es⟩ := b
  obtain ⟨es'⟩ := b'
  have heq : List.Forall₂ Eq es es' := h.imp fun _ _ he => Prod.ext he.1 (hV _ _ he.2)
  rw [List.forall₂_eq_eq_eq] at heq
  rw [heq]

theorem same_frame {f f' : Frame} (h : (plain P σ₀ σ₀).Frames w f f') : f = f' := by
  obtain ⟨bindings, outer⟩ := f
  obtain ⟨bindings', outer'⟩ := f'
  obtain ⟨hbindings, houter⟩ := h
  have hb : bindings = bindings' := same_entries (fun _ _ => same_value) hbindings
  have ho : outer = outer' := by
    cases houter with
    | root hk => exact congrArg _ (same_entries (fun _ _ hk => hk.1) hk)
    | child hs => exact congrArg _ (same_scope hs)
  rw [hb, ho]

theorem same_function {f f' : Function} (h : (plain P σ₀ σ₀).matching.Functions w f f') :
    f.withoutSpans = f'.withoutSpans := by
  obtain ⟨params, body, captured⟩ := f
  obtain ⟨params', body', captured'⟩ := f'
  obtain ⟨hparams, hbody, hcaptured⟩ := h
  have hp : params = params' := List.forall₂_eq_eq_eq ▸ hparams
  have hc : captured = captured' := same_scope hcaptured
  simp only [Function.withoutSpans, hp, hc, plain_codesAll _ hbody.items]

theorem plain_errors_withoutSpan {e e' : RuntimeError}
    (h : (plain P σ₀ τ₀).matching.Errors e e') : e.withoutSpan = e'.withoutSpan := by
  cases h with
  | unresolved hn => exact congrArg (RuntimeError.unresolved · default) hn
  | notCallable hn found => exact congrArg (RuntimeError.notCallable · found default) hn
  | arity | mismatch => rfl

theorem same_frames (h : (plain P σ₀ σ₀).Stores w σ τ) : σ.frames = τ.frames := by
  have hmap : σ.frames.map id = τ.frames.map id := by
    refine map_eq_of_parts h.frames_left h.frames_right (fun i hi => ?_) fun i hi => ?_
    · exact (h.kept_left ⟨i⟩ hi).trans (h.kept_right ⟨i⟩ hi).symm
    · exact rel_mono (fun _ _ => same_frame) (h.frame i hi)
  rwa [Array.map_id, Array.map_id] at hmap

theorem same_functions (h : (plain P σ₀ σ₀).Stores w σ τ) :
    σ.functions.map Function.withoutSpans = τ.functions.map Function.withoutSpans := by
  refine map_eq_of_parts h.functions_left h.functions_right (fun i hi => ?_) fun i hi => ?_
  · exact (h.kept_functions_left i hi).trans (h.kept_functions_right i hi).symm
  · exact rel_mono (fun _ _ => same_function) (h.function i hi)

theorem same_outcome {o o' : Outcome Value}
    (h : (plain P σ₀ σ₀).matching.Outcomes ((plain P σ₀ σ₀).matching.Values w) o o') :
    o.toExcept.mapError Failure.withoutSpan = o'.toExcept.mapError Failure.withoutSpan := by
  cases h with
  | value hv => rw [same_value hv]
  | error he =>
    exact congrArg (fun e => Except.error (Failure.runtime e)) (plain_errors_withoutSpan he)
  | tooDeep => rfl

end Region

namespace Session

variable {host : Host} {limit : Nat}

/-- Code that is entered piece by piece in a new session, and the same code as one program. -/
theorem related_program (host : Host) (limit : Nat) {c : Context} (hc : c.SelfContained) {σ : Store}
    {bodies : List (List Code)} {last : List Code} (hne : last ≠ []) {p : Program}
    (hcontext : p.context = c)
    (hcodes : List.Forall₂ (Region.plain (fun _ _ => True) σ σ).matching.Codes
      (bodies.flatten ++ last) p.body.items) :
    let ρ := Region.plain (fun _ _ => True) σ σ
    ρ.simulation.Related ρ.matching.Values (0, 0)
      (do
        let s ← Eval.update c.newScope
        runAll (Code.eval host limit) s bodies
        runItems (Code.eval host limit) s last)
      (p.run host limit) := by
  intro ρ
  subst hcontext
  have hcontexts : ρ.Contexts p.context p.context := Region.plain_contexts hc
  refine .bind (Region.related_newScope hcontexts) fun w _ s s' hs => ?_
  exact (Simulation.evaluators_eval host host limit).runAll_last hs hcodes hne

theorem exists_program {c : Context} (hc : c.SelfContained) (σ : Store) (name : String)
    {texts : List String} {trees : List (List Expr)} {codes : List (List Code)} (hne : texts ≠ [])
    (htrees : List.Forall₂ (fun t es => ∃ p, parse t = .ok (.block p es)) texts trees)
    (hcodes : List.Forall₂ (fun es cs => Expr.lowerAll c.keywords es = .ok cs) trees codes) :
    ∃ p, Program.compile ⟨name, "\n".intercalate texts⟩ c = .ok p ∧ p.context = c ∧
      List.Forall₂ (Region.plain (fun _ _ => True) σ σ).matching.Codes codes.flatten
        p.body.items := by
  have hcontexts : (Region.plain (fun _ _ => True) σ σ).Contexts c c := Region.plain_contexts hc
  obtain ⟨p, items, hparse, hitems⟩ :=
    Matching.parse_intercalate (M := (Region.plain (fun _ _ => True) σ σ).matching)
      (fun _ _ => trivial) (fun _ => rfl) hne htrees
  have hflat : Expr.lowerAll c.keywords trees.flatten = .ok codes.flatten :=
    Expr.lowerAll_eq_ok_iff.mpr
      (List.rel_flatten (hcodes.imp fun _ _ => Expr.lowerAll_eq_ok_iff.mp))
  obtain ⟨cs, hcs, hall⟩ := Matching.Trees.lowerAll hcontexts.tables _ hitems hflat
  refine ⟨⟨⟨name, _⟩, c, ⟨cs, p⟩⟩, Program.compile_eq_ok_iff.mpr ⟨_, _, hparse, ?_, rfl⟩, rfl,
    hall⟩
  exact Expr.lowerProgram_eq_ok_iff.mpr ⟨hcs, rfl⟩

/-- Entries in a new session, the last of which has an expression, and the program of all their
lines: the last entry ends as the program does, and in the same frames and functions, up to places
in the source. -/
theorem enter_eq_run {table : Nat} {σ σ₀ σ₁ σ₂ : Store} {s s₁ s₂ : Session} {init : List String}
    {last : String} {results : List (Except Failure Value)} {result : Except Failure Value}
    {source : String} {q : Program} (hstart : start (.builtin table) σ = (s, σ₀))
    (hinit : enterAll host limit init s σ₀ = (results, s₁, σ₁))
    (hok : ∀ r ∈ results, ∃ v, r = .ok v)
    (hlast : Program.compile ⟨source, last⟩ (.builtin table) = .ok q) (hne : q.body.items ≠ [])
    (henter : s₁.enter host limit last σ₁ = (result, s₂, σ₂)) (name : String) :
    ∃ p, Program.compile ⟨name, "\n".intercalate (init ++ [last])⟩ (.builtin table) = .ok p ∧
      result.mapError Failure.withoutSpan =
        (p.run host limit σ).1.toExcept.mapError Failure.withoutSpan ∧
      σ₂.frames = (p.run host limit σ).2.frames ∧
      σ₂.functions.map Function.withoutSpans =
        (p.run host limit σ).2.functions.map Function.withoutSpans := by
  have hc := Context.selfContained_builtin table
  obtain ⟨hcontext, hscope, trees, bodies, htrees, hbodies, hrun⟩ := runAll_of_enterAll hinit hok
  obtain ⟨span, es, hparse, hes⟩ := exists_items_of_compile hlast
  cases hstart
  rw [enter_eq hparse (by rw [hcontext]; exact hes), hscope] at henter
  cases henter
  obtain ⟨p, hp, hpc, hcodes⟩ := exists_program hc σ name
    (List.append_ne_nil_of_right_ne_nil init (List.cons_ne_nil last []))
    (List.rel_append htrees (.cons ⟨span, hparse⟩ .nil)) (List.rel_append hbodies (.cons hes .nil))
  rw [List.flatten_append, List.flatten_singleton] at hcodes
  -- the session has made the root scope and run all entries but the last
  have hsession : (do
      let s ← Eval.update (Context.builtin table).newScope
      runAll (Code.eval host limit) s bodies
      runItems (Code.eval host limit) s q.body.items) σ =
        runItems (Code.eval host limit) ⟨σ.frames.size⟩ q.body.items σ₁ := by
    change (runAll (Code.eval host limit) ⟨σ.frames.size⟩ bodies >>= fun _ =>
      runItems (Code.eval host limit) ⟨σ.frames.size⟩ q.body.items) _ = _
    rw [Eval.bind_apply, hrun]
  obtain ⟨made, -, hstores, houtcomes⟩ :=
    related_program host limit hc hne hpc hcodes σ σ (Region.stores_start _)
  rw [hsession] at hstores houtcomes
  exact ⟨p, hp, Region.same_outcome houtcomes, Region.same_frames hstores,
    Region.same_functions hstores⟩

/-- A function that is made in the second entry changes a variable of the first. -/
def closureEntries : List String :=
  ["var(@n) // unset", "var(@mark, function({ set(@n, v) }, @v))"]

theorem isOk_closureEntries :
    (enterAll Host.absent 9 closureEntries (start (.builtin 0) .empty).1
      (start (.builtin 0) .empty).2).1.all Except.isOk = true := by
  decide +kernel

theorem enter_eq_run_closure :
    ∃ results s₁ σ₁ q result s₂ σ₂ p,
      enterAll Host.absent 9 closureEntries (start (.builtin 0) .empty).1
        (start (.builtin 0) .empty).2 = (results, s₁, σ₁) ∧
      (∀ r ∈ results, ∃ v, r = .ok v) ∧
      Program.compile ⟨"last", "mark(true) n"⟩ (.builtin 0) = .ok q ∧ q.body.items ≠ [] ∧
      s₁.enter Host.absent 9 "mark(true) n" σ₁ = (result, s₂, σ₂) ∧
      Program.compile ⟨"all", "\n".intercalate (closureEntries ++ ["mark(true) n"])⟩ (.builtin 0) =
        .ok p ∧
      result.mapError Failure.withoutSpan =
        (p.run Host.absent 9 .empty).1.toExcept.mapError Failure.withoutSpan ∧
      σ₂.frames = (p.run Host.absent 9 .empty).2.frames := by
  have hok : ∀ r ∈ (enterAll Host.absent 9 closureEntries (start (.builtin 0) .empty).1
      (start (.builtin 0) .empty).2).1, ∃ v, r = .ok v := by
    intro r hr
    have hrok := List.all_eq_true.mp isOk_closureEntries r hr
    cases r with
    | ok v => exact ⟨v, rfl⟩
    | error e => cases hrok
  obtain ⟨q, hq, hne⟩ : ∃ q, Program.compile ⟨"last", "mark(true) n"⟩ (.builtin 0) = .ok q ∧
      q.body.items ≠ [] := by
    have hitems : (Program.compile ⟨"last", "mark(true) n"⟩ (.builtin 0)).map
        (·.body.items.length) = .ok 2 := by
      decide +kernel
    obtain ⟨q, hq, hlength⟩ := Except.map_eq_ok_iff.mp hitems
    exact ⟨q, hq, List.ne_nil_of_length_eq_add_one hlength⟩
  obtain ⟨p, hp, hresult, hframes, -⟩ := enter_eq_run rfl rfl hok hq hne rfl "all"
  exact ⟨_, _, _, q, _, _, _, p, rfl, hok, hq, hne, rfl, hp, hresult, hframes⟩

end Session

end Fexpr
