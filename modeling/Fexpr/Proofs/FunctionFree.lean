import Fexpr.Proofs.Noting
import Fexpr.Proofs.Reachability
import Fexpr.Proofs.ScopeHistory

/-!
# Programs without functions

A tree that does not mention `function` cannot get at that keyword, whatever names its keywords are
bound to and however they are called. No function is then ever made or called, so evaluation follows
the tree: it ends, goes no deeper than the tree is high, and comes to the nodes from left to right,
to none of them twice.
-/

namespace Fexpr

def Value.FunctionFree : Value → Prop
  | .function _ => False
  | .keyword (.builtin _ b) => b ≠ .function
  | .keyword (.host _ _) => False
  | _ => True

structure Frame.FunctionFree (base : Nat) (f : Frame) : Prop where
  values : ∀ v ∈ f.bindings.values, v.FunctionFree
  parent : ∀ p, f.outer = .child p → base ≤ p.index
  keywords : ∀ keywords, f.outer = .root keywords → ∀ name k, name ≠ "function" →
    keywords.find? name = some k → (Value.keyword k).FunctionFree

/-- The frames from a place on hold no functions and do not lead to others. -/
structure Store.FunctionFree (base : Nat) (σ : Store) : Prop where
  le : base ≤ σ.frames.size
  frame : ∀ t f, base ≤ t.index → σ.frame? t = some f → f.FunctionFree base

def Callee.FunctionFree : Callee → Prop
  | keyword k => (Value.keyword k).FunctionFree
  | name n => n ≠ "function"

inductive Code.FunctionFree : Nat → Code → Prop where
  | literal {n : Nat} (p : Span) (l : Literal) : FunctionFree (n + 1) (.literal p l)
  | lookup {n : Nat} {name : String} (p : Span) (h : name ≠ "function") :
    FunctionFree (n + 1) (.lookup p name)
  | reference {n : Nat} {name : String} (p : Span) (h : name ≠ "function") :
    FunctionFree (n + 1) (.reference p name)
  | call {n : Nat} {callee : Callee} {args : List Code} (p : Span) (hcallee : callee.FunctionFree)
    (hargs : ∀ c ∈ args, FunctionFree n c) : FunctionFree (n + 1) (.call p callee args)
  | block {n : Nat} {items : List Code} (p : Span) (hitems : ∀ c ∈ items, FunctionFree n c) :
    FunctionFree (n + 1) (.block p items)

theorem Code.spansAll_append (cs ds : List Code) :
    Code.spansAll (cs ++ ds) = Code.spansAll cs ++ Code.spansAll ds := by
  induction cs with
  | nil => rfl
  | cons c cs ih => rw [List.cons_append, Code.spansAll, ih, Code.spansAll, List.append_assoc]

theorem Code.spans_sublist {c : Code} {cs : List Code} (h : c ∈ cs) :
    c.spans.Sublist (Code.spansAll cs) := by
  obtain ⟨front, back, rfl⟩ := List.append_of_mem h
  rw [Code.spansAll_append, Code.spansAll]
  exact (List.sublist_append_left _ _).trans (List.sublist_append_right _ _)

namespace Store.FunctionFree

variable {base : Nat} {σ : Store} {s : Scope} {name : String} {v : Value}

theorem lookup {s : Scope} (hσ : σ.FunctionFree base) (hs : base ≤ s.index) (hname : name ≠ "function")
    (h : σ.lookup s name = some v) : v.FunctionFree := by
  rw [lookup_eq] at h
  cases hf : σ.frame? s with
  | none =>
    rw [hf] at h
    cases h
  | some f =>
    have hfree := hσ.frame s f hs hf
    simp only [hf] at h
    cases hv : f.bindings.find? name with
    | some x =>
      simp only [hv] at h
      cases h
      exact hfree.values v (Bindings.mem_values_of_find? hv)
    | none =>
      cases ho : f.outer with
      | root keywords =>
        simp only [hv, ho] at h
        obtain ⟨k, hk, rfl⟩ := Option.map_eq_some_iff.mp h
        exact hfree.keywords keywords ho name k hname hk
      | child p =>
        simp only [hv, ho] at h
        split at h
        · exact lookup hσ (hfree.parent p ho) hname h
        · cases h
termination_by s.index

theorem note (hσ : σ.FunctionFree base) (line : String) : (σ.note line).FunctionFree base :=
  ⟨hσ.le, hσ.frame⟩

theorem declare (hσ : σ.FunctionFree base) (hv : v.FunctionFree) (s : Scope) (name : String) :
    (σ.declare s name v).FunctionFree base := by
  constructor
  · rw [size_declare]
    exact hσ.le
  · intro t g ht hg
    obtain ⟨f, hf, houter, hkeeps⟩ := forall_values_declare hv hg
    obtain ⟨hvalues, hparent, hkeywords⟩ := hσ.frame t f ht hf
    exact ⟨hkeeps hvalues, houter ▸ hparent, houter ▸ hkeywords⟩

theorem addFrame {f : Frame} (hσ : σ.FunctionFree base) (hf : f.FunctionFree base) :
    (σ.addFrame f).2.FunctionFree base := by
  constructor
  · have hle := hσ.le
    simp only [Store.addFrame, Array.size_push]
    omega
  · intro t g ht hg
    rcases frame?_addFrame_eq_some hg with hg | ⟨-, rfl⟩
    · exact hσ.frame t g ht hg
    · exact hf

end Store.FunctionFree

/-- A computation that ends, leaves no functions behind, and notes some of the places, in order. -/
def Eval.Visits {α : Type} (base : Nat) (places : List Span) (P : α → Prop) (x : Eval α) : Prop :=
  ∀ σ, σ.FunctionFree base →
    (x σ).1 ≠ .tooDeep ∧ (∀ a, (x σ).1 = .value a → P a) ∧ (x σ).2.FunctionFree base ∧
      ∃ visited : List Span, visited.Sublist places ∧
        (x σ).2.journal = σ.journal ++ (visited.map fun p => toString p.start).toArray

def Evaluator.Follows (ev : Evaluator) (base : Nat) (code : Code) : Prop :=
  ∀ s, base ≤ s.index → (ev code s).Visits base code.spans Value.FunctionFree

namespace Eval.Visits

variable {α β : Type} {base : Nat} {places more : List Span} {P : α → Prop} {Q : β → Prop}
  {x : Eval α} {s : Scope} {v : Value}

theorem of_value {x : Eval α} (h : ∀ σ, σ.FunctionFree base → ∃ a τ, x σ = (.value a, τ) ∧ P a ∧
    τ.FunctionFree base ∧ τ.journal = σ.journal) : x.Visits base places P := by
  intro σ hσ
  obtain ⟨a, τ, hx, ha, hτ, hjournal⟩ := h σ hσ
  rw [hx]
  refine ⟨?_, ?_, hτ, [], List.nil_sublist places, ?_⟩
  · rintro ⟨⟩
  · rintro _ ⟨⟩
    exact ha
  · rw [List.map_nil, ← hjournal, Array.append_empty]

theorem pure {a : α} (h : P a) : (Pure.pure a : Eval α).Visits base places P :=
  of_value fun σ hσ => ⟨a, σ, rfl, h, hσ, rfl⟩

theorem fail (e : RuntimeError) : (Eval.fail e : Eval α).Visits base places P := by
  intro σ hσ
  refine ⟨?_, ?_, hσ, [], List.nil_sublist places, ?_⟩
  · rintro ⟨⟩
  · rintro _ ⟨⟩
  · exact Array.append_empty.symm

theorem note (p : Span) : (Eval.note (toString p.start)).Visits base [p] fun _ => True := by
  intro σ hσ
  refine ⟨?_, fun _ _ => trivial, hσ.note _, [p], List.Sublist.refl _, ?_⟩
  · rintro ⟨⟩
  · exact Array.push_eq_append

theorem bind {f : α → Eval β} (hx : x.Visits base places P)
    (hf : ∀ a, P a → (f a).Visits base more Q) : (x >>= f).Visits base (places ++ more) Q := by
  intro σ hσ
  obtain ⟨hends, hresult, hfree, visited, hsublist, hjournal⟩ := hx σ hσ
  rw [Eval.bind_apply]
  generalize x σ = r at hends hresult hfree hjournal
  obtain ⟨o, τ⟩ := r
  cases o with
  | value a =>
    obtain ⟨hends', hresult', hfree', visited', hsublist', hjournal'⟩ := hf a (hresult a rfl) τ hfree
    refine ⟨hends', hresult', hfree', visited ++ visited', hsublist.append hsublist', ?_⟩
    rw [hjournal', hjournal, List.map_append, ← List.append_toArray, Array.append_assoc]
  | error e =>
    refine ⟨?_, ?_, hfree, visited, ?_, hjournal⟩
    · rintro ⟨⟩
    · rintro _ ⟨⟩
    · exact hsublist.trans (List.sublist_append_left _ _)
  | tooDeep => exact absurd rfl hends

theorem weaken (h : x.Visits base places P) (hsub : places.Sublist more) :
    x.Visits base more P := by
  intro σ hσ
  obtain ⟨hends, hresult, hfree, visited, hsublist, hjournal⟩ := h σ hσ
  exact ⟨hends, hresult, hfree, visited, hsublist.trans hsub, hjournal⟩

theorem bind_quiet {f : α → Eval β} (hx : x.Visits base [] P)
    (hf : ∀ a, P a → (f a).Visits base places Q) : (x >>= f).Visits base places Q :=
  bind hx hf

theorem bind_last {f : α → Eval β} (hx : x.Visits base places P)
    (hf : ∀ a, P a → (f a).Visits base [] Q) : (x >>= f).Visits base places Q := by
  rw [← List.append_nil places]
  exact bind hx hf

theorem note_bind (p : Span) {f : Unit → Eval β} (hf : (f ()).Visits base places Q) :
    (Eval.note (toString p.start) >>= f).Visits base (p :: places) Q :=
  bind (note p) fun _ _ => hf

theorem resolve {name : String} (hs : base ≤ s.index) (hname : name ≠ "function") (p : Span) :
    (Eval.resolve s name p).Visits base places Value.FunctionFree := by
  refine bind_quiet (P := fun o => ∀ v, o = some v → v.FunctionFree) (of_value ?_) ?_
  · intro σ hσ
    exact ⟨σ.lookup s name, σ, rfl, fun v hv => hσ.lookup hs hname hv, hσ, rfl⟩
  · intro o ho
    cases o with
    | none => exact fail _
    | some v => exact pure (ho v rfl)

theorem child (hs : base ≤ s.index) :
    (Eval.child s).Visits base places fun t => base ≤ t.index := by
  apply of_value
  intro σ hσ
  refine ⟨_, _, rfl, hσ.le, hσ.addFrame ⟨?_, ?_, ?_⟩, rfl⟩
  · rintro v ⟨⟩
  · rintro p ⟨⟩
    exact hs
  · rintro keywords ⟨⟩

theorem declare (s : Scope) (name : String) (hv : v.FunctionFree) :
    (Eval.declare s name v).Visits base places fun _ => True :=
  of_value fun _ hσ => ⟨(), _, rfl, trivial, hσ.declare hv s name, rfl⟩

theorem assign (s : Scope) (name : String) (hv : v.FunctionFree) :
    (Eval.assign s name v).Visits base places fun _ => True := by
  apply of_value
  intro σ hσ
  rw [Eval.assign]
  cases h : σ.assign? s name v with
  | none => exact ⟨false, σ, rfl, trivial, hσ, rfl⟩
  | some τ =>
    obtain ⟨t, -, rfl⟩ := Option.map_eq_some_iff.mp h
    exact ⟨true, _, rfl, trivial, hσ.declare hv t name, rfl⟩

variable {ev : Evaluator} {c : Call} {codes : List Code}

theorem foldlM (hs : base ≤ s.index) : ∀ (codes : List Code) (v : Value),
    (∀ code ∈ codes, ev.Follows base code) → v.FunctionFree →
      (codes.foldlM (fun _ code => ev code s) v).Visits base (Code.spansAll codes)
        Value.FunctionFree
  | [], _, _, hv => pure hv
  | code :: codes, _, h, _ => by
    obtain ⟨hcode, hcodes⟩ := List.forall_mem_cons.mp h
    rw [List.foldlM_cons, Code.spansAll]
    exact bind (hcode s hs) fun u hu => foldlM hs codes u hcodes hu

theorem runItems (hs : base ≤ s.index) (h : ∀ code ∈ codes, ev.Follows base code) :
    (runItems ev s codes).Visits base (Code.spansAll codes) Value.FunctionFree :=
  foldlM hs codes .null h trivial

theorem search (sought : Value → Bool) (hs : base ≤ s.index) : ∀ codes : List Code,
    (∀ code ∈ codes, ev.Follows base code) →
      (Builtin.search sought ev s codes).Visits base (Code.spansAll codes) fun _ => True
  | [], _ => pure trivial
  | code :: codes, h => by
    obtain ⟨hcode, hcodes⟩ := List.forall_mem_cons.mp h
    rw [Builtin.search, Code.spansAll]
    refine bind (hcode s hs) fun v _ => ?_
    split
    · exact pure trivial
    · exact search sought hs codes hcodes

theorem checkArity (a : Arity) : (c.checkArity a).Visits base places fun _ => True := by
  rw [Call.checkArity]
  split
  · exact pure trivial
  · exact fail _

theorem reference (index : Nat) : (c.reference index).Visits base places fun _ => True := by
  rw [Call.reference]
  split
  · exact pure trivial
  · exact fail _

theorem evalArg (hc : base ≤ c.scope.index) (h : ∀ code ∈ c.args, ev.Follows base code)
    {index : Nat} (hmem : ∀ code, c.args[index]? = some code → code ∈ codes) :
    (c.eval ev index).Visits base (Code.spansAll codes) Value.FunctionFree := by
  rw [Call.eval, Call.evalIn]
  split
  · rename_i code hcode
    exact (h code (List.mem_of_getElem? hcode) _ hc).weaken (Code.spans_sublist (hmem code hcode))
  · exact pure trivial

theorem builtin {b : Builtin} (hb : b ≠ .function) (hc : base ≤ c.scope.index)
    (h : ∀ code ∈ c.args, ev.Follows base code) :
    (b.run ev c).Visits base (Code.spansAll c.args) Value.FunctionFree := by
  have hany : ∀ {i code}, c.args[i]? = some code → code ∈ c.args := List.mem_of_getElem?
  have hfirst : ∀ code, c.args[0]? = some code → code ∈ c.args.take 1 := by
    intro code hcode
    exact List.mem_of_getElem? (i := 0) (by simpa using hcode)
  have hlater : ∀ i code, c.args[i + 1]? = some code → code ∈ c.args.drop 1 := by
    intro i code hcode
    exact List.mem_of_getElem? (i := i) (by simpa [Nat.add_comm] using hcode)
  have hparts : Code.spansAll c.args =
      Code.spansAll (c.args.take 1) ++ Code.spansAll (c.args.drop 1) := by
    rw [← Code.spansAll_append, List.take_append_drop]
  refine bind_quiet (checkArity b.arity) fun _ _ => ?_
  cases b with
  | var =>
    refine bind_quiet (reference 0) fun name _ => ?_
    refine bind_last (evalArg hc h fun _ => hany) fun v hv => ?_
    exact bind_quiet (declare c.scope name hv) fun _ _ => pure hv
  | set =>
    refine bind_quiet (reference 0) fun name _ => ?_
    refine bind_last (evalArg hc h fun _ => hany) fun v hv => ?_
    refine bind_quiet (assign c.scope name hv) fun found _ => ?_
    cases found with
    | false => exact fail _
    | true => exact pure hv
  | cond =>
    -- only one of the branches is evaluated, and both stand behind the condition
    rw [hparts]
    refine bind (evalArg hc h hfirst) fun v _ => ?_
    split
    · exact evalArg hc h (hlater 0)
    · exact evalArg hc h (hlater 1)
  | function => exact absurd rfl hb
  | eq =>
    rw [hparts]
    refine bind (evalArg hc h hfirst) fun v _ => ?_
    exact bind_last (evalArg hc h (hlater 0)) fun u _ => pure trivial
  | not => exact bind_last (evalArg hc h fun _ => hany) fun v _ => pure trivial
  | any => exact bind_last (search _ hc c.args h) fun _ _ => pure trivial
  | all => exact bind_last (search _ hc c.args h) fun _ _ => pure trivial

end Eval.Visits

namespace Interpreter

open Eval

variable {I : Interpreter} {base n : Nat} {c : Call} {v : Value} {s : Scope} {code : Code}

theorem visits_runKeyword (host : Host) {k : Keyword} (hk : (Value.keyword k).FunctionFree)
    (hc : base ≤ c.scope.index) (h : ∀ code ∈ c.args, I.eval.Follows base code) :
    (I.runKeyword host k c).Visits base (Code.spansAll c.args) Value.FunctionFree := by
  cases k with
  | builtin table b => exact Visits.builtin hk hc h
  | host id name => exact hk.elim

theorem visits_invokeStep (host : Host) (hv : v.FunctionFree) (hc : base ≤ c.scope.index)
    (h : ∀ code ∈ c.args, I.eval.Follows base code) :
    (I.invokeStep host v c).Visits base (Code.spansAll c.args) Value.FunctionFree := by
  cases v with
  | keyword k => exact visits_runKeyword host hv hc h
  | function i => exact hv.elim
  | null | number | string | boolean | host => exact Visits.fail _

theorem visits_evalStep (host : Host) (hI : ∀ code, code.FunctionFree n → I.eval.Follows base code)
    (hcode : code.FunctionFree (n + 1)) (hs : base ≤ s.index) :
    (do Eval.note (toString code.span.start); I.evalStep host code s).Visits base code.spans
      Value.FunctionFree := by
  cases hcode with
  | literal p l =>
    apply Visits.note_bind
    apply Visits.pure
    cases l <;> trivial
  | lookup p h => exact Visits.note_bind p (Visits.resolve hs h p)
  | reference p h => exact Visits.note_bind p (Visits.resolve hs h p)
  | block p hitems =>
    apply Visits.note_bind
    refine Visits.bind_quiet (Visits.child hs) fun inner hinner => ?_
    exact Visits.runItems hinner fun item hitem => hI item (hitems item hitem)
  | @call _ callee args p hcallee hargs =>
    have hfollows : ∀ arg ∈ args, I.eval.Follows base arg := fun arg harg => hI arg (hargs arg harg)
    apply Visits.note_bind
    cases callee with
    | keyword k => exact visits_runKeyword host hcallee hs hfollows
    | name name =>
      refine Visits.bind_quiet (Visits.resolve hs hcallee p) fun v hv => ?_
      exact visits_invokeStep host hv hs hfollows

end Interpreter

/-- Evaluation comes to an end and to no node twice, if it may be nested as deeply as the code. -/
theorem Code.FunctionFree.follows (host : Host) (base : Nat) : ∀ {n : Nat} {code : Code},
    code.FunctionFree n → Evaluator.Follows (Code.evalNoting host n) base code
  | 0, _, h => by cases h
  | n + 1, code, h => by
    intro s hs
    rw [Code.evalNoting]
    exact Interpreter.visits_evalStep host (fun _ hpart => hpart.follows host base) h hs

theorem Keywords.functionFree_of_find? {table : Nat} {name : String} {k : Keyword}
    (hname : name ≠ "function") (h : (Keywords.builtins table).find? name = some k) :
    (Value.keyword k).FunctionFree := by
  obtain ⟨entry, hentry, rfl⟩ := Option.map_eq_some_iff.mp h
  have heq : entry.1 = name := by simpa using List.find?_some hentry
  obtain ⟨b, -, rfl⟩ := List.mem_map.mp (List.mem_of_find?_eq_some hentry)
  rintro rfl
  exact hname heq.symm

namespace Expr

mutual

def height : Expr → Nat
  | literal _ _ | lookup _ _ | reference _ _ => 1
  | invocation _ callee args => max callee.height (heightAll args) + 1
  | block _ items => heightAll items + 1

def heightAll : List Expr → Nat
  | [] => 0
  | e :: es => max e.height (heightAll es)

end

mutual

theorem names_numberFrom : ∀ (i : Nat) (e : Expr), (e.numberFrom i).names = e.names
  | _, .literal _ _ | _, .lookup _ _ | _, .reference _ _ => rfl
  | i, .invocation _ callee args => by
    rw [numberFrom, names, names, names_numberFrom, namesAll_numberFrom]
  | i, .block _ items => by rw [numberFrom, names, names, namesAll_numberFrom]

theorem namesAll_numberFrom : ∀ (i : Nat) (es : List Expr),
    namesAll (numberAllFrom i es) = namesAll es
  | _, [] => rfl
  | i, e :: es => by rw [numberAllFrom, namesAll, namesAll, names_numberFrom, namesAll_numberFrom]

end

mutual

theorem height_numberFrom : ∀ (i : Nat) (e : Expr), (e.numberFrom i).height = e.height
  | _, .literal _ _ | _, .lookup _ _ | _, .reference _ _ => rfl
  | i, .invocation _ callee args => by
    rw [numberFrom, height, height, height_numberFrom, heightAll_numberFrom]
  | i, .block _ items => by rw [numberFrom, height, height, heightAll_numberFrom]

theorem heightAll_numberFrom : ∀ (i : Nat) (es : List Expr),
    heightAll (numberAllFrom i es) = heightAll es
  | _, [] => rfl
  | i, e :: es => by
    rw [numberAllFrom, heightAll, heightAll, height_numberFrom, heightAll_numberFrom]

end

variable {table : Nat}

theorem functionFree_callee {e : Expr} {callee : Callee} (hfree : "function" ∉ e.names)
    (h : e.callee (.builtins table) = .ok callee) : callee.FunctionFree := by
  cases e with
  | lookup p name =>
    have hname : name ≠ "function" := fun heq => hfree (heq ▸ List.mem_cons_self)
    rw [Expr.callee] at h
    cases hk : (Keywords.builtins table).find? name with
    | none =>
      rw [hk] at h
      cases h
      exact hname
    | some k =>
      rw [hk] at h
      cases h
      exact Keywords.functionFree_of_find? hname hk
  | reference p name =>
    cases h
    exact fun heq => hfree (heq ▸ List.mem_cons_self)
  | literal | invocation | block => cases h

mutual

theorem functionFree_lower : ∀ {n : Nat} (e : Expr) {c : Code}, "function" ∉ e.names →
    e.height ≤ n → e.lower (.builtins table) = .ok c → c.FunctionFree n
  | 0, .literal _ _, _, _, hn, _ | 0, .lookup _ _, _, _, hn, _ | 0, .reference _ _, _, _, hn, _
  | 0, .invocation _ _ _, _, _, hn, _ | 0, .block _ _, _, _, hn, _ => by cases hn
  | n + 1, .literal p l, _, _, _, h => by
    cases h
    exact .literal p l
  | n + 1, .lookup p name, _, hfree, _, h => by
    cases h
    exact .lookup p fun heq => hfree (heq ▸ List.mem_cons_self)
  | n + 1, .reference p name, _, hfree, _, h => by
    cases h
    exact .reference p fun heq => hfree (heq ▸ List.mem_cons_self)
  | n + 1, .invocation p callee args, _, hfree, hn, h => by
    obtain ⟨k, cs, hk, hcs, rfl⟩ := lower_invocation_eq_ok_iff.mp h
    rw [names, List.mem_append, not_or] at hfree
    rw [height] at hn
    exact .call p (functionFree_callee hfree.1 hk)
      (functionFree_lowerAll args hfree.2 (by omega) hcs)
  | n + 1, .block p items, _, hfree, hn, h => by
    obtain ⟨cs, hcs, rfl⟩ := lower_block_eq_ok_iff.mp h
    rw [height] at hn
    exact .block p (functionFree_lowerAll items hfree (by omega) hcs)

theorem functionFree_lowerAll : ∀ {n : Nat} (es : List Expr) {cs : List Code},
    "function" ∉ namesAll es → heightAll es ≤ n → lowerAll (.builtins table) es = .ok cs →
      ∀ c ∈ cs, c.FunctionFree n
  | _, [], _, _, _, h => by
    cases h
    exact fun c hc => absurd hc List.not_mem_nil
  | n, e :: es, _, hfree, hn, h => by
    obtain ⟨c, cs, hc, hcs, rfl⟩ := List.forall₂_cons_left_iff.mp (lowerAll_eq_ok_iff.mp h)
    rw [namesAll, List.mem_append, not_or] at hfree
    rw [heightAll, Nat.max_le] at hn
    rw [List.forall_mem_cons]
    constructor
    · exact functionFree_lower e hfree.1 hn.1 hc
    · exact functionFree_lowerAll es hfree.2 hn.2 (lowerAll_eq_ok_iff.mpr hcs)

end

theorem heightAll_topLevel (e : Expr) : heightAll e.topLevel ≤ e.height := by
  cases e with
  | block p items =>
    rw [topLevel, height]
    omega
  | literal | lookup | reference | invocation =>
    simp only [topLevel, heightAll]
    omega

end Expr

theorem Matching.Outcomes.ends {W α β : Type} {M : Matching W} {V : α → β → Prop} {o : Outcome α}
    {o' : Outcome β} (h : M.Outcomes V o o') (hends : o' ≠ .tooDeep) :
    (∃ a, o = .value a) ∨ ∃ e, o = .error e := by
  cases h with
  | value => exact .inl ⟨_, rfl⟩
  | error => exact .inr ⟨_, rfl⟩
  | tooDeep => exact absurd rfl hends

theorem Store.functionFree_newScope (σ : Store) (table : Nat) :
    ((Context.builtin table).newScope σ).2.FunctionFree σ.frames.size := by
  have hσ : σ.FunctionFree σ.frames.size := by
    constructor
    · exact Nat.le_refl _
    · intro t f ht hf
      have hlt := lt_size_of_frame? hf
      omega
  refine hσ.addFrame ⟨?_, ?_, ?_⟩
  · intro v hv
    simp only [Context.builtin, Context.ofKeywords, Context.constants, Bindings.values,
      List.map_cons, List.map_nil, List.mem_cons, List.not_mem_nil, or_false] at hv
    rcases hv with rfl | rfl | rfl <;> trivial
  · rintro p ⟨⟩
  · rintro _ ⟨⟩ name k hname hk
    exact Keywords.functionFree_of_find? hname hk

theorem Program.runNoting_functionFree {e : Expr} {table : Nat} {body : Body}
    (hfree : "function" ∉ e.names) (h : e.numbered.lowerProgram (.builtins table) = .ok body)
    (source : Source) (host : Host) {limit : Nat} (hlimit : e.height ≤ limit) (σ : Store) :
    let noted := Program.runNoting ⟨source, .builtin table, body⟩ host limit σ
    noted.1 ≠ .tooDeep ∧ ∃ visited : List Nat, visited.Sublist (List.range e.size) ∧
      noted.2.journal = σ.journal ++ (visited.map toString).toArray := by
  obtain ⟨hitems, -⟩ := Expr.lowerProgram_eq_ok_iff.mp h
  have hcode : ∀ c ∈ body.items, c.FunctionFree limit := by
    apply Expr.functionFree_lowerAll _ _ _ hitems
    · rwa [Expr.namesAll_topLevel, Expr.numbered, Expr.names_numberFrom]
    · have htop := e.numbered.heightAll_topLevel
      rw [Expr.numbered, Expr.height_numberFrom] at htop
      exact htop.trans hlimit
  have hvisits := Eval.Visits.runItems (s := ((Context.builtin table).newScope σ).1)
    (Nat.le_refl σ.frames.size) fun c hc => (hcode c hc).follows host _
  obtain ⟨hends, -, -, visited, hvisited, hjournal⟩ := hvisits _ (σ.functionFree_newScope table)
  refine ⟨hends, visited.map (·.start), ?_, ?_⟩
  · exact (hvisited.map _).trans (Expr.spans_lowerProgram h)
  · rw [List.map_map]
    exact hjournal

/-- A tree without `function` is refused, or it ends if it may be nested as deeply as it is high.
The same tree with numbered nodes, run with notes, does the same and notes no number twice. -/
theorem Expr.run_functionFree (e : Expr) (table : Nat) (σ : Store)
    (hfree : "function" ∉ e.names) :
    (∃ err, e.lowerProgram (.builtins table) = .error err) ∨
    ∃ body body', e.lowerProgram (.builtins table) = .ok body ∧
      e.numbered.lowerProgram (.builtins table) = .ok body' ∧
      ∀ source host limit, e.height ≤ limit →
        let run := Program.run ⟨source, .builtin table, body⟩ host limit σ
        let noted := Program.runNoting ⟨source, .builtin table, body'⟩ host limit σ
        ((∃ v, run.1 = .value v) ∨ ∃ err, run.1 = .error err) ∧
        run.1.toExcept.mapError Failure.withoutSpan =
          noted.1.toExcept.mapError Failure.withoutSpan ∧
        run.2.frames = noted.2.frames ∧
        ∃ visited : List Nat, visited.Sublist (List.range e.size) ∧
          noted.2.journal = σ.journal ++ (visited.map toString).toArray := by
  let ρ := Region.plain (fun _ _ => True) σ σ
  have hcontexts : ρ.Contexts (.builtin table) (.builtin table) :=
    Region.plain_contexts (Context.selfContained_builtin table)
  cases he : e.lowerProgram (.builtins table) with
  | error err => exact .inl ⟨err, rfl⟩
  | ok body =>
    have htrees : List.Forall₂ ρ.matching.Trees e.topLevel e.numbered.topLevel := by
      obtain ⟨j, -, htop⟩ := e.topLevel_numberFrom 0
      rw [numbered, htop]
      exact treesAll_numberFrom j e.topLevel
    obtain ⟨body', hbody', hbodies⟩ :=
      Matching.Trees.lowerProgram hcontexts.tables trivial htrees he
    refine .inr ⟨body, body', rfl, hbody', fun source host limit hlimit => ?_⟩
    obtain ⟨hends, hvisited⟩ :=
      Program.runNoting_functionFree hfree hbody' source host hlimit σ
    have hrelated := @Region.related_runNoting ρ (0, 0) ⟨source, .builtin table, body⟩
      ⟨source, .builtin table, body'⟩ hcontexts hbodies host host limit
    obtain ⟨w, -, hstores, houtcomes⟩ := hrelated _ _ ρ.stores_start
    exact ⟨houtcomes.ends hends, Region.same_outcome houtcomes, Region.same_frames hstores,
      hvisited⟩

theorem Expr.run_functionFree_alias :
    ∃ e body, parse "var(@f, if) f(eq(f, if), 1, { 2 })" = .ok e ∧
      e.lowerProgram (.builtins 0) = .ok body ∧
      ((∃ v, (Program.run ⟨⟨"alias", ""⟩, .builtin 0, body⟩ Host.absent e.height .empty).1 =
          .value v) ∨
        ∃ err, (Program.run ⟨⟨"alias", ""⟩, .builtin 0, body⟩ Host.absent e.height .empty).1 =
          .error err) := by
  have hok : (parse "var(@f, if) f(eq(f, if), 1, { 2 })").map (fun e =>
      (decide ("function" ∉ e.names), (e.lowerProgram (.builtins 0)).isOk)) = .ok (true, true) := by
    decide +kernel
  obtain ⟨e, hparse, hok⟩ := Except.map_eq_ok_iff.mp hok
  obtain ⟨hfree, hok⟩ := Prod.mk.inj hok
  rcases Expr.run_functionFree e 0 .empty (of_decide_eq_true hfree) with
    ⟨err, herr⟩ | ⟨body, body', hbody, -, hrun⟩
  · rw [herr] at hok
    cases hok
  · exact ⟨e, body, hparse, hbody, (hrun _ _ _ (Nat.le_refl _)).1⟩

/-- A body is come to as often as the function is called. -/
example : (((parse "var(@f, function({ 1 })) f() f()").toOption.bind fun e =>
    (e.numbered.lowerProgram (.builtins 0)).toOption).map fun body =>
      (Program.runNoting ⟨⟨"calls", ""⟩, .builtin 0, body⟩ Host.absent 9 .empty).2.journal) =
    some #["1", "4", "8", "7", "10", "7"] := by
  decide +kernel

end Fexpr
