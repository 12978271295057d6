import Mathlib.Data.Fintype.EquivFin
import Mathlib.Data.List.Forall2
import Fexpr.Proofs.Chains
import Fexpr.Proofs.LoweredCode
import Fexpr.Proofs.TreeSemantics

/-!
# Code means what its tree means

Code that comes from a tree is evaluated as the tree is: with the same outcome, and with stores that
are the same but for the bodies of functions, which are expressions on one side and the code of
these expressions on the other.
-/

namespace Fexpr.Tree

theorem lookup_frames (σ : Fexpr.Store) (s : Scope) (name : String) :
    lookup σ.frames s name = σ.lookup s name := by
  rw [Store.lookup_eq_ascend]
  refine Store.eq_ascend (g := (lookup σ.frames · name)) (fun s => ?_) s
  rw [lookup]
  rfl

theorem binder?_frames (σ : Fexpr.Store) (s : Scope) (name : String) :
    binder? σ.frames s name = σ.binder? s name := by
  rw [Store.binder?_eq_ascend]
  refine Store.eq_ascend (g := (binder? σ.frames · name)) (fun s => ?_) s
  rw [binder?]
  rfl

structure Function.Lowers (f : Function) (g : Fexpr.Function) : Prop where
  params : g.params = f.params
  items : Expr.lowerAll f.keywords f.items = .ok g.body.items
  span : g.body.span = f.span
  captured : g.captured = f.captured

/-- The same store with code in place of expressions. -/
structure Store.Lowers (T : Store) (σ : Fexpr.Store) : Prop where
  frames : σ.frames = T.frames
  journal : σ.journal = T.journal
  size : σ.functions.size = T.functions.size
  functions : ∀ (i : Nat) (f : Function), T.functions[i]? = some f →
    ∃ g, σ.functions[i]? = some g ∧ f.Lowers g

def outcome {α : Type} : Except Halt α → Outcome α
  | .ok a => .value a
  | .error (.error e) => .error e
  | .error .tooDeep => .tooDeep

def Agree {α : Type} (x : Eval α) (y : Fexpr.Eval α) : Prop :=
  ∀ T σ, T.Lowers σ → outcome (x T).1 = (y σ).1 ∧ Store.Lowers (x T).2 (y σ).2

namespace Agree

variable {α β : Type}

theorem pure (a : α) : Agree (Pure.pure a) (Pure.pure a) := fun _ _ h => ⟨rfl, h⟩

theorem fail (e : RuntimeError) : Agree (α := α) (Tree.fail e) (Eval.fail e) :=
  fun _ _ h => ⟨rfl, h⟩

theorem tooDeep : Agree (α := α) (throw .tooDeep) Eval.tooDeep := fun _ _ h => ⟨rfl, h⟩

theorem bind {x : Eval α} {y : Fexpr.Eval α} {f : α → Eval β} {g : α → Fexpr.Eval β}
    (hx : Agree x y) (hf : ∀ a, Agree (f a) (g a)) : Agree (x >>= f) (y >>= g) := by
  intro T σ h
  obtain ⟨ho, hs⟩ := hx T σ h
  -- both sides stop at anything but a value
  have hl : (x >>= f) T = match x T with
      | (.ok a, T) => f a T
      | (.error e, T) => (.error e, T) := by
    simp only [Bind.bind, ExceptT.bind, ExceptT.mk, StateT.bind, ExceptT.bindCont, Pure.pure]
    obtain ⟨o, T'⟩ := x T
    cases o <;> rfl
  rw [hl, Eval.bind_apply]
  generalize x T = r at ho hs
  generalize y σ = r' at ho hs
  obtain ⟨o, T'⟩ := r
  obtain ⟨o', σ'⟩ := r'
  simp only at ho hs
  subst ho
  rcases o with (e | _) | a
  · exact ⟨rfl, hs⟩
  · exact ⟨rfl, hs⟩
  · exact hf a T' σ' hs

theorem get_bind (k : Store → Eval α) (T : Store) : (get >>= k) T = k T T := rfl

theorem child (s : Scope) : Agree (Tree.child s) (Eval.child s) := by
  intro T σ h
  have hsize : σ.frames.size = T.frames.size := congrArg Array.size h.frames
  refine ⟨?_, ?_, h.journal, h.size, h.functions⟩
  · exact congrArg (fun n => Outcome.value (Scope.mk n)) hsize.symm
  · exact congrArg (Array.push · _) h.frames

theorem declare (s : Scope) (name : String) (v : Value) :
    Agree (Tree.declare s name v) (Eval.declare s name v) := by
  intro T σ h
  refine ⟨rfl, ?_, h.journal, h.size, h.functions⟩
  exact congrArg (fun frames : Array Frame => frames.modify s.index fun f =>
    { f with bindings := f.bindings.insert name v }) h.frames

theorem resolve (s : Scope) (name : String) (span : Span) :
    Agree (Tree.resolve s name span) (Eval.resolve s name span) := by
  intro T σ h
  have hl : Tree.lookup T.frames s name = σ.lookup s name := by
    rw [← h.frames, lookup_frames]
  rw [Tree.resolve, get_bind, hl, Eval.resolve, Eval.bind_apply, Eval.read]
  cases σ.lookup s name with
  | none => exact ⟨rfl, h⟩
  | some v => exact ⟨rfl, h⟩

theorem assign (s : Scope) (name : String) (v : Value) :
    Agree (Tree.assign s name v) (Eval.assign s name v) := by
  intro T σ h
  have hb : Tree.binder? T.frames s name = σ.binder? s name := by
    rw [← h.frames, binder?_frames]
  rw [Tree.assign, get_bind, hb, Eval.assign, Store.assign?]
  cases σ.binder? s name with
  | none => exact ⟨rfl, h⟩
  | some t => exact ⟨rfl, (Agree.declare t name v T σ h).2⟩

theorem newFunction {f : Function} {g : Fexpr.Function} (hfg : f.Lowers g) :
    Agree (Tree.newFunction f) (Eval.update (·.addFunction g)) := by
  intro T σ h
  refine ⟨congrArg (fun n => Outcome.value (Value.function n)) h.size.symm,
    h.frames, h.journal, ?_, ?_⟩
  · change (σ.functions.push g).size = (T.functions.push f).size
    rw [Array.size_push, Array.size_push, h.size]
  · intro i f' hi
    change (T.functions.push f)[i]? = some f' at hi
    change ∃ g', (σ.functions.push g)[i]? = some g' ∧ f'.Lowers g'
    rw [Array.getElem?_push] at hi
    rw [Array.getElem?_push, h.size]
    split at hi
    · rename_i hlast
      cases hi
      exact ⟨g, if_pos hlast, hfg⟩
    · rename_i hlast
      rw [if_neg hlast]
      exact h.functions i f' hi

theorem function (index : Nat) {k : Store → Eval α} {k' : Option Fexpr.Function → Fexpr.Eval α}
    (hsome : ∀ T f g, T.functions[index]? = some f → f.Lowers g → Agree (k T) (k' (some g)))
    (hnone : ∀ T, T.functions[index]? = none → Agree (k T) (k' none)) :
    Agree (get >>= k) (Eval.read (·.function? index) >>= k') := by
  intro T σ h
  change outcome (k T T).1 = (k' σ.functions[index]? σ).1 ∧
    Store.Lowers (k T T).2 (k' σ.functions[index]? σ).2
  cases hf : T.functions[index]? with
  | some f =>
    obtain ⟨g, hg, hfg⟩ := h.functions index f hf
    rw [hg]
    exact hsome T f g hf hfg T σ h
  | none =>
    have hg : σ.functions[index]? = none := by
      rw [Array.getElem?_eq_none_iff] at hf ⊢
      rw [h.size]
      exact hf
    rw [hg]
    exact hnone T hf T σ h

end Agree

section

variable {kw : Keywords}

theorem shape_of_lower {e : Expr} {c : Code} (h : Expr.lower kw e = .ok c) :
    c.span = e.span ∧ c.describe = shape e := by
  cases e with
  | literal | lookup | reference => cases h; exact ⟨rfl, rfl⟩
  | invocation =>
    obtain ⟨callee, cs, _, _, rfl⟩ := Expr.lower_invocation_eq_ok_iff.mp h
    exact ⟨rfl, rfl⟩
  | block =>
    obtain ⟨cs, _, rfl⟩ := Expr.lower_block_eq_ok_iff.mp h
    exact ⟨rfl, rfl⟩

theorem reference_of_lower {e : Expr} {c : Code} (h : Expr.lower kw e = .ok c) :
    (∃ span name, e = .reference span name ∧ c = .reference span name) ∨
      (∀ span name, e ≠ .reference span name) ∧ c.referenceName? = none := by
  cases e with
  | reference span name => cases h; exact .inl ⟨span, name, rfl, rfl⟩
  | literal | lookup => cases h; exact .inr ⟨by simp, rfl⟩
  | invocation =>
    obtain ⟨callee, cs, _, _, rfl⟩ := Expr.lower_invocation_eq_ok_iff.mp h
    exact .inr ⟨by simp, rfl⟩
  | block =>
    obtain ⟨cs, _, rfl⟩ := Expr.lower_block_eq_ok_iff.mp h
    exact .inr ⟨by simp, rfl⟩

theorem block_of_lower {e : Expr} {c : Code} (h : Expr.lower kw e = .ok c) :
    (∃ span items cs, e = .block span items ∧ c = .block span cs ∧
        Expr.lowerAll kw items = .ok cs) ∨
      (∀ span items, e ≠ .block span items) ∧ c.body? = none := by
  cases e with
  | literal | lookup | reference => cases h; exact .inr ⟨by simp, rfl⟩
  | invocation =>
    obtain ⟨callee, cs, _, _, rfl⟩ := Expr.lower_invocation_eq_ok_iff.mp h
    exact .inr ⟨by simp, rfl⟩
  | block span items =>
    obtain ⟨cs, hcs, rfl⟩ := Expr.lower_block_eq_ok_iff.mp h
    exact .inl ⟨span, items, cs, rfl, rfl, hcs⟩

end

def EvaluatorsAgree (kw : Keywords) (ev : Expr → Scope → Eval Value) (ev' : Evaluator) : Prop :=
  ∀ e c s, Expr.lower kw e = .ok c → Agree (ev e s) (ev' c s)

namespace EvaluatorsAgree

variable {kw : Keywords} {ev : Expr → Scope → Eval Value} {ev' : Evaluator} {es : List Expr}
  {cs : List Code}

theorem sequence (hev : EvaluatorsAgree kw ev ev') (s : Scope)
    (hcs : List.Forall₂ (fun e c => Expr.lower kw e = .ok c) es cs) (v : Value) :
    Agree (Tree.sequence ev s v es) (cs.foldlM (fun _ c => ev' c s) v) := by
  induction hcs generalizing v with
  | nil => exact Agree.pure v
  | cons hc _ ih => exact Agree.bind (hev _ _ s hc) ih

theorem disjunction (hev : EvaluatorsAgree kw ev ev') (s : Scope)
    (hcs : List.Forall₂ (fun e c => Expr.lower kw e = .ok c) es cs) :
    Agree (Tree.disjunction ev s es) (Builtin.search Value.isTruthy ev' s cs) := by
  induction hcs with
  | nil => exact Agree.pure false
  | cons hc _ ih =>
    refine Agree.bind (hev _ _ s hc) fun v => ?_
    cases v.isTruthy with
    | true => exact Agree.pure true
    | false => exact ih

theorem conjunction (hev : EvaluatorsAgree kw ev ev') (s : Scope)
    (hcs : List.Forall₂ (fun e c => Expr.lower kw e = .ok c) es cs) :
    Agree (Tree.conjunction ev s es)
      (do return !(← Builtin.search (!·.isTruthy) ev' s cs)) := by
  induction hcs with
  | nil => exact Agree.pure true
  | cons hc _ ih =>
    rw [Builtin.search, bind_assoc]
    refine Agree.bind (hev _ _ s hc) fun v => ?_
    cases v.isTruthy with
    | true => exact ih
    | false => exact Agree.pure false

theorem bindParams (hev : EvaluatorsAgree kw ev ev') (s frame : Scope) (params : List String)
    (hcs : List.Forall₂ (fun e c => Expr.lower kw e = .ok c) es cs) :
    Agree (Tree.bindParams ev s frame params es)
      (Function.bindParams ev' s frame params cs) := by
  induction hcs generalizing params with
  | nil =>
    rw [Tree.bindParams]
    induction params with
    | nil =>
      rw [Function.bindParams]
      exact Agree.pure ()
    | cons param params ih =>
      rw [Function.bindParams]
      exact Agree.bind (Agree.declare frame param .null) fun _ => ih
  | cons hc _ ih =>
    cases params with
    | nil =>
      rw [Tree.bindParams, Function.bindParams]
      exact Agree.bind (hev _ _ s hc) fun _ => ih []
    | cons param params =>
      rw [Tree.bindParams, Function.bindParams]
      refine Agree.bind (hev _ _ s hc) fun v => ?_
      exact Agree.bind (Agree.declare frame param v) fun _ => ih params

theorem rejected (b : Builtin) {name : String} {s : Scope} {span : Span}
    (hlen : es.length = cs.length)
    (h : b.arity.accepts es.length = false) :
    Agree (Tree.fail (.arity name b.arity es.length span)) (b.run ev' ⟨name, s, cs, span⟩) := by
  rw [Builtin.run, Call.checkArity, ← hlen, h]
  exact Agree.fail _

theorem run_of_accepted {b : Builtin} {c : Fexpr.Call} (h : b.arity.accepts c.args.length = true) :
    b.run ev' c = b.apply ev' c := by
  rw [Builtin.run, Call.checkArity, h]
  rfl

theorem reference_eq_fail {c : Fexpr.Call} {i : Nat} {e : Expr} {code : Code}
    (hi : c.args[i]? = some code) (hcode : Expr.lower kw e = .ok code)
    (hnone : code.referenceName? = none) :
    c.reference i = Eval.fail (.mismatch c.name (i + 1) "an @reference" (shape e) e.span) := by
  obtain ⟨hspan, hshape⟩ := shape_of_lower hcode
  simp only [Call.reference, Call.mismatch, Call.describe, hi, Option.bind_some, hnone, hspan,
    hshape]

theorem names (c : Fexpr.Call) (before : List Code) (hargs : c.args = before ++ cs)
    (hcs : List.Forall₂ (fun e c => Expr.lower kw e = .ok c) es cs) :
    Agree (Tree.names c.name (before.length + 1) es)
      ((List.range' before.length cs.length).mapM c.reference) := by
  induction hcs generalizing before with
  | nil => exact Agree.pure []
  | @cons e code es cs hcode _ ih =>
    have hi : c.args[before.length]? = some code := by
      rw [hargs, List.getElem?_append_right (Nat.le_refl _), Nat.sub_self, List.getElem?_cons_zero]
    rw [List.length_cons, List.range'_succ, List.mapM_cons]
    rcases reference_of_lower hcode with ⟨span, name, rfl, rfl⟩ | ⟨hne, hnone⟩
    · have hname : c.reference before.length = Pure.pure name := by
        simp only [Call.reference, hi, Option.bind_some, Code.referenceName?]
      have hrest := ih (before ++ [.reference span name])
        (by rw [hargs, List.append_assoc, List.singleton_append])
      rw [List.length_append, List.length_singleton] at hrest
      rw [hname, pure_bind, Tree.names]
      exact Agree.bind hrest fun _ => Agree.pure _
    · rw [reference_eq_fail hi hcode hnone, Tree.names]
      · exact Agree.fail _
      · exact hne

section

variable (hev : EvaluatorsAgree kw ev ev') (s : Scope) (span : Span)
  (hcs : List.Forall₂ (fun e c => Expr.lower kw e = .ok c) es cs)

include hev hcs

theorem var :
    Agree (Tree.builtin ev s kw span .var es) (Builtin.var.run ev' ⟨"var", s, cs, span⟩) := by
  have hlen := hcs.length_eq
  rcases hcs with _ | ⟨h0, _ | ⟨h1, _ | ⟨h2, hrest⟩⟩⟩
  · exact rejected .var hlen rfl
  · rw [run_of_accepted rfl]
    rcases reference_of_lower h0 with ⟨span, name, rfl, rfl⟩ | ⟨hne, hnone⟩
    · exact Agree.bind (Agree.declare s name .null) fun _ => Agree.pure _
    · rw [Builtin.apply, reference_eq_fail rfl h0 hnone]
      simp only [Tree.builtin]
      exact Agree.fail _
  · rw [run_of_accepted rfl]
    rcases reference_of_lower h0 with ⟨span, name, rfl, rfl⟩ | ⟨hne, hnone⟩
    · refine Agree.bind (hev _ _ s h1) fun v => ?_
      exact Agree.bind (Agree.declare s name v) fun _ => Agree.pure v
    · rw [Builtin.apply, reference_eq_fail rfl h0 hnone]
      simp only [Tree.builtin]
      exact Agree.fail _
  · simp only [Tree.builtin]
    exact rejected .var hlen (by simp [Builtin.arity, Arity.accepts])

theorem set :
    Agree (Tree.builtin ev s kw span .set es) (Builtin.set.run ev' ⟨"set", s, cs, span⟩) := by
  have hlen := hcs.length_eq
  rcases hcs with _ | ⟨h0, _ | ⟨h1, _ | ⟨h2, hrest⟩⟩⟩
  · exact rejected .set hlen rfl
  · simp only [Tree.builtin]
    exact rejected .set hlen rfl
  · rw [run_of_accepted rfl]
    rcases reference_of_lower h0 with ⟨_, name, rfl, rfl⟩ | ⟨hne, hnone⟩
    · refine Agree.bind (hev _ _ s h1) fun v => ?_
      refine Agree.bind (Agree.assign s name v) fun found => ?_
      cases found with
      | true => exact Agree.pure v
      | false => exact Agree.fail _
    · rw [Builtin.apply, reference_eq_fail rfl h0 hnone]
      simp only [Tree.builtin]
      exact Agree.fail _
  · simp only [Tree.builtin]
    exact rejected .set hlen (by simp [Builtin.arity, Arity.exactly, Arity.accepts])

theorem cond :
    Agree (Tree.builtin ev s kw span .cond es) (Builtin.cond.run ev' ⟨"if", s, cs, span⟩) := by
  have hlen := hcs.length_eq
  rcases hcs with _ | ⟨h0, _ | ⟨h1, _ | ⟨h2, _ | ⟨h3, hrest⟩⟩⟩⟩
  · exact rejected .cond hlen rfl
  · exact rejected .cond hlen rfl
  · rw [run_of_accepted rfl]
    refine Agree.bind (hev _ _ s h0) fun v => ?_
    cases v.isTruthy with
    | true => exact hev _ _ s h1
    | false => exact Agree.pure Value.null
  · rw [run_of_accepted rfl]
    refine Agree.bind (hev _ _ s h0) fun v => ?_
    cases v.isTruthy with
    | true => exact hev _ _ s h1
    | false => exact hev _ _ s h2
  · exact rejected .cond hlen (by simp [Builtin.arity, Arity.accepts])

theorem eq :
    Agree (Tree.builtin ev s kw span .eq es) (Builtin.eq.run ev' ⟨"eq", s, cs, span⟩) := by
  have hlen := hcs.length_eq
  rcases hcs with _ | ⟨h0, _ | ⟨h1, _ | ⟨h2, hrest⟩⟩⟩
  · exact rejected .eq hlen rfl
  · exact rejected .eq hlen rfl
  · rw [run_of_accepted rfl]
    refine Agree.bind (hev _ _ s h0) fun v => ?_
    exact Agree.bind (hev _ _ s h1) fun v' => Agree.pure _
  · exact rejected .eq hlen (by simp [Builtin.arity, Arity.exactly, Arity.accepts])

theorem not :
    Agree (Tree.builtin ev s kw span .not es) (Builtin.not.run ev' ⟨"not", s, cs, span⟩) := by
  have hlen := hcs.length_eq
  rcases hcs with _ | ⟨h0, _ | ⟨h1, hrest⟩⟩
  · exact rejected .not hlen rfl
  · rw [run_of_accepted rfl]
    exact Agree.bind (hev _ _ s h0) fun v => Agree.pure _
  · exact rejected .not hlen (by simp [Builtin.arity, Arity.exactly, Arity.accepts])

omit hev in
theorem function :
    Agree (Tree.builtin ev s kw span .function es)
      (Builtin.function.run ev' ⟨"function", s, cs, span⟩) := by
  have hlen := hcs.length_eq
  rcases hcs with _ | @⟨e0, c0, es, cs, h0, hrest⟩
  · exact rejected .function hlen rfl
  · rw [run_of_accepted (by simp [Builtin.arity, Arity.accepts])]
    rcases block_of_lower h0 with ⟨bodySpan, items, body, rfl, rfl, hbody⟩ | ⟨hne, hnone⟩
    · have hnames := names ⟨"function", s, .block bodySpan body :: cs, span⟩
        [.block bodySpan body] rfl hrest
      exact Agree.bind hnames fun params => Agree.newFunction ⟨rfl, hbody, rfl, rfl⟩
    · obtain ⟨hspan, hshape⟩ := shape_of_lower h0
      have hblock : Call.block ⟨"function", s, c0 :: cs, span⟩ 0 =
          Eval.fail (.mismatch "function" 1 "a block" (shape e0) e0.span) := by
        simp only [Call.block, Call.mismatch, Call.describe, List.getElem?_cons_zero,
          Option.bind_some, hnone, hspan, hshape, Nat.zero_add]
      rw [Builtin.apply, hblock]
      simp only [Tree.builtin]
      exact Agree.fail _

theorem builtin (b : Builtin) :
    Agree (Tree.builtin ev s kw span b es) (b.run ev' ⟨b.name, s, cs, span⟩) := by
  cases b with
  | var => exact var hev s span hcs
  | set => exact set hev s span hcs
  | cond => exact cond hev s span hcs
  | function => exact function s span hcs
  | eq => exact eq hev s span hcs
  | not => exact not hev s span hcs
  | any =>
    rw [run_of_accepted (by simp [Builtin.arity, Arity.accepts])]
    exact Agree.bind (hev.disjunction s hcs) fun _ => Agree.pure _
  | all =>
    have hall := Agree.bind (hev.conjunction s hcs) fun b => Agree.pure (Value.boolean b)
    rw [bind_assoc] at hall
    rw [run_of_accepted (by simp [Builtin.arity, Arity.accepts])]
    exact hall

end

end EvaluatorsAgree

structure Call.Lowers (c : Call) (c' : Fexpr.Call) : Prop where
  name : c'.name = c.name
  scope : c'.scope = c.scope
  args : Expr.lowerAll c.keywords c.args = .ok c'.args
  span : c'.span = c.span

structure InterpretersAgree (J : Interpreter) (I : Fexpr.Interpreter) : Prop where
  eval : ∀ kw, EvaluatorsAgree kw (J.eval kw) I.eval
  invoke : ∀ v c c', Call.Lowers c c' → Agree (J.invoke v c) (I.invoke v c')

/-- Keywords of an embedding program that do the same on expressions as on code, whatever they ask
the interpreter for. -/
def HostsAgree (H : Host) (host : Fexpr.Host) : Prop :=
  ∀ id J I c c', InterpretersAgree J I → Call.Lowers c c' → Agree (H id J c) (host id I c')

namespace InterpretersAgree

variable {J : Interpreter} {I : Fexpr.Interpreter} {H : Host} {host : Fexpr.Host} {c : Call}
  {c' : Fexpr.Call}

theorem runKeyword (hI : InterpretersAgree J I) (hH : HostsAgree H host) (k : Keyword)
    {args : List Code} (hargs : Expr.lowerAll c.keywords c.args = .ok args) (name : String) :
    Agree (J.runKeyword H k c) (I.runKeyword host k ⟨name, c.scope, args, c.span⟩) := by
  cases k with
  | builtin table b => exact (hI.eval c.keywords).builtin _ _ (Expr.lowerAll_eq_ok_iff.mp hargs) b
  | host id name => exact hH id J I _ _ hI ⟨rfl, rfl, hargs, rfl⟩

theorem callFunction (hI : InterpretersAgree J I) {f : Function} {g : Fexpr.Function}
    (hf : f.Lowers g) (hc : c.Lowers c') :
    Agree (J.callFunction f c) (g.call I.eval c'.scope c'.args) := by
  rw [Interpreter.callFunction, Fexpr.Function.call, hf.captured, hf.params, hc.scope]
  refine Agree.bind (Agree.child f.captured) fun frame => ?_
  refine Agree.bind ((hI.eval c.keywords).bindParams _ frame _ (Expr.lowerAll_eq_ok_iff.mp hc.args))
    fun _ => ?_
  exact (hI.eval f.keywords).sequence frame (Expr.lowerAll_eq_ok_iff.mp hf.items) .null

theorem invokeValue (hI : InterpretersAgree J I) (hH : HostsAgree H host) (v : Value)
    (hc : c.Lowers c') : Agree (J.invokeValue H v c) (I.invokeStep host v c') := by
  have hfail : Agree (α := Value) (Tree.fail (.notCallable c.name v.typeName c.span))
      (Eval.fail (.notCallable c'.name v.typeName c'.span)) := by
    rw [hc.name, hc.span]
    exact Agree.fail _
  cases v with
  | keyword k =>
    obtain ⟨name, scope, args, span⟩ := c'
    obtain ⟨-, hscope, hargs, hspan⟩ := hc
    simp only at hscope hspan
    subst hscope hspan
    exact hI.runKeyword hH k hargs name
  | function index =>
    refine Agree.function index (fun T f g hT hf => ?_) fun T hT => ?_
    · rw [hT]
      exact hI.callFunction hf hc
    · rw [hT]
      exact hfail
  | null | number | string | boolean | host => exact hfail

theorem callName (hI : InterpretersAgree J I) (hH : HostsAgree H host) (hc : c.Lowers c') :
    Agree (J.callName H c)
      (Eval.resolve c'.scope c'.name c'.span >>= fun v => I.invokeStep host v c') := by
  rw [Interpreter.callName, hc.scope, hc.name, hc.span]
  exact Agree.bind (Agree.resolve _ _ _) fun v => hI.invokeValue hH v hc

end InterpretersAgree

section

variable {H : Host} {host : Fexpr.Host}

section

variable {n : Nat}
  (hI : InterpretersAgree ⟨eval H n, invoke H n⟩ ⟨Code.eval host n, Value.invoke host n⟩)

include hI

theorem eval_invocation (hH : HostsAgree H host) {kw : Keywords} {span : Span} {callee : Expr}
    {args : List Expr} {code : Code} (s : Scope)
    (h : Expr.lower kw (.invocation span callee args) = .ok code) :
    Agree (eval H (n + 1) kw (.invocation span callee args) s)
      (Code.eval host (n + 1) code s) := by
  obtain ⟨callee', cs, hcallee, hcs, rfl⟩ := Expr.lower_invocation_eq_ok_iff.mp h
  have hname := fun name => hI.callName (c := ⟨name, s, args, kw, span⟩) hH
    (⟨rfl, rfl, hcs, rfl⟩ : Call.Lowers _ ⟨name, s, cs, span⟩)
  rw [Code.eval]
  cases callee with
  | lookup _ name =>
    rw [Expr.callee] at hcallee
    rw [eval]
    cases hk : kw.find? name with
    | some k =>
      rw [hk] at hcallee
      cases hcallee
      exact hI.runKeyword hH k hcs k.name
    | none =>
      rw [hk] at hcallee
      cases hcallee
      exact hname name
  | reference _ name =>
    cases hcallee
    rw [eval]
    exact hname name
  | literal | invocation | block => cases hcallee

theorem evalStep (hH : HostsAgree H host) (kw : Keywords) :
    EvaluatorsAgree kw (eval H (n + 1) kw) (Code.eval host (n + 1)) := by
  intro e code s h
  cases e with
  | literal span l =>
    cases h
    exact Agree.pure _
  | lookup span name | reference span name =>
    cases h
    exact Agree.resolve s name span
  | block span items =>
    obtain ⟨cs, hcs, rfl⟩ := Expr.lower_block_eq_ok_iff.mp h
    refine Agree.bind (Agree.child s) fun inner => ?_
    exact (hI.eval kw).sequence inner (Expr.lowerAll_eq_ok_iff.mp hcs) .null
  | invocation span callee args => exact eval_invocation hI hH s h

end

theorem interpreters_agree (hH : HostsAgree H host) (n : Nat) :
    InterpretersAgree ⟨eval H n, invoke H n⟩ ⟨Code.eval host n, Value.invoke host n⟩ := by
  induction n with
  | zero => exact ⟨fun _ _ _ _ _ => Agree.tooDeep, fun _ _ _ _ => Agree.tooDeep⟩
  | succ n ih => exact ⟨evalStep ih hH, fun v _ _ hc => ih.invokeValue hH v hc⟩

end

theorem exists_fresh (names : List String) : ∃ name, name ∉ names := by
  obtain ⟨name, hname⟩ := Infinite.exists_notMem_finset names.toFinset
  exact ⟨name, by simpa using hname⟩

theorem exists_table (ks : List Keyword) :
    ∃ kw : Keywords, ∀ k ∈ ks, ∃ name, kw.find? name = some k := by
  induction ks with
  | nil => exact ⟨.empty, by simp⟩
  | cons k ks ih =>
    obtain ⟨kw, hkw⟩ := ih
    -- a name of its own for every keyword, so that earlier ones are still found
    obtain ⟨fresh, hfresh⟩ := exists_fresh kw.names
    refine ⟨kw.insert fresh k, fun k' hk' => ?_⟩
    rcases List.mem_cons.mp hk' with rfl | hk'
    · exact ⟨fresh, by simp⟩
    · obtain ⟨name, hname⟩ := hkw k' hk'
      have hne : fresh ≠ name := fun h => hfresh (h ▸ Bindings.mem_names_of_find? hname)
      exact ⟨name, by simp [hne, hname]⟩

mutual

theorem exists_lower {kw : Keywords} : ∀ c : Code,
    (∀ k ∈ c.keywords, ∃ name, kw.find? name = some k) → ∃ e, Expr.lower kw e = .ok c
  | .literal span l, _ => ⟨.literal span l, rfl⟩
  | .lookup span name, _ => ⟨.lookup span name, rfl⟩
  | .reference span name, _ => ⟨.reference span name, rfl⟩
  | .call span (.keyword k) args, h => by
    obtain ⟨name, hname⟩ := h k (by simp [Code.keywords])
    obtain ⟨es, hes⟩ := exists_lowerAll args fun k' hk' => h k' (by simp [Code.keywords, hk'])
    refine ⟨.invocation span (.lookup span name) es, ?_⟩
    rw [Expr.lower, Expr.callee, hname, hes]
    rfl
  | .call span (.name name) args, h => by
    obtain ⟨es, hes⟩ := exists_lowerAll args h
    refine ⟨.invocation span (.reference span name) es, ?_⟩
    rw [Expr.lower, Expr.callee, hes]
    rfl
  | .block span items, h => by
    obtain ⟨es, hes⟩ := exists_lowerAll items h
    refine ⟨.block span es, ?_⟩
    rw [Expr.lower, hes]
    rfl

theorem exists_lowerAll {kw : Keywords} : ∀ cs : List Code,
    (∀ k ∈ Code.keywordsAll cs, ∃ name, kw.find? name = some k) →
      ∃ es, Expr.lowerAll kw es = .ok cs
  | [], _ => ⟨[], rfl⟩
  | c :: cs, h => by
    obtain ⟨e, he⟩ := exists_lower c fun k hk => h k (by simp [Code.keywordsAll, hk])
    obtain ⟨es, hes⟩ := exists_lowerAll cs fun k hk => h k (by simp [Code.keywordsAll, hk])
    refine ⟨e :: es, ?_⟩
    rw [Expr.lowerAll, he, hes]
    rfl

end

theorem Function.exists_lowers (g : Fexpr.Function) : ∃ f : Function, f.Lowers g := by
  obtain ⟨kw, hkw⟩ := exists_table (Code.keywordsAll g.body.items)
  obtain ⟨es, hes⟩ := exists_lowerAll g.body.items hkw
  exact ⟨⟨g.params, es, g.body.span, kw, g.captured⟩, rfl, hes, rfl, rfl⟩

theorem Store.exists_lowers (σ : Fexpr.Store) : ∃ T : Store, T.Lowers σ := by
  choose raise hraise using Function.exists_lowers
  refine ⟨⟨σ.frames, σ.functions.map raise, σ.journal⟩, rfl, rfl, by simp, fun i f hi => ?_⟩
  rw [Array.getElem?_map, Option.map_eq_some_iff] at hi
  obtain ⟨g, hg, rfl⟩ := hi
  exact ⟨g, hg, hraise g⟩

theorem run_agree {H : Host} {host : Fexpr.Host} (hH : HostsAgree H host) {kw : Keywords} {e : Expr}
    {body : Body} (h : e.lowerProgram kw = .ok body) (limit : Nat) (s : Scope) :
    Agree (run H limit kw e s) (body.run host limit s) := by
  have hev := (interpreters_agree hH limit).eval kw
  have hitems : ∀ es cs, Expr.lowerAll kw es = .ok cs →
      Agree (sequence (eval H limit kw) s .null es) (runItems (Code.eval host limit) s cs) :=
    fun es cs hcs => hev.sequence s (Expr.lowerAll_eq_ok_iff.mp hcs) .null
  obtain ⟨hcs, -⟩ := Expr.lowerProgram_eq_ok_iff.mp h
  cases e with
  | block span items => exact hitems items body.items hcs
  | literal | lookup | reference | invocation => exact hitems _ body.items hcs

/-- Lowering preserves meaning. Every store corresponds to one whose functions are still
expressions, and from corresponding stores a tree and the body that it is lowered to end in the same
way, in corresponding stores. -/
theorem run_lowerProgram :
    (∀ σ : Fexpr.Store, ∃ T : Store, T.Lowers σ) ∧
    ∀ (H : Host) (host : Fexpr.Host), HostsAgree H host →
      ∀ (kw : Keywords) (e : Expr) (body : Body), e.lowerProgram kw = .ok body →
        ∀ (limit : Nat) (s : Scope) (T : Store) (σ : Fexpr.Store), T.Lowers σ →
          outcome (run H limit kw e s T).1 = (body.run host limit s σ).1 ∧
          Store.Lowers (run H limit kw e s T).2 (body.run host limit s σ).2 :=
  ⟨Store.exists_lowers, fun _ _ hH _ _ _ h limit s T σ hT => run_agree hH h limit s T σ hT⟩

def firstOfTrees : Host := fun _ I c =>
  match c.args with
  | [] => fail (.host c.name "nothing to evaluate" c.span)
  | e :: _ => I.eval c.keywords e c.scope

def firstOfCode : Fexpr.Host := fun _ I c =>
  match c.args with
  | [] => Eval.fail (.host c.name "nothing to evaluate" c.span)
  | code :: _ => I.eval code c.scope

theorem hostsAgree_first : HostsAgree firstOfTrees firstOfCode := by
  rintro _ J I ⟨name, s, es, kw, span⟩ ⟨name', s', cs, span'⟩ hI ⟨hname, hscope, hargs, hspan⟩
  simp only at hname hscope hargs hspan
  subst hname hscope hspan
  rcases Expr.lowerAll_eq_ok_iff.mp hargs with _ | ⟨hcode, -⟩
  · exact Agree.fail _
  · exact hI.eval kw _ _ s' hcode

def firstKeywords : Keywords := ⟨[("first", .host 0 "first"), ("var", .builtin 0 .var)]⟩

def firstTree : Expr :=
  .block ⟨0, 26⟩
    [.invocation ⟨0, 20⟩ (.lookup ⟨0, 5⟩ "first")
      [.invocation ⟨6, 19⟩ (.lookup ⟨6, 9⟩ "var")
        [.reference ⟨10, 12⟩ "x", .literal ⟨14, 17⟩ (.string "a")]],
    .invocation ⟨21, 25⟩ (.reference ⟨21, 23⟩ "x") []]

def firstBody : Body :=
  ⟨[.call ⟨0, 20⟩ (.keyword (.host 0 "first"))
      [.call ⟨6, 19⟩ (.keyword (.builtin 0 .var))
        [.reference ⟨10, 12⟩ "x", .literal ⟨14, 17⟩ (.string "a")]],
    .call ⟨21, 25⟩ (.name "x") []], ⟨0, 26⟩⟩

theorem run_lowerProgram_first :
    HostsAgree firstOfTrees firstOfCode ∧ firstTree.lowerProgram firstKeywords = .ok firstBody ∧
    Store.Lowers ⟨#[⟨.empty, .root firstKeywords⟩], #[], #[]⟩
      ⟨#[⟨.empty, .root firstKeywords⟩], #[], #[]⟩ ∧
    outcome (run firstOfTrees 3 firstKeywords firstTree ⟨0⟩
        ⟨#[⟨.empty, .root firstKeywords⟩], #[], #[]⟩).1 =
      (firstBody.run firstOfCode 3 ⟨0⟩ ⟨#[⟨.empty, .root firstKeywords⟩], #[], #[]⟩).1 ∧
    (firstBody.run firstOfCode 3 ⟨0⟩ ⟨#[⟨.empty, .root firstKeywords⟩], #[], #[]⟩).1 =
      .error (.notCallable "x" "string" ⟨21, 25⟩) := by
  have hlower : firstTree.lowerProgram firstKeywords = .ok firstBody := rfl
  have hstores : Store.Lowers ⟨#[⟨.empty, .root firstKeywords⟩], #[], #[]⟩
      ⟨#[⟨.empty, .root firstKeywords⟩], #[], #[]⟩ := ⟨rfl, rfl, rfl, by simp⟩
  refine ⟨hostsAgree_first, hlower, hstores, ?_, ?_⟩
  · exact (run_lowerProgram.2 _ _ hostsAgree_first _ _ _ hlower 3 ⟨0⟩ _ _ hstores).1
  · decide +kernel

end Fexpr.Tree
