import Mathlib.Logic.Relation
import Fexpr.Host.Tool
import Fexpr.Session
import Fexpr.Proofs.WellFormed

/-!
# What is done to a store

An embedding program and its keywords know scopes and functions only as they are handed out by the
store, and can do no more with them than a few operations. Programs, calls of functions and the
entries of sessions come down to these operations as well, whether they fail or not. Stores that are
made in this way are well-formed.
-/

namespace Fexpr

open Relation (ReflTransGen)

inductive Context.Made (known : Value → Prop) : Context → Prop where
  | ofKeywords (keywords : Keywords) : Made known (.ofKeywords keywords)
  | register {c c' : Context} {name : String} {k : Keyword} (hc : Made known c)
    (h : c.register name k = .ok c') : Made known c'
  | define {c c' : Context} {name : String} {v : Value} (hc : Made known c) (hv : known v)
    (h : c.define name v = .ok c') : Made known c'

/-- An operation on a store, with scopes and values of that store. -/
inductive Store.Step (I : Interpreter) (σ : Store) : Store → Prop where
  | root {c : Context} (hc : c.Made σ.Knows) : Step I σ (c.newScope σ).2
  | child {s : Scope} (hs : σ.Has s) : Step I σ (σ.addChild s).2
  | declare {s : Scope} {v : Value} (hs : σ.Has s) (name : String) (hv : σ.Knows v) :
    Step I σ (σ.declare s name v)
  | assign {s : Scope} {name : String} {v : Value} {τ : Store} (hs : σ.Has s) (hv : σ.Knows v)
    (h : σ.assign? s name v = some τ) : Step I σ τ
  | function {f : Function} (hf : σ.Has f.captured) : Step I σ (σ.addFunction f).2
  | note (line : String) : Step I σ (σ.note line)
  | eval {s : Scope} (code : Code) (hs : σ.Has s) : Step I σ (I.eval code s σ).2
  | invoke {v : Value} {c : Call} (hv : σ.Knows v) (hc : σ.Has c.scope) :
    Step I σ (I.invoke v c σ).2

namespace Context

variable {c c' : Context} {name : String}

theorem eq_of_checkName
    (h : (do checkName name; return c : Except NameError Context) = .ok c') : c' = c := by
  cases hn : checkName name with
  | error e =>
    rw [hn] at h
    cases h
  | ok u =>
    rw [hn] at h
    cases h
    rfl

theorem values_of_register {k : Keyword} (h : c.register name k = .ok c') :
    c'.values = c.values := by
  rw [eq_of_checkName h]

theorem values_of_define {v : Value} (h : c.define name v = .ok c') :
    c'.values = c.values.insert name v := by
  rw [eq_of_checkName h]

theorem Made.nodup_names {known : Value → Prop} (h : c.Made known) : c.values.names.Nodup := by
  induction h with
  | ofKeywords keywords =>
    change constants.names.Nodup
    decide
  | register _ h ih => rwa [values_of_register h]
  | define _ _ h ih =>
    rw [values_of_define h]
    exact Bindings.nodup_names_insert ih _ _

theorem Made.known {known : Value → Prop} (h : c.Made known) (hnull : known .null)
    (hboolean : ∀ b, known (.boolean b)) : ∀ v ∈ c.values.values, known v := by
  induction h with
  | ofKeywords keywords =>
    change ∀ v ∈ constants.values, known v
    simp only [constants, Bindings.values, List.map_cons, List.map_nil, List.forall_mem_cons]
    exact ⟨hnull, hboolean true, hboolean false, fun v hv => absurd hv List.not_mem_nil⟩
  | register _ h ih => rwa [values_of_register h]
  | define _ hv h ih =>
    rw [values_of_define h]
    intro x hx
    rcases Bindings.mem_values_insert hx with rfl | hx
    · exact hv
    · exact ih x hx

end Context

/-- A computation that leaves a well-formed store, with nothing taken away. -/
structure Eval.Safe {α : Type} (σ : Store) (P : Store → α → Prop) (x : Eval α) : Prop where
  grows : σ.Grows (x σ).2
  wellFormed : (x σ).2.WellFormed
  result : ∀ a, (x σ).1 = .value a → P (x σ).2 a

structure Interpreter.Tame (I : Interpreter) (σ₀ : Store) : Prop where
  eval : ∀ {σ : Store} {s : Scope} (code : Code), σ₀.Grows σ → σ.WellFormed → σ.Has s →
    (I.eval code s).Safe σ Store.Knows
  invoke : ∀ {σ : Store} {v : Value} {c : Call}, σ₀.Grows σ → σ.WellFormed → σ.Knows v →
    σ.Has c.scope → (I.invoke v c).Safe σ Store.Knows

theorem Interpreter.Tame.mono {I : Interpreter} {σ τ : Store} (hI : I.Tame σ) (h : σ.Grows τ) :
    I.Tame τ where
  eval code hgrows := hI.eval code (h.trans hgrows)
  invoke hgrows := hI.invoke (h.trans hgrows)

namespace Store

variable {I : Interpreter} {σ τ : Store}

theorem Step.safe (hI : I.Tame σ) (hσ : σ.WellFormed) (h : σ.Step I τ) :
    σ.Grows τ ∧ τ.WellFormed := by
  cases h with
  | root hc =>
    refine ⟨σ.grows_addFrame _, hσ.addFrame ?_ hc.nodup_names ?_⟩
    · intro p ho
      cases ho
    · exact hc.known trivial fun _ => trivial
  | child hs => exact ⟨σ.grows_addFrame _, hσ.addChild hs⟩
  | declare _ name hv => exact ⟨σ.grows_declare _ name _, hσ.declare hv _ name⟩
  | assign _ hv h =>
    refine ⟨?_, hσ.assign hv h⟩
    obtain ⟨t, -, rfl⟩ := Option.map_eq_some_iff.mp h
    exact σ.grows_declare t _ _
  | function hf => exact ⟨σ.grows_addFunction _, hσ.addFunction hf⟩
  | note line => exact ⟨σ.grows_note line, hσ.note line⟩
  | eval code hs =>
    have hsafe := hI.eval code (.refl σ) hσ hs
    exact ⟨hsafe.grows, hsafe.wellFormed⟩
  | invoke hv hc =>
    have hsafe := hI.invoke (.refl σ) hσ hv hc
    exact ⟨hsafe.grows, hsafe.wellFormed⟩

theorem Step.safe_trans (hI : I.Tame σ) (hσ : σ.WellFormed) (h : ReflTransGen (Step I) σ τ) :
    σ.Grows τ ∧ τ.WellFormed := by
  induction h with
  | refl => exact ⟨.refl σ, hσ⟩
  | tail _ hstep ih =>
    obtain ⟨hgrows, hwf⟩ := ih
    obtain ⟨hgrows', hwf'⟩ := hstep.safe (hI.mono hgrows) hwf
    exact ⟨hgrows.trans hgrows', hwf'⟩

end Store

/-- From any later store, a computation comes down to steps, and a value that it ends in is as
described. -/
def Eval.Performs {α : Type} (I : Interpreter) (σ : Store) (P : Store → α → Prop) (x : Eval α) :
    Prop :=
  I.Tame σ → ∀ τ, σ.Grows τ → τ.WellFormed →
    ReflTransGen (Store.Step I) τ (x τ).2 ∧ ∀ a, (x τ).1 = .value a → P (x τ).2 a

namespace Eval.Performs

variable {α β : Type} {I : Interpreter} {σ : Store} {P : Store → α → Prop} {Q : Store → β → Prop}
  {x : Eval α} {s : Scope} {v : Value}

theorem safe (h : x.Performs I σ P) (hI : I.Tame σ) (hσ : σ.WellFormed) : x.Safe σ P := by
  obtain ⟨hsteps, hresult⟩ := h hI σ (.refl σ) hσ
  obtain ⟨hgrows, hwf⟩ := Store.Step.safe_trans hI hσ hsteps
  exact ⟨hgrows, hwf, hresult⟩

theorem read {f : Store → α} (h : ∀ τ, σ.Grows τ → τ.WellFormed → P τ (f τ)) :
    (Eval.read f).Performs I σ P := by
  intro _ τ hτ hwf
  refine ⟨.refl, ?_⟩
  rintro a ⟨⟩
  exact h τ hτ hwf

theorem pure {a : α} (h : ∀ τ, σ.Grows τ → P τ a) : (Pure.pure a : Eval α).Performs I σ P :=
  read fun τ hτ _ => h τ hτ

theorem fail (e : RuntimeError) : (Eval.fail e : Eval α).Performs I σ P := by
  intro _ τ _ _
  refine ⟨.refl, ?_⟩
  rintro a ⟨⟩

theorem update {f : Store → α × Store}
    (hstep : ∀ τ, σ.Grows τ → τ.Step I (f τ).2) (hP : ∀ τ, σ.Grows τ → P (f τ).2 (f τ).1) :
    (Eval.update f).Performs I σ P := by
  intro _ τ hτ _
  refine ⟨.single (hstep τ hτ), ?_⟩
  rintro a ⟨⟩
  exact hP τ hτ

theorem bind {f : α → Eval β} (hx : x.Performs I σ P)
    (hf : ∀ τ a, σ.Grows τ → P τ a → (f a).Performs I τ Q) : (x >>= f).Performs I σ Q := by
  intro hI τ hτ hwf
  obtain ⟨hsteps, hresult⟩ := hx hI τ hτ hwf
  obtain ⟨hgrows, hwf'⟩ := Store.Step.safe_trans (hI.mono hτ) hwf hsteps
  have hlater := hτ.trans hgrows
  -- the second part starts in the store that the steps of the first lead to
  rw [Eval.bind_apply]
  generalize x τ = r at hsteps hresult hwf' hlater
  obtain ⟨o, τ'⟩ := r
  cases o with
  | value a =>
    obtain ⟨hsteps', hresult'⟩ :=
      hf τ' a hlater (hresult a rfl) (hI.mono hlater) τ' (.refl τ') hwf'
    exact ⟨hsteps.trans hsteps', hresult'⟩
  | error e => exact ⟨hsteps, fun b hb => by cases hb⟩
  | tooDeep => exact ⟨hsteps, fun b hb => by cases hb⟩

theorem mono {P' : Store → α → Prop} (hx : x.Performs I σ P) (h : ∀ τ a, P τ a → P' τ a) :
    x.Performs I σ P' := by
  intro hI τ hτ hwf
  obtain ⟨hsteps, hresult⟩ := hx hI τ hτ hwf
  exact ⟨hsteps, fun a ha => h _ a (hresult a ha)⟩

theorem child (hs : σ.Has s) : (Eval.child s).Performs I σ Store.Has :=
  update (fun _ hτ => .child (hτ.has hs)) fun τ _ => τ.has_addFrame _

theorem declare (hs : σ.Has s) (name : String) (hv : σ.Knows v) :
    (Eval.declare s name v).Performs I σ fun _ _ => True :=
  update (fun _ hτ => .declare (hτ.has hs) name (hτ.knows hv)) fun _ _ => trivial

theorem assign (hs : σ.Has s) (name : String) (hv : σ.Knows v) :
    (Eval.assign s name v).Performs I σ fun _ _ => True := by
  intro _ τ hτ _
  refine ⟨?_, fun _ _ => trivial⟩
  rw [Eval.assign]
  cases h : τ.assign? s name v with
  | none => exact .refl
  | some υ => exact .single (.assign (hτ.has hs) (hτ.knows hv) h)

theorem addFunction {f : Function} (hf : σ.Has f.captured) :
    (Eval.update (·.addFunction f)).Performs I σ Store.Knows :=
  update (fun _ hτ => .function (hτ.has hf)) fun τ _ => τ.knows_addFunction f

theorem eval (code : Code) (hs : σ.Has s) : (I.eval code s).Performs I σ Store.Knows := by
  intro hI τ hτ hwf
  exact ⟨.single (.eval code (hτ.has hs)), (hI.eval code hτ hwf (hτ.has hs)).result⟩

theorem invoke {c : Call} (hv : σ.Knows v) (hc : σ.Has c.scope) :
    (I.invoke v c).Performs I σ Store.Knows := by
  intro hI τ hτ hwf
  exact ⟨.single (.invoke (hτ.knows hv) (hτ.has hc)),
    (hI.invoke hτ hwf (hτ.knows hv) (hτ.has hc)).result⟩

theorem resolve (s : Scope) (name : String) (span : Span) :
    (Eval.resolve s name span).Performs I σ Store.Knows := by
  refine bind (P := fun τ o => ∀ v, o = some v → τ.Knows v) (read ?_) ?_
  · intro τ _ hwf v hv
    exact hwf.knows_lookup hv
  · intro τ o _ ho
    cases o with
    | none => exact fail _
    | some v => exact pure fun _ hυ => hυ.knows (ho v rfl)

theorem mapM {γ : Type} {f : γ → Eval α} (hP : ∀ τ υ a, τ.Grows υ → P τ a → P υ a) :
    ∀ (σ : Store) (l : List γ), (∀ τ, σ.Grows τ → ∀ c ∈ l, (f c).Performs I τ P) →
      (l.mapM f).Performs I σ fun τ as => ∀ a ∈ as, P τ a
  | σ, [], _ => pure fun _ _ a ha => by cases ha
  | σ, c :: l, h => by
    rw [List.mapM_cons]
    refine bind (h σ (.refl σ) c List.mem_cons_self) fun τ a hτ ha => ?_
    refine bind (mapM hP τ l fun υ hυ d hd => h υ (hτ.trans hυ) d (List.mem_cons_of_mem c hd)) ?_
    intro υ as hυ has
    apply pure
    intro ω hω
    rw [List.forall_mem_cons]
    exact ⟨hP τ ω a (hυ.trans hω) ha, fun b hb => hP υ ω b hω (has b hb)⟩

theorem foldlM {f : Value → Code → Eval Value} :
    ∀ (σ : Store) (codes : List Code) (v : Value),
      (∀ τ, σ.Grows τ → ∀ v code, (f v code).Performs I τ Store.Knows) → σ.Knows v →
      (codes.foldlM f v).Performs I σ Store.Knows
  | σ, [], v, _, hv => pure fun _ hτ => hτ.knows hv
  | σ, code :: codes, v, h, _ => by
    rw [List.foldlM_cons]
    refine bind (h σ (.refl σ) v code) fun τ u hτ hu => ?_
    exact foldlM τ codes u (fun υ hυ => h υ (hτ.trans hυ)) hu

theorem runItems (hs : σ.Has s) (items : List Code) :
    (runItems I.eval s items).Performs I σ Store.Knows :=
  foldlM σ items .null (fun _ hτ _ code => eval code (hτ.has hs)) trivial

variable {c : Call}

theorem checkArity (a : Arity) : (c.checkArity a).Performs I σ fun _ _ => True := by
  rw [Call.checkArity]
  split
  · exact pure fun _ _ => trivial
  · exact fail _

theorem reference (index : Nat) : (c.reference index).Performs I σ fun _ _ => True := by
  rw [Call.reference]
  split
  · exact pure fun _ _ => trivial
  · exact fail _

theorem referencesFrom (index : Nat) :
    (c.referencesFrom index).Performs I σ fun _ _ => True :=
  mono (mapM (fun _ _ _ _ _ => trivial) σ _ fun _ _ i _ => reference i) fun _ _ _ => trivial

theorem block (index : Nat) : (c.block index).Performs I σ fun _ _ => True := by
  rw [Call.block]
  split
  · exact pure fun _ _ => trivial
  · exact fail _

theorem evalIn (hs : σ.Has s) (index : Nat) :
    (c.evalIn I.eval s index).Performs I σ Store.Knows := by
  rw [Call.evalIn]
  split
  · exact eval _ hs
  · exact pure fun _ _ => trivial

theorem evalArg (hc : σ.Has c.scope) (index : Nat) :
    (c.eval I.eval index).Performs I σ Store.Knows :=
  evalIn hc index

theorem search (sought : Value → Bool) :
    ∀ (σ : Store) (codes : List Code), σ.Has s →
      (Builtin.search sought I.eval s codes).Performs I σ fun _ _ => True
  | σ, [], _ => pure fun _ _ => trivial
  | σ, code :: codes, hs => by
    rw [Builtin.search]
    refine bind (eval code hs) fun τ v hτ _ => ?_
    split
    · exact pure fun _ _ => trivial
    · exact search sought τ codes (hτ.has hs)

theorem builtin (b : Builtin) (hc : σ.Has c.scope) :
    (b.run I.eval c).Performs I σ Store.Knows := by
  refine bind (checkArity b.arity) fun σ _ hσ _ => ?_
  replace hc := hσ.has hc
  cases b with
  | var =>
    refine bind (reference 0) fun τ name hτ _ => ?_
    refine bind (evalArg (hτ.has hc) 1) fun υ v hυ hv => ?_
    refine bind (declare (hυ.has (hτ.has hc)) name hv) fun ω _ hω _ => ?_
    exact pure fun _ h => h.knows (hω.knows hv)
  | set =>
    refine bind (reference 0) fun τ name hτ _ => ?_
    refine bind (evalArg (hτ.has hc) 1) fun υ v hυ hv => ?_
    refine bind (assign (hυ.has (hτ.has hc)) name hv) fun ω found hω _ => ?_
    cases found with
    | false => exact fail _
    | true => exact pure fun _ h => h.knows (hω.knows hv)
  | cond =>
    refine bind (evalArg hc 0) fun τ v hτ _ => ?_
    split
    · exact evalArg (hτ.has hc) 1
    · exact evalArg (hτ.has hc) 2
  | function =>
    refine bind (block 0) fun τ body hτ _ => ?_
    refine bind (referencesFrom 1) fun υ params hυ _ => ?_
    exact addFunction (hυ.has (hτ.has hc))
  | eq =>
    refine bind (evalArg hc 0) fun τ v hτ _ => ?_
    refine bind (evalArg (hτ.has hc) 1) fun υ u _ _ => ?_
    exact pure fun _ _ => trivial
  | not => exact bind (evalArg hc 0) fun τ v _ _ => pure fun _ _ => trivial
  | any => exact bind (search _ σ c.args hc) fun τ _ _ _ => pure fun _ _ => trivial
  | all => exact bind (search _ σ c.args hc) fun τ _ _ _ => pure fun _ _ => trivial

theorem bindParams {caller frame : Scope} :
    ∀ (σ : Store) (params : List String) (args : List Code), σ.Has caller → σ.Has frame →
      (Function.bindParams I.eval caller frame params args).Performs I σ fun _ _ => True
  | σ, [], [], _, _ => by
    rw [Function.bindParams]
    exact pure fun _ _ => trivial
  | σ, [], arg :: args, hcaller, hframe => by
    rw [Function.bindParams]
    refine bind (eval arg hcaller) fun τ _ hτ _ => ?_
    exact bindParams τ [] args (hτ.has hcaller) (hτ.has hframe)
  | σ, param :: params, [], hcaller, hframe => by
    rw [Function.bindParams]
    refine bind (declare hframe param trivial) fun τ _ hτ _ => ?_
    exact bindParams τ params [] (hτ.has hcaller) (hτ.has hframe)
  | σ, param :: params, arg :: args, hcaller, hframe => by
    rw [Function.bindParams]
    refine bind (eval arg hcaller) fun τ v hτ hv => ?_
    refine bind (declare (hτ.has hframe) param hv) fun υ _ hυ _ => ?_
    exact bindParams υ params args (hυ.has (hτ.has hcaller)) (hυ.has (hτ.has hframe))
termination_by _ params args => params.length + args.length

theorem call {f : Function} {caller : Scope} (hf : σ.Has f.captured) (hcaller : σ.Has caller)
    (args : List Code) : (f.call I.eval caller args).Performs I σ Store.Knows := by
  refine bind (child hf) fun τ frame hτ hframe => ?_
  refine bind (bindParams τ f.params args (hτ.has hcaller) hframe) fun υ _ hυ _ => ?_
  exact runItems (hυ.has hframe) f.body.items

end Eval.Performs

/-- From a store on, the keywords of the embedding program do nothing but operations. -/
def Host.Lawful (host : Host) (σ₀ : Store) : Prop :=
  ∀ (id : Nat) (I : Interpreter) (c : Call) (σ : Store), σ₀.Grows σ → σ.Has c.scope →
    (host id I c).Performs I σ Store.Knows

namespace Interpreter

open Eval

variable {I : Interpreter} {host : Host} {σ₀ σ : Store} {c : Call} {v : Value} {s : Scope}

theorem performs_runKeyword (hhost : host.Lawful σ₀) (hσ : σ₀.Grows σ) (k : Keyword)
    (hc : σ.Has c.scope) : (I.runKeyword host k c).Performs I σ Store.Knows := by
  cases k with
  | builtin table b => exact Performs.builtin b hc
  | host id name => exact hhost id I _ σ hσ hc

theorem performs_invokeStep (hhost : host.Lawful σ₀) (hσ : σ₀.Grows σ) (hv : σ.Knows v)
    (hc : σ.Has c.scope) : (I.invokeStep host v c).Performs I σ Store.Knows := by
  cases v with
  | keyword k => exact performs_runKeyword hhost hσ k hc
  | function i =>
    refine Performs.bind (P := fun τ o => ∀ f, o = some f → τ.Has f.captured)
      (Performs.read ?_) ?_
    · intro τ _ hwf f hf
      exact hwf.captured hf
    · intro τ o hτ ho
      cases o with
      | none => exact Performs.fail _
      | some f => exact Performs.call (ho f rfl) (hτ.has hc) c.args
  | null | number | string | boolean | host => exact Performs.fail _

theorem performs_evalStep (hhost : host.Lawful σ₀) (hσ : σ₀.Grows σ) (code : Code)
    (hs : σ.Has s) : (I.evalStep host code s).Performs I σ Store.Knows := by
  cases code with
  | literal p l =>
    apply Performs.pure
    cases l <;> exact fun _ _ => trivial
  | lookup p name | reference p name => exact Performs.resolve s name p
  | block p items =>
    exact Performs.bind (Performs.child hs) fun _ _ _ hinner => Performs.runItems hinner items
  | call p callee args =>
    cases callee with
    | keyword k => exact performs_runKeyword hhost hσ k hs
    | name name =>
      refine Performs.bind (Performs.resolve s name p) fun τ v hτ hv => ?_
      exact performs_invokeStep hhost (hσ.trans hτ) hv (hτ.has hs)

end Interpreter

def Host.interpreter (host : Host) (limit : Nat) : Interpreter :=
  ⟨Code.eval host limit, Value.invoke host limit⟩

theorem Host.Lawful.tame {host : Host} {σ₀ : Store} (hhost : host.Lawful σ₀) :
    ∀ limit, (host.interpreter limit).Tame σ₀
  -- keywords of the embedding program are handed the interpreter of one level below
  | 0 => {
    eval := by
      intro σ s code _ hwf _
      exact ⟨.refl σ, hwf, fun a ha => by cases ha⟩
    invoke := by
      intro σ v c _ hwf _ _
      exact ⟨.refl σ, hwf, fun a ha => by cases ha⟩ }
  | limit + 1 => {
    eval := by
      intro σ s code hσ hwf hs
      exact (Interpreter.performs_evalStep hhost hσ code hs).safe ((hhost.tame limit).mono hσ) hwf
    invoke := by
      intro σ v c hσ hwf hv hc
      exact (Interpreter.performs_invokeStep hhost hσ hv hc).safe
        ((hhost.tame limit).mono hσ) hwf }

end Fexpr
