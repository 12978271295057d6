import Fexpr.Proofs.Covering
import Fexpr.Proofs.ErrorOrigin
import Fexpr.Proofs.InvalidCallee

/-!
# Which node an error blames

A program runs its own code only, in whatever scopes and stores it gets to. So the code that raises an
error is that of a node of its tree, and the kind of the error says which node it is.
-/

namespace Fexpr

structure Visit.Within (V : View) (P : Code → Prop) (v : Visit) : Prop where
  code : P v.code
  scope : V.scope v.scope
  store : V.Covers P v.store

namespace Visit

variable {V : View} {P : Code → Prop} {v w u : Visit} {c : Call} {host : Host} {n : Nat}

theorem Runs.scope_eq {k : Keyword} (hv : v.Runs k c) : c.scope = v.scope := by
  cases hv <;> rfl

theorem Runs.args (hP : Code.Hereditary P) {k : Keyword} (hv : v.Runs k c) (h : P v.code) :
    ∀ arg ∈ c.args, P arg := by
  cases hv <;> exact hP.args h

theorem Runs.isBuiltin (hP : Code.Hereditary P) {k : Keyword} (hv : v.Runs k c)
    (h : v.Within V P) : k.isBuiltin := by
  cases hv with
  | keyword => exact hP.builtin h.code
  | name hk => exact h.store.closed.lookup h.scope hk

theorem Enters.captured {f : Function} {args : List Code} (hv : v.Enters f args)
    (h : v.Within V P) : V.scope f.captured ∧ ∀ item ∈ f.body.items, P item := by
  cases hv with
  | name hj hf =>
    have hview := h.store.closed.lookup h.scope hj
    exact ⟨h.store.closed.captured hview hf, h.store.code hview hf⟩

theorem Enters.args {f : Function} {args : List Code} (hP : Code.Hereditary P)
    (hv : v.Enters f args) (h : P v.code) : ∀ arg ∈ args, P arg := by
  cases hv
  exact hP.args h

variable {ev : Evaluator} {hP : Code.Hereditary P}

theorem covers_of_reads (hev : (V.keeping hP).Evaluators ev ev) {b : Builtin} {σ τ : Store}
    {i : Nat} (h : b.Reads ev c σ i τ) (hσ : V.Covers P σ) (hs : V.scope c.scope)
    (hargs : ∀ arg ∈ c.args, P arg) : V.Covers P τ := by
  have hfirst : ∀ {v : Value} {τ : Store}, c.eval ev 0 σ = (.value v, τ) → V.Covers P τ := by
    intro v τ hv
    have hcalls : (V.keeping hP).Calls .world () c c :=
      ⟨⟨rfl, hs⟩, Code.forall₂_self_iff.mpr ⟨rfl, hargs⟩, rfl⟩
    have hτ := hσ.of_related (hev.arg hcalls 0)
    rwa [hv] at hτ
  have htake : ∀ arg ∈ c.args.take i, P arg := fun arg harg =>
    hargs arg (List.mem_of_mem_take harg)
  cases h with
  | var | set | test | left | not => exact hσ
  | yes h | no h | right h => exact hfirst h
  | any h =>
    have hτ := View.Covers.search hev (fun _ _ _ hv => hv.isTruthy) hσ hs htake
    rwa [h] at hτ
  | all h =>
    have hτ := View.Covers.search hev (fun _ _ _ hv => congrArg (!·) hv.isTruthy) hσ hs htake
    rwa [h] at hτ

theorem Leads.within (hev : (V.keeping hP).Evaluators ev ev) (h : v.Leads ev w)
    (hv : v.Within V P) : w.Within V P := by
  have hframe : V.scope ⟨v.store.frames.size⟩ := hv.store.scope (Nat.le_refl _)
  cases h with
  | @item p items s σ τ i item x hitem h =>
    have hitems := hP.items hv.code
    refine ⟨hitems _ (List.mem_of_getElem? hitem), hframe, ?_⟩
    have hτ := View.Covers.runItems hev (hv.store.addChild hv.scope) hframe fun c hc =>
      hitems c (List.mem_of_mem_take (i := i) hc)
    rwa [h] at hτ
  | argument hruns haccepts harg h =>
    have hargs := hruns.args hP hv.code
    have hscope := hruns.scope_eq ▸ hv.scope
    exact ⟨hargs _ (List.mem_of_getElem? harg), hscope,
      covers_of_reads hev h hv.store hscope hargs⟩
  | @param _ f args i arg τ henters harg h =>
    have hargs := henters.args hP hv.code
    refine ⟨hargs _ (List.mem_of_getElem? harg), hv.scope, ?_⟩
    have hτ := View.Covers.bindParams hev (f.params.take i)
      (hv.store.addChild (henters.captured hv).1) hv.scope hframe fun c hc =>
        hargs c (List.mem_of_mem_take (i := i) hc)
    rwa [h] at hτ
  | @body _ f args i item x τ τ' henters hparams hitem h =>
    obtain ⟨hcaptured, hitems⟩ := henters.captured hv
    refine ⟨hitems _ (List.mem_of_getElem? hitem), hframe, ?_⟩
    have hτ := View.Covers.bindParams hev f.params (hv.store.addChild hcaptured)
      hv.scope hframe (henters.args hP hv.code)
    rw [hparams] at hτ
    have hτ' := View.Covers.runItems hev hτ hframe fun c hc =>
      hitems c (List.mem_of_mem_take (i := i) hc)
    rwa [h] at hτ'

theorem FailsAt.within {e : RuntimeError} (hP : Code.Hereditary P) (h : FailsAt host e n v u)
    (hv : v.Within V P) :
    u.Within V P ∧ ∃ m, u.Raises ⟨Code.eval host m, Value.invoke host m⟩ host e := by
  induction h with
  | @here n v h => exact ⟨hv, n, h⟩
  | @there n v w u h _ ih =>
    have hev : (V.keeping hP).Evaluators (Code.eval host n) (Code.eval host n) :=
      Zoning.evaluators_eval host host n
    exact ih (h.within hev hv)

end Visit

namespace Expr

def calleeName? : Expr → Option String
  | lookup _ n | reference _ n => some n
  | _ => none

def HasNodeOf (root : Expr) (kw : Keywords) (code : Code) : Prop :=
  ∃ node, root.IsNode node ∧ node.Mirrors kw code

variable {root : Expr} {kw : Keywords}

theorem getElem?_of_forall₂ {es : List Expr} {codes : List Code} {i : Nat} {code : Code}
    (h : List.Forall₂ (Mirrors kw) es codes) (hcode : codes[i]? = some code) :
    ∃ e, es[i]? = some e ∧ e.Mirrors kw code := by
  induction h generalizing i with
  | nil => cases hcode
  | cons h _ ih =>
    cases i with
    | zero =>
      cases hcode
      exact ⟨_, rfl, h⟩
    | succ i => exact ih hcode

theorem exists_of_forall₂ {es : List Expr} {codes : List Code} {code : Code}
    (h : List.Forall₂ (Mirrors kw) es codes) (hcode : code ∈ codes) :
    ∃ e ∈ es, e.Mirrors kw code := by
  obtain ⟨i, hi⟩ := List.mem_iff_getElem?.mp hcode
  obtain ⟨e, he, h⟩ := getElem?_of_forall₂ h hi
  exact ⟨e, List.mem_of_getElem? he, h⟩

theorem hereditary_hasNodeOf (hkw : ∀ k ∈ kw.values, k.isBuiltin) :
    Code.Hereditary (root.HasNodeOf kw) := by
  refine ⟨?_, ?_, ?_⟩
  · rintro p codes ⟨node, hnode, hmirrors⟩ code hcode
    cases hmirrors with
    | block hitems =>
      obtain ⟨e, he, h⟩ := exists_of_forall₂ hitems hcode
      exact ⟨e, hnode.child he, h⟩
  · rintro p callee codes ⟨node, hnode, hmirrors⟩ code hcode
    cases hmirrors with
    | keyword _ hargs | name _ hargs | referenced hargs =>
      obtain ⟨e, he, h⟩ := exists_of_forall₂ hargs hcode
      exact ⟨e, hnode.child (List.mem_cons_of_mem _ he), h⟩
  · rintro p k codes ⟨node, hnode, hmirrors⟩
    cases hmirrors with
    | keyword hk => exact hkw k (Bindings.mem_values_of_find? hk)

theorem isNode_of_mem_topLevel {e : Expr} (h : e ∈ root.topLevel) : root.IsNode e := by
  cases root with
  | block p items => exact .child .root h
  | literal | lookup | reference | invocation =>
    cases List.mem_singleton.mp h
    exact .root

theorem hasNodeOf_items {body : Body} (h : root.lowerProgram kw = .ok body) :
    ∀ code ∈ body.items, root.HasNodeOf kw code := by
  intro code hcode
  have hmirrors := mirrors_of_lowerAll _ (lowerProgram_eq_ok_iff.mp h).1
  obtain ⟨e, he, h⟩ := exists_of_forall₂ hmirrors hcode
  exact ⟨e, isNode_of_mem_topLevel he, h⟩

theorem Mirrors.span {e : Expr} {code : Code} (h : e.Mirrors kw code) : e.span = code.span := by
  cases h <;> rfl

theorem Mirrors.invocation {e : Expr} {u : Visit} {k : Keyword} {c : Call}
    (h : e.Mirrors kw u.code) (hu : u.Runs k c) :
    ∃ callee args, e = .invocation c.span callee args ∧
      List.Forall₂ (Mirrors kw) args c.args := by
  cases hu with
  | keyword =>
    cases h with
    | keyword _ hargs => exact ⟨_, _, rfl, hargs⟩
  | name =>
    cases h with
    | name _ hargs | referenced hargs => exact ⟨_, _, rfl, hargs⟩

end Expr

theorem Builtin.Rejects.getElem? {args : List Code} {b : Builtin} {i : Nat} {expected : String}
    {arg : Code} (h : b.Rejects args i expected arg) : args[i]? = some arg := by
  cases h <;> assumption

inductive RuntimeError.Blames (u : Visit) : Expr → RuntimeError → Prop where
  | lookup {p : Span} {n : String} (h : u.store.lookup u.scope n = none) :
    Blames u (.lookup p n) (.unresolved n p)
  | reference {p : Span} {n : String} (h : u.store.lookup u.scope n = none) :
    Blames u (.reference p n) (.unresolved n p)
  | callee {p : Span} {callee : Expr} {args : List Expr} {n : String}
    (hname : callee.calleeName? = some n) (h : u.store.lookup u.scope n = none) :
    Blames u (.invocation p callee args) (.unresolved n p)
  | set {p q : Span} {callee value : Expr} {m : String} {table : Nat} {c : Call}
    (hu : u.Runs (.builtin table .set) c) :
    Blames u (.invocation p callee [.reference q m, value]) (.unresolved m p)
  | notCallable {p : Span} {callee : Expr} {args : List Expr} {n : String} {w : Value}
    (hname : callee.calleeName? = some n) (h : u.store.lookup u.scope n = some w) :
    Blames u (.invocation p callee args) (.notCallable n w.typeName p)
  | arity {p : Span} {callee : Expr} {args : List Expr} {table : Nat} {b : Builtin} {c : Call}
    (hu : u.Runs (.builtin table b) c) :
    Blames u (.invocation p callee args) (.arity b.name b.arity args.length p)
  | mismatch {p : Span} {callee arg : Expr} {args : List Expr} {table i : Nat} {b : Builtin} {c : Call}
    {expected found : String} (hu : u.Runs (.builtin table b) c) (harg : args[i]? = some arg) :
    Blames u (.invocation p callee args) (.mismatch b.name (i + 1) expected found arg.span)

theorem RuntimeError.Blames.exists_node {u : Visit} {root node : Expr} {e : RuntimeError}
    (h : e.Blames u node) (hnode : root.IsNode node) :
    ∃ place, root.IsNode place ∧ place.span = e.span := by
  cases h with
  | mismatch _ harg =>
    exact ⟨_, hnode.child (List.mem_cons_of_mem _ (List.mem_of_getElem? harg)), rfl⟩
  | lookup | reference | callee | set | notCallable | arity => exact ⟨_, hnode, rfl⟩

namespace Visit

variable {V : View} {P : Code → Prop} {u : Visit} {I : Interpreter} {host : Host} {e : RuntimeError}
  {kw : Keywords} {node : Expr}

theorem Raises.blames (h : u.Raises I host e) (hP : Code.Hereditary P) (hu : u.Within V P)
    (hnode : node.Mirrors kw u.code) : e.Blames u node := by
  cases h with
  | lookup h =>
    cases hnode
    exact .lookup h
  | reference h =>
    cases hnode
    exact .reference h
  | callee h =>
    cases hnode <;> exact .callee rfl h
  | notCallable h =>
    cases hnode <;> exact .notCallable rfl h
  | arity hv =>
    obtain ⟨callee, args, rfl, hargs⟩ := hnode.invocation hv
    rw [← hargs.length_eq]
    exact .arity hv
  | mismatch hv _ h =>
    obtain ⟨callee, args, rfl, hargs⟩ := hnode.invocation hv
    obtain ⟨arg, harg, hmirrors⟩ := Expr.getElem?_of_forall₂ hargs h.getElem?
    rw [← hmirrors.span]
    exact .mismatch hv harg
  | set hv hcodes =>
    obtain ⟨callee, args, rfl, hargs⟩ := hnode.invocation hv
    rw [hcodes] at hargs
    cases hargs with
    | cons hname hrest =>
      cases hname
      cases hrest with
      | cons _ hnil =>
        cases hnil
        exact .set hv
  | host hv => cases hv.isBuiltin hP hu

end Visit

namespace Program

def FailsAt (p : Program) (host : Host) (limit : Nat) (σ : Store) (e : RuntimeError) (u : Visit) :
    Prop :=
  ∃ i item x τ, p.body.items[i]? = some item ∧
    runItems (Code.eval host limit) (p.context.newScope σ).1 (p.body.items.take i)
      (p.context.newScope σ).2 = (.value x, τ) ∧
    Visit.FailsAt host e limit ⟨item, (p.context.newScope σ).1, τ⟩ u

theorem run_eq_error_iff {p : Program} {host : Host} {limit : Nat} {σ : Store} {e : RuntimeError} :
    (p.run host limit σ).1 = .error e ↔ ∃ u, p.FailsAt host limit σ e u := by
  have hrun : (p.run host limit σ).1 = .error e ↔ ∃ i item x τ, p.body.items[i]? = some item ∧
      runItems (Code.eval host limit) (p.context.newScope σ).1 (p.body.items.take i)
        (p.context.newScope σ).2 = (.value x, τ) ∧
      (item.eval host limit (p.context.newScope σ).1 τ).1 = .error e :=
    runItems_eq_error_iff
  rw [hrun]
  constructor
  · rintro ⟨i, item, x, τ, hitem, hbefore, h⟩
    obtain ⟨u, hu⟩ := Visit.eval_eq_error_iff (v := ⟨item, _, τ⟩).mp h
    exact ⟨u, i, item, x, τ, hitem, hbefore, hu⟩
  · rintro ⟨u, i, item, x, τ, hitem, hbefore, hu⟩
    exact ⟨i, item, x, τ, hitem, hbefore, Visit.eval_eq_error_iff.mpr ⟨u, hu⟩⟩

end Program

def Store.viewAfter (σ : Store) : View where
  scope t := σ.frames.size ≤ t.index
  function i := σ.functions.size ≤ i

theorem Keywords.isBuiltin_of_mem_builtins {table : Nat} :
    ∀ k ∈ (builtins table).values, k.isBuiltin := by
  intro k hk
  simp only [Bindings.values, builtins, List.map_map, List.mem_map] at hk
  obtain ⟨b, -, rfl⟩ := hk
  rfl

theorem Context.covers_newScope (table : Nat) (P : Code → Prop) (σ : Store) :
    σ.viewAfter.Covers P ((builtin table).newScope σ).2 := by
  have hfunction : ∀ {i : Nat} {f : Function}, σ.functions.size ≤ i → σ.function? i ≠ some f := by
    intro i f hi hf
    exact absurd (Array.getElem?_eq_some_iff.mp hf).1 (Nat.not_lt_of_le hi)
  refine ⟨⟨?_, fun hi hf => absurd hf (hfunction hi)⟩, fun hi hf => absurd hf (hfunction hi), ?_, id⟩
  · intro t f ht hf
    rcases Store.frame?_addFrame_eq_some hf with hf | ⟨-, rfl⟩
    · exact absurd (Store.lt_size_of_frame? hf) (Nat.not_lt_of_le ht)
    · refine ⟨?_, ?_, Keywords.isBuiltin_of_mem_builtins⟩
      · intro v hv
        change v ∈ [.null, .boolean true, .boolean false] at hv
        simp only [List.mem_cons, List.not_mem_nil, or_false] at hv
        rcases hv with rfl | rfl | rfl <;> trivial
      · rintro p ⟨⟩
  · intro t ht
    have hsize : ((builtin table).newScope σ).2.frames.size = σ.frames.size + 1 := Array.size_push _
    change σ.frames.size ≤ t.index
    omega

/--
An error of a run is raised at some visit, whose code is that of a node of the tree. For a name that is
not bound this is a node with the name or a call of it, or a call of `set` with a reference to it. For
what cannot be called and for a wrong number of arguments it is the call. For an argument of the wrong
kind the error is at that argument of the call.
-/
theorem Program.run_error_blames {source : Source} {table : Nat} {p : Program}
    (hp : Program.compile source (.builtin table) = .ok p) (host : Host) (limit : Nat) (σ : Store)
    {e : RuntimeError} (h : (p.run host limit σ).1 = .error e) :
    ∃ root node u, parse source.text = .ok root ∧ root.IsNode node ∧
      node.Mirrors (.builtins table) u.code ∧ p.FailsAt host limit σ e u ∧ e.Blames u node ∧
      e.PointsInto source.text := by
  obtain ⟨root, body, hparse, hlower, rfl⟩ := Program.compile_eq_ok_iff.mp hp
  have hP : Code.Hereditary (root.HasNodeOf (.builtins table)) :=
    Expr.hereditary_hasNodeOf Keywords.isBuiltin_of_mem_builtins
  have hitems : ∀ c ∈ body.items, root.HasNodeOf (.builtins table) c := Expr.hasNodeOf_items hlower
  obtain ⟨u, i, item, x, τ, hitem, hbefore, hfails⟩ := Program.run_eq_error_iff.mp h
  have hscope : σ.viewAfter.scope ((Context.builtin table).newScope σ).1 := Nat.le_refl _
  have hτ : σ.viewAfter.Covers (root.HasNodeOf (.builtins table)) τ := by
    have hcovers := View.Covers.runItems (Zoning.evaluators_eval (R := σ.viewAfter.keeping hP) host
      host limit) (Context.covers_newScope table _ σ) hscope fun c hc =>
        hitems c (List.mem_of_mem_take (i := i) hc)
    rwa [hbefore] at hcovers
  have hstart : Visit.Within σ.viewAfter (root.HasNodeOf (.builtins table))
      ⟨item, ((Context.builtin table).newScope σ).1, τ⟩ :=
    ⟨hitems item (List.mem_of_getElem? hitem), hscope, hτ⟩
  obtain ⟨hu, m, hraises⟩ := hfails.within hP hstart
  obtain ⟨node, hnode, hmirrors⟩ := hu.code
  have hblames := hraises.blames hP hu hmirrors
  obtain ⟨place, hplace, hspan⟩ := hblames.exists_node hnode
  exact ⟨root, node, u, hparse, hnode, hmirrors, ⟨i, item, x, τ, hitem, hbefore, hfails⟩, hblames,
    RuntimeError.pointsInto ⟨root, place, hparse, hplace, hspan⟩⟩

/-- The error is raised in the body of a function, which is called further on. -/
theorem Program.run_error_blames_missing :
    ∃ p root node u, compile ⟨"missing", "var(@f, function({ missing })) f()"⟩ (.builtin 0) = .ok p ∧
      parse "var(@f, function({ missing })) f()" = .ok root ∧ root.IsNode node ∧
      p.FailsAt Host.absent 9 .empty (.unresolved "missing" ⟨19, 26⟩) u ∧
      RuntimeError.Blames u node (.unresolved "missing" ⟨19, 26⟩) := by
  have hrun : (compile ⟨"missing", "var(@f, function({ missing })) f()"⟩ (.builtin 0)).map
      (fun p => (p.run Host.absent 9 .empty).1) = .ok (.error (.unresolved "missing" ⟨19, 26⟩)) := by
    decide +kernel
  obtain ⟨p, hok, hrun⟩ := Except.map_eq_ok_iff.mp hrun
  obtain ⟨root, node, u, hparse, hnode, -, hfails, hblames, -⟩ :=
    run_error_blames hok Host.absent 9 .empty hrun
  exact ⟨p, root, node, u, hok, hparse, hnode, hfails, hblames⟩

end Fexpr
