import Fexpr.Proofs.Operations

/-!
# Stores that can come about

Whatever an embedding program does with the store, whichever programs it runs and calls it makes,
and however these end: the store stays well-formed, and the ways outwards from its scopes are finite.
-/

namespace Fexpr

def Tool.HoldsKnown (σ : Store) : Tool → Prop
  | const v => σ.Knows v
  | _ => True

namespace Eval.Performs

variable {I : Interpreter} {σ : Store} {c : Call} {v : Value}

theorem asNumber (index : Nat) (v : Value) :
    (Tool.asNumber c index v).Performs I σ fun _ _ => True := by
  cases v with
  | number n => exact pure fun _ _ => trivial
  | null | string | boolean | function | keyword | host => exact fail _

theorem evalString (hc : σ.Has c.scope) (index : Nat) :
    (Tool.evalString I c index).Performs I σ fun _ _ => True := by
  refine bind (evalArg hc index) fun τ v _ _ => ?_
  cases v with
  | string s => exact pure fun _ _ => trivial
  | null | number | boolean | function | keyword | host => exact fail _

theorem repeated {x : Eval Value} :
    ∀ (σ : Store) (n : Nat) (v : Value), (∀ τ, σ.Grows τ → x.Performs I τ Store.Knows) →
      σ.Knows v → (Tool.repeated x n v).Performs I σ Store.Knows
  | σ, 0, v, _, hv => pure fun _ hτ => hτ.knows hv
  | σ, n + 1, _, hx, _ => by
    refine bind (hx σ (.refl σ)) fun τ v hτ hv => ?_
    exact repeated τ n v (fun υ hυ => hx υ (hτ.trans hυ)) hv

theorem byName {find : Store → String → Option Value} (hc : σ.Has c.scope)
    (hfind : ∀ τ name v, τ.WellFormed → find τ name = some v → τ.Knows v) :
    (Tool.byName I c find).Performs I σ Store.Knows := by
  refine bind (checkArity _) fun τ _ hτ _ => ?_
  refine bind (evalString (hτ.has hc) 0) fun υ name _ _ => ?_
  refine bind (P := fun ω o => ω.Knows (o.getD .null)) (read fun ω _ hwf => ?_) ?_
  · cases ho : find ω name with
    | none => trivial
    | some v => exact hfind ω name v hwf ho
  · exact fun ω o _ ho => pure fun _ h => h.knows ho

theorem evalAll (hc : σ.Has c.scope) (codes : List Code) :
    (codes.mapM (I.eval · c.scope)).Performs I σ fun τ vs => ∀ v ∈ vs, τ.Knows v := by
  apply mapM
  · exact fun _ _ _ h hv => h.knows hv
  · exact fun _ hτ code _ => eval code (hτ.has hc)

theorem tool (t : Tool) (ht : t.HoldsKnown σ) (hc : σ.Has c.scope) :
    (t.run I c).Performs I σ Store.Knows := by
  cases t with
  | const v => exact pure fun _ hτ => hτ.knows ht
  | log =>
    refine bind (checkArity _) fun τ _ hτ _ => ?_
    refine bind (evalArg (hτ.has hc) 0) fun υ v hυ hv => ?_
    refine bind (P := fun _ _ => True) (read fun _ _ _ => trivial) fun ω line hω _ => ?_
    apply update
    · exact fun _ _ => .note line
    · exact fun τ hτ => (τ.grows_note line).knows (hτ.knows (hω.knows hv))
  | join separator =>
    refine bind (evalAll hc c.args) fun τ vs _ _ => ?_
    refine bind (P := fun _ _ => True) (read fun _ _ _ => trivial) fun υ texts _ _ => ?_
    exact pure fun _ _ => trivial
  | reverse =>
    refine bind (evalAll hc c.args.reverse) fun τ vs _ hvs => ?_
    refine pure fun υ hυ => hυ.knows ?_
    cases hlast : vs.getLast? with
    | none => trivial
    | some v => exact hvs v (List.mem_of_getLast? hlast)
  | times =>
    refine bind (checkArity _) fun τ _ hτ _ => ?_
    refine bind (evalArg (hτ.has hc) 0) fun υ v hυ _ => ?_
    refine bind (asNumber 0 v) fun ω n hω _ => ?_
    have hc := hω.has (hυ.has (hτ.has hc))
    exact repeated ω _ .null (fun _ h => evalArg (h.has hc) 1) trivial
  | eval index => exact evalArg hc index
  | evalInChild index =>
    exact bind (child hc) fun τ inner _ hinner => evalIn hinner index
  | depth | names =>
    exact bind (P := fun _ _ => True) (read fun _ _ _ => trivial) fun _ _ _ _ =>
      pure fun _ _ => trivial
  | fail message => exact fail _
  | mismatch index expected found => exact fail _
  | arity a => exact bind (checkArity a) fun _ _ _ _ => pure fun _ _ => trivial
  | has index | shape | info => exact pure fun _ _ => trivial
  | reference index => exact bind (reference index) fun _ _ _ _ => pure fun _ _ => trivial
  | block index =>
    exact bind (block index) fun τ body hτ _ => runItems (hτ.has hc) body.items
  | blockInfo index => exact bind (block index) fun _ _ _ _ => pure fun _ _ => trivial
  | typeName =>
    refine bind (checkArity _) fun τ _ hτ _ => ?_
    exact bind (evalArg (hτ.has hc) 0) fun _ _ _ _ => pure fun _ _ => trivial
  | debug =>
    refine bind (checkArity _) fun τ _ hτ _ => ?_
    refine bind (evalArg (hτ.has hc) 0) fun υ v _ _ => ?_
    exact bind (P := fun _ _ => True) (read fun _ _ _ => trivial) fun _ _ _ _ =>
      pure fun _ _ => trivial
  | operator op =>
    refine bind (checkArity _) fun τ _ hτ _ => ?_
    refine bind (evalArg (hτ.has hc) 0) fun υ v hυ _ => ?_
    refine bind (evalArg (hυ.has (hτ.has hc)) 1) fun ω u _ _ => ?_
    refine bind (asNumber 0 v) fun _ a _ _ => ?_
    refine bind (asNumber 1 u) fun _ b _ _ => ?_
    cases op <;> exact pure fun _ _ => trivial
  | declare =>
    refine bind (checkArity _) fun τ _ hτ _ => ?_
    refine bind (evalString (hτ.has hc) 0) fun υ name hυ _ => ?_
    have hc := hυ.has (hτ.has hc)
    refine bind (evalArg hc 1) fun ω v hω hv => ?_
    refine bind (declare (hω.has hc) name hv) fun _ _ h _ => ?_
    exact pure fun _ h' => h'.knows (h.knows hv)
  | assign =>
    refine bind (checkArity _) fun τ _ hτ _ => ?_
    refine bind (evalString (hτ.has hc) 0) fun υ name hυ _ => ?_
    have hc := hυ.has (hτ.has hc)
    refine bind (evalArg hc 1) fun ω v hω hv => ?_
    exact bind (assign (hω.has hc) name hv) fun _ _ _ _ => pure fun _ _ => trivial
  | lookup => exact byName hc fun τ name v hwf h => hwf.knows_lookup h
  | lookupLocal => exact byName hc fun τ name v hwf h => hwf.knows_lookupLocal h
  | keyword =>
    refine byName hc fun τ name v _ h => ?_
    obtain ⟨k, -, rfl⟩ := Option.map_eq_some_iff.mp h
    trivial
  | call =>
    refine bind (checkArity _) fun τ _ hτ _ => ?_
    refine bind (evalArg (hτ.has hc) 0) fun υ v hυ hv => ?_
    exact invoke hv (hυ.has (hτ.has hc))
  | capturedHere =>
    refine bind (checkArity _) fun τ _ hτ _ => ?_
    refine bind (evalArg (hτ.has hc) 0) fun υ v _ _ => ?_
    cases v with
    | function i =>
      exact bind (P := fun _ _ => True) (read fun _ _ _ => trivial) fun _ _ _ _ =>
        pure fun _ _ => trivial
    | null | number | string | boolean | keyword | host => exact fail _
  | byte =>
    refine bind (checkArity _) fun τ _ hτ _ => ?_
    refine bind (evalArg (hτ.has hc) 0) fun υ v _ _ => ?_
    split
    · exact pure fun _ _ => trivial
    · exact fail _

end Eval.Performs

theorem Tool.HoldsKnown.mono {t : Tool} {σ τ : Store} (h : t.HoldsKnown σ) (hτ : σ.Grows τ) :
    t.HoldsKnown τ := by
  cases t with
  | const v => exact hτ.knows h
  | _ => trivial

theorem Host.lawful_absent (σ : Store) : Host.absent.Lawful σ :=
  fun _ _ _ _ _ _ => Eval.Performs.fail _

theorem Host.lawful_ofTools {tools : Array Tool} {σ : Store}
    (h : ∀ t ∈ tools, t.HoldsKnown σ) : (Host.ofTools tools).Lawful σ := by
  intro id I c τ hτ hc
  rw [Host.ofTools]
  cases ht : tools[id]? with
  | none => exact lawful_absent σ id I c τ hτ hc
  | some t => exact Eval.Performs.tool t ((h t (Array.mem_of_getElem? ht)).mono hτ) hc

namespace Store

/-- Stores that come about when operations are done, programs are run, functions are called and
sessions go on, each time with any keywords of the embedding program and to any depth. Compiling
does not touch the store. -/
inductive Reachable : Store → Prop where
  | empty : Reachable .empty
  | operate {σ τ : Store} {host : Host} {limit : Nat} (hσ : Reachable σ) (hhost : host.Lawful σ)
    (h : σ.Step (host.interpreter limit) τ) : Reachable τ
  | run {σ : Store} {host : Host} (hσ : Reachable σ) (hhost : host.Lawful σ) (limit : Nat)
    {p : Program} (hp : p.context.Made σ.Knows) : Reachable (p.run host limit σ).2
  | runIn {σ : Store} {host : Host} {s : Scope} (hσ : Reachable σ) (hhost : host.Lawful σ)
    (limit : Nat) (p : Program) (hs : σ.Has s) : Reachable (p.runIn host limit s σ).2
  | call {σ : Store} {host : Host} {f : Function} {caller : Scope} (hσ : Reachable σ)
    (hhost : host.Lawful σ) (limit : Nat) (hf : σ.Has f.captured) (hcaller : σ.Has caller)
    (args : List Code) : Reachable (f.call (Code.eval host limit) caller args σ).2
  | enter {σ : Store} {host : Host} {s : Session} (hσ : Reachable σ) (hhost : host.Lawful σ)
    (limit : Nat) (hs : σ.Has s.scope) (text : String) :
    Reachable (s.enter host limit text σ).2.2

variable {σ : Store} {host : Host} {s : Scope}

theorem WellFormed.runIn (hσ : σ.WellFormed) (hhost : host.Lawful σ) (limit : Nat) (p : Program)
    (hs : σ.Has s) : (p.runIn host limit s σ).2.WellFormed :=
  (Eval.Performs.safe (I := host.interpreter limit) (.runItems hs p.body.items)
    (hhost.tame limit) hσ).wellFormed

theorem WellFormed.run (hσ : σ.WellFormed) (hhost : host.Lawful σ) (limit : Nat) {p : Program}
    (hp : p.context.Made σ.Knows) : (p.run host limit σ).2.WellFormed := by
  obtain ⟨hgrows, hwf⟩ := (Step.root hp).safe (hhost.tame limit) hσ
  have hroot : ((p.context.newScope σ).2).Has (p.context.newScope σ).1 := σ.has_addFrame _
  exact hwf.runIn (fun id I c τ hτ => hhost id I c τ (hgrows.trans hτ)) limit p hroot

theorem Reachable.invariant (h : σ.Reachable) : σ.WellFormed := by
  induction h with
  | empty => exact .empty
  | operate _ hhost h ih => exact (h.safe (hhost.tame _) ih).2
  | run _ hhost limit hp ih => exact ih.run hhost limit hp
  | runIn _ hhost limit p hs ih => exact ih.runIn hhost limit p hs
  | @call σ host f caller _ hhost limit hf hcaller args ih =>
    exact (Eval.Performs.safe (I := host.interpreter limit) (.call hf hcaller args)
      (hhost.tame limit) ih).wellFormed
  | @enter σ host s _ hhost limit hs text ih =>
    rw [Session.enter]
    split
    · exact ih
    · rename_i p _
      exact ih.runIn hhost limit p hs

/-- In a reachable store all that a frame leads to exists, parents are older than their children and
names are bound once. From every scope the loops outwards end, and a child lies one deeper. -/
theorem reachable_wellFormed (h : σ.Reachable) :
    (∀ t f, σ.frame? t = some f →
      (∀ p, f.outer.parent? = some p → p.index < t.index ∧ σ.Has p) ∧
      (f.outer.table?.isSome ↔ f.outer.parent? = none) ∧
      f.bindings.names.Nodup ∧
      ∀ i, .function i ∈ f.bindings.values → ∃ g, σ.function? i = some g ∧ σ.Has g.captured) ∧
    ∀ s, σ.Has s →
      (∃ r f, (σ.chain s).getLast? = some r ∧ σ.frame? r = some f ∧ f.outer.parent? = none ∧
        Loop σ.rootBody s r) ∧
      (σ.addChild s).2.depth (σ.addChild s).1 = σ.depth s + 1 ∧
      Loop σ.depthBody (σ.parent? s, 0) (σ.depth s) ∧
      (∀ name, Loop (σ.lookupBody name) s (σ.lookup s name)) ∧
      ∀ name v, Loop (σ.assignBody name v) s (σ.assign? s name v) := by
  have hσ := h.invariant
  constructor
  · intro t f hf
    refine ⟨?_, f.outer.isSome_table?_iff, hσ.names hf, fun i hi => hσ.exists_function hf hi⟩
    intro p hp
    have ho := Outer.eq_child_of_parent? hp
    exact ⟨hσ.parent hf ho, hσ.has_parent hf ho⟩
  · intro s hs
    obtain ⟨r, f, hloop, hlast, hf, ho⟩ := hσ.loop_root hs
    refine ⟨⟨r, f, hlast, hf, ?_, hloop⟩, hσ.depth_addChild hs, hσ.loop_depth hs 0,
      hσ.loop_lookup hs, hσ.loop_assign hs⟩
    rw [ho, Outer.parent?]

/-- A session with one keyword of the embedding program, after an entry that fails: its function lies
in the root, was made in a scope inside the root, and was called. -/
def failed : Except Failure Value × Session × Store :=
  let c := Context.ofKeywords ((Keywords.builtins 0).insert "inside" (.host 0 "inside"))
  let start := Session.start c .empty
  start.1.enter (.ofTools #[.evalInChild 0]) 9 "var(@f, inside(function({ f }))) f(missing)" start.2

theorem reachable_wellFormed_failed :
    failed.1.toBool = false ∧ (∃ g, failed.2.2.function? 0 = some g ∧ failed.2.2.Has g.captured) ∧
      (failed.2.2.addChild ⟨2⟩).2.depth (failed.2.2.addChild ⟨2⟩).1 = failed.2.2.depth ⟨2⟩ + 1 := by
  have hlawful : ∀ σ, (Host.ofTools #[.evalInChild 0]).Lawful σ := by
    intro σ
    apply Host.lawful_ofTools
    simp only [Array.mem_singleton, forall_eq, Tool.HoldsKnown]
  have hroot : ∀ keywords, Step (Host.absent.interpreter 0) .empty
      ((Context.ofKeywords keywords).newScope .empty).2 := fun keywords => .root (.ofKeywords keywords)
  have hreachable : failed.2.2.Reachable :=
    .enter (.operate .empty (Host.lawful_absent _) (hroot _)) (hlawful _) 9 (by decide) _
  have hfunction : (failed.2.2.frame? ⟨0⟩).any (Value.function 0 ∈ ·.bindings.values) = true := by
    decide +kernel
  obtain ⟨f, hf, hheld⟩ := (Option.any_eq_true _ _).mp hfunction
  obtain ⟨hframes, hscopes⟩ := reachable_wellFormed hreachable
  obtain ⟨-, -, -, hcaptured⟩ := hframes _ f hf
  obtain ⟨-, hdepth, -⟩ := hscopes ⟨2⟩ (by decide +kernel)
  exact ⟨by decide +kernel, hcaptured 0 (of_decide_eq_true hheld), hdepth⟩

end Store

end Fexpr
