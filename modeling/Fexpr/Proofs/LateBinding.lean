import Mathlib.Order.Defs.PartialOrder
import Fexpr.Program
import Fexpr.Proofs.Covering

/-!
# Keywords bound early and late

A callee that names a keyword is bound to it when a tree is lowered. If the callee is written as a
reference instead, the keyword is looked up each time the call is run. This makes no difference to a
program that binds no name of a keyword.
-/

namespace Fexpr

namespace Expr

def asReference : Expr → Expr
  | lookup p n => .reference p n
  | e => e

mutual

/-- The tree with a reference in place of every callee that is a bare name. -/
def lateBound : Expr → Expr
  | literal p l => .literal p l
  | lookup p n => .lookup p n
  | reference p n => .reference p n
  | invocation p callee args => .invocation p (lateBound callee).asReference (lateBoundAll args)
  | block p items => .block p (lateBoundAll items)

def lateBoundAll : List Expr → List Expr
  | [] => []
  | e :: es => lateBound e :: lateBoundAll es

end

mutual

def references : Expr → List String
  | literal _ _ | lookup _ _ => []
  | reference _ n => [n]
  | invocation _ callee args =>
    (if callee.isCallable then [] else references callee) ++ referencesAll args
  | block _ items => referencesAll items

def referencesAll : List Expr → List String
  | [] => []
  | e :: es => references e ++ referencesAll es

end

variable {kw : Keywords}

theorem span_lateBound (e : Expr) : e.lateBound.span = e.span := by
  cases e <;> rfl

theorem topLevel_lateBound (e : Expr) : e.lateBound.topLevel = lateBoundAll e.topLevel := by
  cases e <;> simp [lateBound, lateBoundAll, topLevel]

theorem referencesAll_topLevel (e : Expr) : referencesAll e.topLevel = e.references := by
  cases e <;> simp [references, referencesAll, topLevel]

end Expr

inductive FailAlike {ε α β : Type} : Except ε α → Except ε β → Prop where
  | error (e : ε) : FailAlike (.error e) (.error e)
  | ok (a : α) (b : β) : FailAlike (.ok a) (.ok b)

theorem FailAlike.bind {ε α β γ δ : Type} {x : Except ε α} {y : Except ε β} {f : α → Except ε γ}
    {g : β → Except ε δ} (hxy : FailAlike x y) (hfg : ∀ a b, FailAlike (f a) (g b)) :
    FailAlike (x >>= f) (y >>= g) := by
  cases hxy with
  | error e => exact .error e
  | ok a b => exact hfg a b

namespace Expr

variable {kw : Keywords}

theorem failAlike_callee (e : Expr) :
    FailAlike (e.callee kw) (e.lateBound.asReference.callee kw) := by
  cases e with
  | lookup p n =>
    rw [callee]
    split <;> exact .ok _ _
  | reference p n => exact .ok _ _
  | literal p l => exact .error _
  | invocation p e args => exact .error _
  | block p items => exact .error _

mutual

theorem failAlike_lower : ∀ e : Expr, FailAlike (e.lower kw) (e.lateBound.lower kw)
  | .literal _ _ | .lookup _ _ | .reference _ _ => .ok _ _
  | .invocation p e args => by
    rw [lateBound, lower, lower]
    exact .bind (failAlike_callee e) fun _ _ => .bind (failAlike_lowerAll args) fun _ _ => .ok _ _
  | .block p items => by
    rw [lateBound, lower, lower]
    exact .bind (failAlike_lowerAll items) fun _ _ => .ok _ _

theorem failAlike_lowerAll : ∀ es : List Expr,
    FailAlike (lowerAll kw es) (lowerAll kw (lateBoundAll es))
  | [] => .ok _ _
  | e :: es => by
    rw [lateBoundAll, lowerAll, lowerAll]
    exact .bind (failAlike_lower e) fun _ _ => .bind (failAlike_lowerAll es) fun _ _ => .ok _ _

end

def BoundLate (kw : Keywords) (c c' : Code) : Prop :=
  ∃ e : Expr, e.lower kw = .ok c ∧ e.lateBound.lower kw = .ok c' ∧
    ∀ n ∈ e.references, kw.find? n = none

theorem forall₂_boundLate : ∀ {es : List Expr} {cs cs' : List Code}, lowerAll kw es = .ok cs →
    lowerAll kw (lateBoundAll es) = .ok cs' → (∀ n ∈ referencesAll es, kw.find? n = none) →
    List.Forall₂ (BoundLate kw) cs cs'
  | [], _, _, h, h', _ => by
    cases h
    cases h'
    exact .nil
  | e :: es, _, _, h, h', hrefs => by
    obtain ⟨c, cs, hc, hcs, rfl⟩ := List.forall₂_cons_left_iff.mp (lowerAll_eq_ok_iff.mp h)
    obtain ⟨c', cs', hc', hcs', rfl⟩ := List.forall₂_cons_left_iff.mp (lowerAll_eq_ok_iff.mp h')
    rw [referencesAll, List.forall_mem_append] at hrefs
    exact .cons ⟨e, hc, hc', hrefs.1⟩ (forall₂_boundLate (lowerAll_eq_ok_iff.mpr hcs)
      (lowerAll_eq_ok_iff.mpr hcs') hrefs.2)

theorem BoundLate.heads {V : View} {φ : Nat → Nat} {W : Type} {c c' : Code}
    (h : BoundLate kw c c') :
    (V.matching φ W).Heads (fun n n' => n = n' ∧ kw.find? n = none)
      (fun k n => kw.find? n = some k) (BoundLate kw) c c' := by
  obtain ⟨e, h, h', hrefs⟩ := h
  cases e with
  | literal p l =>
    cases h
    cases h'
    exact .literal rfl l
  | lookup p n =>
    cases h
    cases h'
    exact .lookup rfl rfl
  | reference p n =>
    cases h
    cases h'
    exact .reference rfl ⟨rfl, hrefs n List.mem_cons_self⟩
  | block p items =>
    obtain ⟨cs, hcs, rfl⟩ := lower_block_eq_ok_iff.mp h
    obtain ⟨cs', hcs', rfl⟩ := lower_block_eq_ok_iff.mp h'
    exact .block rfl (forall₂_boundLate hcs hcs' hrefs)
  | invocation p e args =>
    obtain ⟨callee, cs, hcallee, hcs, rfl⟩ := lower_invocation_eq_ok_iff.mp h
    obtain ⟨callee', cs', hcallee', hcs', rfl⟩ := lower_invocation_eq_ok_iff.mp h'
    have hargs : List.Forall₂ (BoundLate kw) cs cs' := forall₂_boundLate hcs hcs' fun n hn =>
      hrefs n (List.mem_append_right _ hn)
    cases e with
    | lookup q n =>
      cases hcallee'
      rw [Expr.callee] at hcallee
      split at hcallee
      · cases hcallee
        exact .late rfl ‹_› hargs
      · cases hcallee
        exact .name rfl rfl hargs
    | reference q n =>
      cases hcallee
      cases hcallee'
      exact .name rfl rfl hargs
    | literal | invocation | block => cases hcallee

end Expr

def Function.withoutCode (f : Function) : Function := { f with body := ⟨[], f.body.span⟩ }

def Store.withoutCode (σ : Store) : Store :=
  { σ with functions := σ.functions.map Function.withoutCode }

/-- Frames made for the code of a program, and frames made for functions from elsewhere. -/
inductive Origin where
  | own
  | foreign

structure Marks where
  origins : List Origin

namespace Marks

instance : Preorder Marks where
  le w w' := w.origins <+: w'.origins
  le_refl _ := List.prefix_rfl
  le_trans _ _ _ := List.IsPrefix.trans

def origin? (w : Marks) (s : Scope) : Option Origin := w.origins[s.index]?

theorem lt_of_origin? {w : Marks} {s : Scope} {z : Origin} (h : w.origin? s = some z) :
    s.index < w.origins.length :=
  (List.getElem?_eq_some_iff.mp h).1

theorem origin?_mono {w w' : Marks} {s : Scope} {z : Origin} (hle : w ≤ w')
    (hs : w.origin? s = some z) : w'.origin? s = some z := by
  obtain ⟨more, hmore⟩ := hle
  rwa [origin?, ← hmore, List.getElem?_append_left (lt_of_origin? hs)]

def push (w : Marks) (z : Origin) : Marks := ⟨w.origins ++ [z]⟩

theorem le_push (w : Marks) (z : Origin) : w ≤ w.push z := List.prefix_append _ _

theorem origin?_push {w : Marks} {s : Scope} (h : s.index < w.origins.length) (z : Origin) :
    (w.push z).origin? s = w.origin? s :=
  List.getElem?_append_left h

end Marks

/-- A context and a store in which a new root scope gets at built-in keywords only, and in which no
value has the name of a keyword. -/
structure Unshadowed where
  context : Context
  before : Store
  builtins : (context.newScope before).2.KnowsOnlyBuiltins (context.newScope before).1
  values : ∀ n ∈ context.values.names, context.keywords.find? n = none

namespace Unshadowed

variable (U : Unshadowed)

def keywords : Keywords := U.context.keywords

def root : Scope := (U.context.newScope U.before).1

def store : Store := (U.context.newScope U.before).2

def view : View := U.store.viewFrom U.root

def matching : Matching Marks := U.view.matching id Marks

def codes : Origin → Code → Code → Prop
  | .own => Expr.BoundLate U.keywords
  | .foreign => Code.Alike

def binds : Origin → String → String → Prop
  | .own => fun n n' => n = n' ∧ U.keywords.find? n = none
  | .foreign => Eq

def late : Origin → Keyword → String → Prop
  | .own => fun k n => U.keywords.find? n = some k
  | .foreign => fun _ _ => False

/-- The code of a function is of one origin. If it is the program's own, the function was made in a
frame of the program's own. -/
structure Functions (w : Marks) (z : Origin) (f f' : Function) : Prop where
  params : List.Forall₂ (U.binds z) f.params f'.params
  body : U.matching.BodiesBy (U.codes z) f.body f'.body
  captured : f'.captured = f.captured
  origin : z = .own → w.origin? f.captured = some .own

/-- A frame of the program's own binds no name of a keyword and lies in another one, up to the
root. -/
structure Clean (w : Marks) (t : Scope) (f : Frame) : Prop where
  names : ∀ n ∈ f.bindings.names, U.keywords.find? n = none
  outer : f.outer = .root U.keywords ∨
    ∃ p, f.outer = .child p ∧ p.index < t.index ∧ w.origin? p = some .own

/-- What holds of both stores all along: they differ in the code of functions only, and frames of the
program's own are clean. -/
structure Stores (w : Marks) (σ τ : Store) : Prop where
  same : τ.withoutCode = σ.withoutCode
  marked : σ.frames.size = w.origins.length
  frames_grown : U.store.frames.size ≤ σ.frames.size
  functions_grown : U.store.functions.size ≤ σ.functions.size
  closed : U.view.Closed σ
  clean : ∀ {t : Scope} {f : Frame}, w.origin? t = some .own → σ.frame? t = some f → U.Clean w t f
  function : ∀ {i : Nat} {f : Function}, U.view.function i → σ.function? i = some f →
    ∃ f' z, τ.function? i = some f' ∧ U.Functions w z f f'

def Runs (w : Marks) (z : Origin) (s s' : Scope) : Prop :=
  s' = s ∧ U.view.scope s ∧ w.origin? s = some z

variable {U} {w w' : Marks} {z : Origin} {σ τ : Store} {s : Scope} {name : String} {v : Value}

theorem eq_of_binds {n n' : String} (h : U.binds z n n') : n = n' := by
  cases z with
  | own => exact h.1
  | foreign => exact h

theorem Functions.mono {f f' : Function} (hle : w ≤ w') (h : U.Functions w z f f') :
    U.Functions w' z f f' :=
  ⟨h.params, h.body, h.captured, fun hz => Marks.origin?_mono hle (h.origin hz)⟩

theorem Functions.withoutCode {f f' : Function} (h : U.Functions w z f f') :
    f'.withoutCode = f.withoutCode := by
  obtain ⟨params, ⟨items, p⟩, captured⟩ := f
  obtain ⟨params', ⟨items', p'⟩, captured'⟩ := f'
  obtain rfl : params = params' :=
    List.forall₂_eq_eq_eq ▸ h.params.imp fun _ _ => eq_of_binds
  obtain rfl : p = p' := h.body.span
  obtain rfl : captured' = captured := h.captured
  rfl

theorem Clean.mono {t : Scope} {f : Frame} (hle : w ≤ w') (h : U.Clean w t f) : U.Clean w' t f := by
  refine ⟨h.names, h.outer.imp_right ?_⟩
  rintro ⟨p, ho, hlt, hp⟩
  exact ⟨p, ho, hlt, Marks.origin?_mono hle hp⟩

namespace Stores

theorem frames (hστ : U.Stores w σ τ) : τ.frames = σ.frames := by
  change τ.withoutCode.frames = σ.withoutCode.frames
  rw [hστ.same]

theorem functions_size (hστ : U.Stores w σ τ) : τ.functions.size = σ.functions.size := by
  have h := congrArg (fun σ : Store => σ.functions.size) hστ.same
  simpa [Store.withoutCode] using h

theorem lookup_keyword {s : Scope} {k : Keyword} (hστ : U.Stores w σ τ)
    (hs : w.origin? s = some .own) (hk : U.keywords.find? name = some k) :
    σ.lookup s name = some (.keyword k) := by
  have hlt : s.index < σ.frames.size := by
    rw [hστ.marked]
    exact Marks.lt_of_origin? hs
  have hf : σ.frame? s = some σ.frames[s.index] := Array.getElem?_eq_getElem hlt
  obtain ⟨hnames, houter⟩ := hστ.clean hs hf
  have hfind : σ.frames[s.index].bindings.find? name = none := by
    cases hv : σ.frames[s.index].bindings.find? name with
    | none => rfl
    | some v =>
      have hnone := hnames name (Bindings.mem_names_of_find? hv)
      rw [hk] at hnone
      cases hnone
  rw [Store.lookup_eq, hf]
  rcases houter with ho | ⟨p, ho, hlt, hp⟩
  · simp only [hfind, ho, hk, Option.map_some]
  · simp only [hfind, ho, if_pos hlt]
    exact lookup_keyword hστ hp hk
termination_by s.index

theorem declare (hστ : U.Stores w σ τ) (hv : U.view.Holds v)
    (hname : w.origin? s = some .own → U.keywords.find? name = none) :
    U.Stores w (σ.declare s name v) (τ.declare s name v) := by
  refine ⟨congrArg (Store.declare · s name v) hστ.same, ?_, ?_, hστ.functions_grown,
    hστ.closed.declare hv, ?_, hστ.function⟩
  · simpa [Store.declare] using hστ.marked
  · simpa [Store.declare] using hστ.frames_grown
  · intro t g ht hg
    obtain ⟨f, hf, houter, hbindings⟩ := Store.frame?_declare_eq_some hg
    obtain ⟨hnames, hparent⟩ := hστ.clean ht hf
    refine ⟨?_, houter ▸ hparent⟩
    rcases hbindings with hbindings | ⟨rfl, hbindings⟩
    · rwa [hbindings]
    · intro n hn
      rw [hbindings, Bindings.names_insert] at hn
      split at hn
      · exact hnames n hn
      · rcases List.mem_append.mp hn with hn | hn
        · exact hnames n hn
        · rw [List.mem_singleton.mp hn]
          exact hname ht

theorem assign (hστ : U.Stores w σ τ) (hv : U.view.Holds v) :
    Option.Rel (U.Stores w) (σ.assign? s name v) (τ.assign? s name v) := by
  rw [Store.assign?, Store.assign?, Store.binder?_of_frames hστ.frames]
  cases ht : σ.binder? s name with
  | none => exact .none
  | some t =>
    refine .some (hστ.declare hv fun hown => ?_)
    have hmem := Store.mem_names_of_binder? ht
    cases hf : σ.frame? t with
    | none =>
      rw [Store.bindings, hf] at hmem
      cases hmem
    | some f =>
      rw [Store.bindings_of_some hf] at hmem
      exact (hστ.clean hown hf).names name hmem

theorem addChild (hστ : U.Stores w σ τ) (hs : U.view.scope s)
    (hz : z = .own → w.origin? s = some .own) :
    ∃ w', w ≤ w' ∧ U.Runs w' z (σ.addChild s).1 (τ.addChild s).1 ∧
      U.Stores w' (σ.addChild s).2 (τ.addChild s).2 := by
  have hle := w.le_push z
  have hnew : (w.push z).origin? (σ.addChild s).1 = some z := by
    rw [Store.addChild, Store.addFrame, Marks.origin?, Marks.push, hστ.marked,
      List.getElem?_concat_length]
  have hscope : (τ.addChild s).1 = (σ.addChild s).1 := by
    rw [Store.addChild, Store.addChild, Store.addFrame, Store.addFrame, hστ.frames]
  refine ⟨w.push z, hle, ⟨hscope, .inr hστ.frames_grown, hnew⟩, ?_, ?_, ?_, hστ.functions_grown,
    hστ.closed.addChild hs, ?_, ?_⟩
  · exact congrArg (fun σ : Store => (σ.addChild s).2) hστ.same
  · simp [Store.addChild, Store.addFrame, Marks.push, hστ.marked]
  · have := hστ.frames_grown
    simp only [Store.addChild, Store.addFrame, Array.size_push]
    omega
  · intro t g ht hg
    rcases Store.frame?_addFrame_eq_some hg with hg | ⟨rfl, rfl⟩
    · have hlt := Store.lt_size_of_frame? hg
      rw [Marks.origin?_push (hστ.marked ▸ hlt)] at ht
      exact (hστ.clean ht hg).mono hle
    · rw [Store.addChild] at hnew
      obtain rfl : z = .own := Option.some.inj (hnew.symm.trans ht)
      have hlt := Marks.lt_of_origin? (hz rfl)
      refine ⟨?_, .inr ⟨s, rfl, ?_, Marks.origin?_mono hle (hz rfl)⟩⟩
      · intro n hn
        cases hn
      · rwa [← hστ.marked] at hlt
  · intro i f hi hf
    obtain ⟨f', z', hf', hff'⟩ := hστ.function hi hf
    exact ⟨f', z', hf', hff'.mono hle⟩

theorem addFunction {f f' : Function} (hστ : U.Stores w σ τ) (hs : U.view.scope f.captured)
    (hff' : U.Functions w z f f') : U.Stores w (σ.addFunction f).2 (τ.addFunction f').2 := by
  refine ⟨?_, hστ.marked, hστ.frames_grown, ?_, hστ.closed.addFunction hs, hστ.clean, ?_⟩
  · have hpush : ∀ (σ : Store) (f : Function),
        (σ.addFunction f).2.withoutCode = (σ.withoutCode.addFunction f.withoutCode).2 := by
      intro σ f
      simp [Store.addFunction, Store.withoutCode]
    rw [hpush, hpush, hστ.same, hff'.withoutCode]
  · have := hστ.functions_grown
    simp only [Store.addFunction, Array.size_push]
    omega
  · intro i g hi hg
    rw [Store.function?_addFunction] at hg ⊢
    rw [hστ.functions_size]
    split at hg
    · cases hg
      exact ⟨f', z, if_pos ‹_›, hff'⟩
    · rw [if_neg ‹_›]
      exact hστ.function hi hg

end Stores

theorem isBuiltin_of_find? {k : Keyword} (h : U.keywords.find? name = some k) : k.isBuiltin := by
  have hframe : U.store.frame? U.root = some ⟨U.context.values, .root U.context.keywords⟩ := by
    rw [store, root, Context.newScope, Store.addRoot, Store.frame?_addFrame]
    exact if_pos rfl
  apply U.builtins.frames (.chain (Store.mem_chain_self hframe)) hframe
  exact List.mem_append_left _ (Bindings.mem_values_of_find? h)

theorem values_iff {v' : Value} : U.matching.Values w v v' ↔ v' = v ∧ U.view.Holds v := by
  rw [matching, View.values_iff, Value.renumber_id]

variable (U) in
def zoning : Zoning U.matching Origin where
  store := U.Stores
  code := U.codes
  binds := U.binds
  late := U.late
  runs := U.Runs
  heads := by
    rintro (_ | _) c c' h
    · exact Expr.BoundLate.heads h
    · exact View.heads_alike h
  name_of_binds := eq_of_binds
  runs_mono hle hs := ⟨hs.1, hs.2.1, Marks.origin?_mono hle hs.2.2⟩
  function_mono _ hi := hi
  keyword_builtin := View.keyword_builtin
  keyword_inj := View.keyword_inj
  function_inj := by
    rintro w i _ j _ ⟨rfl, -⟩ ⟨rfl, -⟩
    rfl
  lookup := by
    rintro w z σ τ _ s n _ hστ ⟨rfl, hs, -⟩ rfl
    rw [Store.lookup_of_frames hστ.frames]
    cases hv : σ.lookup s n with
    | none => exact .none
    | some v => exact .some (values_iff.mpr ⟨rfl, hστ.closed.lookup hs hv⟩)
  lookup_late := by
    rintro w (_ | _) σ τ _ s k n hστ ⟨rfl, -, hown⟩ hk
    · refine ⟨k, ⟨rfl, isBuiltin_of_find? hk⟩, ?_⟩
      rw [Store.lookup_of_frames hστ.frames, hστ.lookup_keyword hown hk]
    · exact hk.elim
  declare := by
    rintro w z σ τ _ s n n' v _ hστ ⟨rfl, -, hz⟩ hn hv
    obtain ⟨rfl, hheld⟩ := values_iff.mp hv
    obtain rfl : n = n' := eq_of_binds hn
    refine hστ.declare hheld fun hown => ?_
    obtain rfl : z = .own := Option.some.inj (hz.symm.trans hown)
    exact hn.2
  assign := by
    rintro w z σ τ _ s n n' v _ hστ ⟨rfl, -⟩ hn hv
    obtain ⟨rfl, hheld⟩ := values_iff.mp hv
    obtain rfl : n = n' := eq_of_binds hn
    exact hστ.assign hheld
  addChild := by
    rintro w z σ τ _ s hστ ⟨rfl, hs, hz⟩
    exact hστ.addChild hs fun hown => hown ▸ hz
  addFunction := by
    rintro w z σ τ _ s params params' body body' hστ ⟨rfl, hs, hz⟩ hparams hbody
    have hff' : U.Functions w z ⟨params, body, s⟩ ⟨params', body', s⟩ :=
      ⟨hparams, hbody, rfl, fun hown => hown ▸ hz⟩
    refine ⟨w, le_refl w, ?_, hστ.addFunction hs hff'⟩
    refine values_iff.mpr ⟨?_, .inr hστ.functions_grown⟩
    rw [Store.addFunction, Store.addFunction, hστ.functions_size]
  enter := by
    rintro w σ τ _ i hστ ⟨rfl, hi⟩
    cases hf : σ.function? i with
    | none =>
      have hge : τ.functions.size ≤ i := by
        rw [hστ.functions_size]
        exact Array.getElem?_eq_none_iff.mp hf
      have hf' : τ.function? i = none := Array.getElem?_eq_none hge
      rw [hf']
      exact .none
    | some f =>
      obtain ⟨f', z, hf', hff'⟩ := hστ.function hi hf
      obtain ⟨w', hle, hnew, hστ'⟩ := hστ.addChild (hστ.closed.captured hi hf) hff'.origin
      rw [hf']
      refine .some ⟨z, w', hle, hff'.params, hff'.body.items, ?_, ?_⟩
      · rwa [hff'.captured]
      · rwa [hff'.captured]

theorem stores_start : U.Stores ⟨List.replicate U.before.frames.size .foreign ++ [.own]⟩ U.store
    U.store := by
  refine ⟨rfl, ?_, Nat.le_refl _, Nat.le_refl _, Store.closed_viewFrom U.builtins, ?_, ?_⟩
  · simp [store, Context.newScope, Store.addRoot, Store.addFrame]
  · intro t f ht hf
    rcases Store.frame?_addFrame_eq_some hf with hf | ⟨rfl, rfl⟩
    · have hlt := Store.lt_size_of_frame? hf
      rw [Marks.origin?, List.getElem?_append_left (by simpa using hlt),
        List.getElem?_replicate] at ht
      split at ht <;> cases ht
    · exact ⟨U.values, .inl rfl⟩
  · intro i f hi hf
    refine ⟨f, .foreign, hf, ?_, ⟨?_, rfl⟩, rfl, ?_⟩
    · exact List.forall₂_same.mpr fun _ _ => rfl
    · exact Code.forall₂_alike.mpr ⟨rfl, U.builtins.code hi hf⟩
    · intro hown
      cases hown

theorem runs_start :
    U.Runs ⟨List.replicate U.before.frames.size .foreign ++ [.own]⟩ .own U.root U.root := by
  refine ⟨rfl, Store.viewFrom_self, ?_⟩
  simp [root, Context.newScope, Store.addRoot, Store.addFrame, Marks.origin?]

theorem run_eq {cs cs' : List Code} (hcs : List.Forall₂ (Expr.BoundLate U.keywords) cs cs')
    (host host' : Host) (limit : Nat) :
    (runItems (Code.eval host' limit) U.root cs' U.store).1 =
      (runItems (Code.eval host limit) U.root cs U.store).1 ∧
    (runItems (Code.eval host' limit) U.root cs' U.store).2.withoutCode =
      (runItems (Code.eval host limit) U.root cs U.store).2.withoutCode := by
  have hev := U.zoning.evaluators_eval host host' limit
  obtain ⟨w', -, hστ, ho⟩ := hev.runItems (z := Origin.own) runs_start hcs _ _ stores_start
  refine ⟨?_, hστ.same⟩
  have houtcome := View.outcome_eq ho
  generalize (runItems (Code.eval host limit) U.root cs U.store).1 = o at houtcome ⊢
  rw [houtcome]
  cases o with
  | value v => cases v <;> rfl
  | error e => rfl
  | tooDeep => rfl

end Unshadowed

/-- A tree and the same tree with late-bound callees fail to compile in the same way, or they do the
same when they are run in a new root scope: they end in the same value or in the same error, with the
same frames and the same functions, up to the code inside these. No value of the context and no
reference in the tree may have the name of a keyword. -/
theorem Expr.run_lateBound (e : Expr) (c : Context) (σ : Store)
    (hbuiltins : (c.newScope σ).2.KnowsOnlyBuiltins (c.newScope σ).1)
    (hvalues : ∀ n ∈ c.values.names, c.keywords.find? n = none)
    (hreferences : ∀ n ∈ e.references, c.keywords.find? n = none) :
    (∃ err, e.lowerProgram c.keywords = .error err ∧
      e.lateBound.lowerProgram c.keywords = .error err) ∨
    ∃ early late, e.lowerProgram c.keywords = .ok early ∧
      e.lateBound.lowerProgram c.keywords = .ok late ∧ ∀ (source : Source) (host : Host) (limit : Nat),
        (Program.run ⟨source, c, late⟩ host limit σ).1 =
          (Program.run ⟨source, c, early⟩ host limit σ).1 ∧
        (Program.run ⟨source, c, late⟩ host limit σ).2.withoutCode =
          (Program.run ⟨source, c, early⟩ host limit σ).2.withoutCode := by
  have hfail : FailAlike (lowerAll c.keywords e.topLevel)
      (lowerAll c.keywords (lateBoundAll e.topLevel)) := failAlike_lowerAll e.topLevel
  rw [lowerProgram_eq, lowerProgram_eq, topLevel_lateBound, span_lateBound]
  generalize hearly : lowerAll c.keywords e.topLevel = early at hfail
  generalize hlate : lowerAll c.keywords (lateBoundAll e.topLevel) = late at hfail
  cases hfail with
  | error err => exact .inl ⟨err, rfl, rfl⟩
  | ok cs cs' =>
    right
    refine ⟨⟨cs, e.span⟩, ⟨cs', e.span⟩, rfl, rfl, ?_⟩
    intro source host limit
    have hcs := forall₂_boundLate hearly hlate (by rwa [referencesAll_topLevel])
    exact Unshadowed.run_eq (U := ⟨c, σ, hbuiltins, hvalues⟩) hcs host host limit

theorem Expr.run_lateBound_function :
    ∃ e early late, parse "var(@f, function({ if(x, 1, 2) }, @x)) f(true)" = .ok e ∧
      e.lowerProgram (.builtins 0) = .ok early ∧
      e.lateBound.lowerProgram (.builtins 0) = .ok late ∧
      (Program.run ⟨⟨"early", ""⟩, .builtin 0, late⟩ Host.absent 9 .empty).1 =
        (Program.run ⟨⟨"early", ""⟩, .builtin 0, early⟩ Host.absent 9 .empty).1 := by
  have hok : (parse "var(@f, function({ if(x, 1, 2) }, @x)) f(true)").map (fun e =>
      (decide (∀ n ∈ e.references, (Keywords.builtins 0).find? n = none),
        (e.lowerProgram (.builtins 0)).isOk)) = .ok (true, true) := by decide +kernel
  obtain ⟨e, hparse, hok⟩ := Except.map_eq_ok_iff.mp hok
  obtain ⟨hreferences, hok⟩ := Prod.mk.inj hok
  have hbuiltins := Store.knowsOnlyBuiltins_of_forall
    (σ := ((Context.builtin 0).newScope .empty).2) (by decide) (by decide) ⟨0⟩
  rcases Expr.run_lateBound e (.builtin 0) .empty hbuiltins (by decide)
    (of_decide_eq_true hreferences) with ⟨err, herr, -⟩ | ⟨early, late, hearly, hlate, hrun⟩
  · change e.lowerProgram (.builtins 0) = .error err at herr
    rw [herr] at hok
    cases hok
  · exact ⟨e, early, late, hparse, hearly, hlate, (hrun _ _ _).1⟩

end Fexpr
