import Mathlib.Data.Nat.Basic
import Mathlib.Order.Basic
import Fexpr.Proofs.Relocation

/-!
# Calls by value

A call makes its frame first and binds parameters as it goes from argument to argument. No argument
can see this, so it is the same as to evaluate all arguments first and then to make the frame with all
of its bindings. Only the place of the frame in the store is another.
-/

namespace Fexpr

namespace Function

/-- Parameters with their values, in order. Missing values are null and surplus values dropped. -/
def writes (params : List String) (vs : List Value) : List (String × Value) :=
  params.mapIdx fun i param => (param, vs.getD i .null)

/-- Evaluates all arguments, then makes a frame with all parameters, then runs the body there. -/
def callByValue (ev : Evaluator) (f : Function) (caller : Scope) (args : List Code) :
    Eval Value := do
  let vs ← args.mapM (ev · caller)
  let frame ← Eval.update (·.addFrame ⟨.ofWrites (writes f.params vs), .child f.captured⟩)
  runItems ev frame f.body.items

theorem writes_nil (vs : List Value) : writes [] vs = [] := rfl

theorem writes_cons_nil (param : String) (params : List String) :
    writes (param :: params) [] = (param, .null) :: writes params [] := by
  rw [writes, List.mapIdx_cons]
  rfl

theorem writes_cons_cons (param : String) (params : List String) (v : Value) (vs : List Value) :
    writes (param :: params) (v :: vs) = (param, v) :: writes params vs := by
  rw [writes, List.mapIdx_cons]
  rfl

end Function

namespace Scope

def without (k : Nat) (s : Scope) : Scope := if s.index ≤ k then s else ⟨s.index - 1⟩

/-- Places in a store where one frame was made later than it was. -/
def delayed (k j : Nat) (s : Scope) : Scope :=
  if s.index = k then ⟨j⟩ else if s.index ≤ j then s.without k else s

variable {k j : Nat} {s t : Scope}

theorem ext_index (h : s.index = t.index) : s = t := congrArg mk h

theorem without_of_le (h : s.index ≤ k) : s.without k = s := if_pos h

theorem index_without (k : Nat) (s : Scope) :
    (s.without k).index = if s.index ≤ k then s.index else s.index - 1 := by
  rw [without]
  split <;> rfl

theorem without_inj (hs : s.index ≠ k) (ht : t.index ≠ k) (h : s.without k = t.without k) :
    s = t := by
  apply ext_index
  have h := congrArg index h
  rw [index_without, index_without] at h
  grind

theorem without_lt_without (hs : s.index ≠ k) (h : s.index < t.index) :
    (s.without k).index < (t.without k).index := by
  rw [index_without, index_without]
  grind

theorem index_without_lt (hs : s.index ≠ k) (hj : s.index ≤ j) (hk : k ≤ j) :
    (s.without k).index < j := by
  rw [index_without]
  split <;> omega

theorem delayed_self (k j : Nat) : delayed k j ⟨k⟩ = ⟨j⟩ := if_pos rfl

theorem delayed_of_le (hs : s.index ≠ k) (hj : s.index ≤ j) : s.delayed k j = s.without k := by
  rw [delayed, if_neg hs, if_pos hj]

theorem delayed_of_lt (hk : k ≤ j) (hs : j < s.index) : s.delayed k j = s := by
  rw [delayed, if_neg (by omega), if_neg (by omega)]

theorem delayed_inj (hk : k ≤ j) (h : s.delayed k j = t.delayed k j) : s = t := by
  apply ext_index
  have h := congrArg index h
  simp only [delayed, apply_ite index, index_without] at h
  grind

end Scope

namespace View

variable {V U : View} {P : Code → Prop} {σ : Store}

def or (V U : View) : View := ⟨fun t => V.scope t ∨ U.scope t, fun i => V.function i ∨ U.function i⟩

def without (V : View) (k : Nat) : View := ⟨fun t => V.scope t ∧ t.index ≠ k, V.function⟩

theorem Holds.imp {v : Value} (h : ∀ i, V.function i → U.function i) (hv : V.Holds v) :
    U.Holds v := by
  cases v with
  | function i => exact h i hv
  | keyword k => exact hv
  | null | number | string | boolean | host => trivial

theorem Frames.imp {t : Scope} {f : Frame} (hscope : ∀ s, V.scope s → U.scope s)
    (hfunction : ∀ i, V.function i → U.function i) (hf : V.Frames t f) : U.Frames t f :=
  ⟨fun v hv => (hf.values v hv).imp hfunction, fun p ho hlt => hscope p (hf.parent p ho hlt),
    hf.keywords⟩

theorem Covers.or (hV : V.Covers P σ) (hU : U.Covers P σ) : (V.or U).Covers P σ := by
  refine ⟨⟨?_, ?_⟩, ?_, fun ht => .inl (hV.scope ht), fun hi => .inl (hV.function hi)⟩
  · intro t f ht hf
    rcases ht with ht | ht
    · exact (hV.closed.frame ht hf).imp (fun _ => .inl) fun _ => .inl
    · exact (hU.closed.frame ht hf).imp (fun _ => .inr) fun _ => .inr
  · intro i f hi hf
    exact hi.imp (hV.closed.captured · hf) (hU.closed.captured · hf)
  · intro i f hi hf
    exact hi.elim (hV.code · hf) (hU.code · hf)

end View

structure Store.Forgotten (σ : Store) (s : Scope) : Prop where
  parent : ∀ {t p : Scope} {f : Frame}, σ.frame? t = some f → f.outer = .child p → p ≠ s
  captured : ∀ {i : Nat} {f : Function}, σ.function? i = some f → f.captured ≠ s

namespace Relocation

variable {R : Relocation} {own domain : Scope → Prop} {s : Scope} {σ τ : Store}
  {r r' : Outcome Value × Store}

theorem transfer_eq_move (hnumber : R.number = id) (f : Frame) : R.transfer f = f.move R.place := by
  have hbindings : f.bindings.map (Value.renumber id) = f.bindings :=
    Bindings.map_eq_self fun v _ => v.renumber_id
  rw [transfer, Frame.renumber, hnumber, hbindings]

theorem stores_of_moved (hnumber : R.number = id) (hmoved : σ.Moved domain R.place τ)
    (hdomain : ∀ {t : Scope}, R.view.scope t → domain t)
    (hcovers : R.view.Covers Code.OnlyBuiltins σ)
    (horder : ∀ {t p : Scope} {f : Frame}, R.view.scope t → σ.frame? t = some f →
      f.outer = .child p → (p.index < t.index ↔ (R.place p).index < (R.place t).index))
    (hnext : ∀ i, R.place ⟨σ.frames.size + i⟩ = ⟨τ.frames.size + i⟩) : R.Stores σ τ := by
  refine ⟨hcovers, ?_, ?_, horder, hnext, ?_⟩
  · intro t ht
    rw [funext (transfer_eq_move hnumber), hmoved.frame (hdomain ht)]
  · intro i _
    rw [hnumber, id, hmoved.function?]
  · intro i
    rw [hnumber, id, hmoved.functions_size]

theorem Ran.moved (hran : R.Ran own s σ τ r r') (hστ : R.Stores σ τ) (hnumber : R.number = id)
    (hmoved : σ.Moved domain R.place τ) (hdomain : ∀ {t : Scope}, R.view.scope t → domain t)
    (hinj : ∀ {t u : Scope}, domain t → domain u → R.place t = R.place u → t = u) :
    r.2.Moved domain R.place r'.2 := by
  refine ⟨?_, ?_, ?_⟩
  · intro t ht
    by_cases hview : R.view.scope t
    · rw [hran.stores.frame hview, funext (transfer_eq_move hnumber)]
    · obtain ⟨f, hf⟩ : ∃ f, σ.frame? t = some f :=
        Store.Has.frame? (Nat.lt_of_not_le fun h => hview (hστ.covers.scope h))
      have hplace : τ.frame? (R.place t) = some (f.move R.place) := by
        rw [hmoved.frame ht, hf, Option.map_some]
      have himage : ¬ R.Image (R.place t) := by
        rintro ⟨u, hu, heq⟩
        exact hview (hinj (hdomain hu) ht heq ▸ hu)
      rw [hran.left.frame hview hf, hran.right.frame himage hplace, Option.map_some]
  · apply Array.ext_getElem?
    intro i
    rw [Array.getElem?_map]
    change r'.2.function? i = (r.2.function? i).map (Function.move R.place)
    by_cases hlt : i < σ.functions.size
    · obtain ⟨f, hf⟩ : ∃ f, σ.function? i = some f := ⟨_, Array.getElem?_eq_getElem hlt⟩
      have hf' : τ.function? i = some (f.move R.place) := by
        rw [hmoved.function?, hf, Option.map_some]
      rw [hran.left.function hf, hran.right.function hf', Option.map_some]
    · have hfunction := hran.stores.function (hστ.covers.function (Nat.le_of_not_lt hlt))
      rwa [hnumber] at hfunction
  · rw [hran.right.journal, hran.left.journal, hmoved.journal]

theorem Ran.forgotten {u : Scope} (hran : R.Ran own s σ τ r r') (hστ : R.Stores σ τ)
    (hgrounded : r.2.Grounded) (hu : ¬ R.view.scope u) (hσ : σ.Forgotten u) :
    r.2.Forgotten u := by
  constructor
  · rintro t p g hg ho rfl
    by_cases hview : R.view.scope t
    · exact hu ((hran.stores.covers.closed.frame hview hg).parent p ho (hgrounded.parent hg ho))
    · obtain ⟨f, hf⟩ : ∃ f, σ.frame? t = some f :=
        Store.Has.frame? (Nat.lt_of_not_le fun h => hview (hστ.covers.scope h))
      cases (hran.left.frame hview hf).symm.trans hg
      exact hσ.parent hf ho rfl
  · rintro i g hg rfl
    by_cases hlt : i < σ.functions.size
    · obtain ⟨f, hf⟩ : ∃ f, σ.function? i = some f := ⟨_, Array.getElem?_eq_getElem hlt⟩
      cases (hran.left.function hf).symm.trans hg
      exact hσ.captured hf rfl
    · have hview := hστ.covers.function (Nat.le_of_not_lt hlt)
      exact hu (hran.stores.covers.closed.captured hview hg)

def beside (k : Nat) (V : View) : Relocation where
  view := V.without k
  place := Scope.without k
  number := id
  place_inj hs ht := Scope.without_inj hs.2 ht.2
  number_inj := number_inj_id (V.without k)

/-- Stores in the course of the arguments. The frame of the call lies in the first one only, and
nothing leads to it. -/
structure Beside (k : Nat) (V : View) (f : Frame) (σ τ : Store) : Prop where
  stores : (beside k V).Stores σ τ
  moved : σ.Moved (·.index ≠ k) (Scope.without k) τ
  grounded : σ.Grounded
  forgotten : σ.Forgotten ⟨k⟩
  held : σ.frame? ⟨k⟩ = some f

variable {V : View} {k : Nat} {f : Frame} {outer : Outer}

namespace Beside

theorem addChild (hσ : σ.Grounded) (hs : σ.Has s) (hV : V.Covers Code.OnlyBuiltins σ) :
    Beside σ.frames.size V ⟨.empty, .child s⟩ (σ.addChild s).2 σ := by
  have hframe : ∀ {t : Scope}, t.index ≠ σ.frames.size →
      (σ.addChild s).2.frame? t = σ.frame? t := fun ht => by
    rw [Store.addChild, Store.frame?_addFrame, if_neg ht]
  have hparent : ∀ {t p : Scope} {f : Frame}, σ.frame? t = some f → f.outer = .child p →
      p.index < σ.frames.size := fun hf ho =>
    Nat.lt_trans (hσ.parent hf ho) (Store.lt_size_of_frame? hf)
  have hmoved : (σ.addChild s).2.Moved (·.index ≠ σ.frames.size) (Scope.without σ.frames.size) σ := by
    refine ⟨?_, ?_, rfl⟩
    · intro t ht
      rw [hframe ht]
      cases hf : σ.frame? t with
      | none =>
        have hsize : σ.frames.size ≤ t.index := Array.getElem?_eq_none_iff.mp hf
        apply Array.getElem?_eq_none
        rw [Scope.index_without]
        grind
      | some f =>
        have hlt := Store.lt_size_of_frame? hf
        rw [Option.map_some, Scope.without_of_le (Nat.le_of_lt hlt), hf, Frame.move_congr,
          Frame.move_id]
        intro p ho
        exact Scope.without_of_le (Nat.le_of_lt (hparent hf ho))
    · symm
      refine (Function.map_move_congr ?_).trans (Function.map_move_id σ.functions)
      intro i f hf
      exact Scope.without_of_le (Nat.le_of_lt (hσ.captured hf))
  have hcovers : (V.without σ.frames.size).Covers Code.OnlyBuiltins (σ.addChild s).2 := by
    refine ⟨⟨?_, ?_⟩, hV.code, ?_, hV.function⟩
    · intro t f ht hf
      rw [hframe ht.2] at hf
      obtain ⟨hvalues, hscope, hkeywords⟩ := hV.closed.frame ht.1 hf
      exact ⟨hvalues, fun p ho hlt => ⟨hscope p ho hlt, Nat.ne_of_lt (hparent hf ho)⟩, hkeywords⟩
    · intro i f hi hf
      exact ⟨hV.closed.captured hi hf, Nat.ne_of_lt (hσ.captured hf)⟩
    · intro t ht
      rw [Store.size_addChild] at ht
      exact ⟨hV.scope (by omega), by omega⟩
  refine ⟨stores_of_moved rfl hmoved And.right hcovers ?_ ?_, hmoved, hσ.addChild hs, ⟨?_, ?_⟩, ?_⟩
  · intro t p f ht hf ho
    rw [hframe ht.2] at hf
    have hlt := hσ.parent hf ho
    exact iff_of_true hlt (Scope.without_lt_without (Nat.ne_of_lt (hparent hf ho)) hlt)
  · intro i
    rw [Store.size_addChild]
    apply Scope.ext_index
    change (Scope.without _ _).index = _
    rw [Scope.index_without]
    grind
  · rintro t p f hf ho rfl
    rcases Store.frame?_addFrame_eq_some hf with hf | ⟨-, rfl⟩
    · exact Nat.lt_irrefl _ (hparent hf ho)
    · cases ho
      exact Nat.lt_irrefl _ hs
  · rintro i f hf hcaptured
    exact Nat.ne_of_lt (hσ.captured hf) (congrArg Scope.index hcaptured)
  · rw [Store.addChild, Store.frame?_addFrame, if_pos rfl]

theorem declare {ws : List (String × Value)} {v : Value}
    (h : Beside k V ⟨.ofWrites ws, outer⟩ σ τ) (hv : V.Holds v) (name : String) :
    Beside k V ⟨.ofWrites (ws ++ [(name, v)]), outer⟩ (σ.declare ⟨k⟩ name v) τ := by
  have hframe : ∀ {t : Scope}, t.index ≠ k → (σ.declare ⟨k⟩ name v).frame? t = σ.frame? t :=
    fun ht => by rw [Store.frame?_declare, if_neg fun h => ht (congrArg Scope.index h).symm]
  have hmoved : (σ.declare ⟨k⟩ name v).Moved (·.index ≠ k) (Scope.without k) τ := by
    refine ⟨?_, h.moved.functions, h.moved.journal⟩
    intro t ht
    rw [hframe ht]
    exact h.moved.frame ht
  have hcovers := h.stores.covers.declare (View.Holds.imp (fun _ => id) hv) ⟨k⟩ name
  refine ⟨stores_of_moved rfl hmoved And.right hcovers ?_ ?_, hmoved,
    h.grounded.declare _ name v, ⟨?_, h.forgotten.captured⟩, ?_⟩
  · intro t p f ht hf ho
    rw [hframe ht.2] at hf
    exact h.stores.order ht hf ho
  · intro i
    rw [Store.size_declare]
    exact h.stores.next_frame i
  · intro t p g hg ho
    obtain ⟨f, hf, houter, -⟩ := Store.frame?_declare_eq_some hg
    exact h.forgotten.parent hf (houter.symm.trans ho)
  · rw [Store.frame?_declare, if_pos rfl, h.held, Option.map_some, Bindings.ofWrites_concat]

theorem ran (h : Beside k V f σ τ) (hs : σ.Has s) (hran : (beside k V).Ran own s σ τ r r') :
    Beside k V f r.2 r'.2 := by
  have hk : ¬ (beside k V).view.scope ⟨k⟩ := fun hk => hk.2 rfl
  have hgrounded := hran.grounded ⟨h.grounded, hs⟩
  exact ⟨hran.stores, hran.moved h.stores rfl h.moved And.right Scope.without_inj, hgrounded,
    hran.forgotten h.stores hgrounded hk h.forgotten, hran.left.frame hk h.held⟩

theorem lt_size (h : Beside k V f σ τ) : k < σ.frames.size := Store.lt_size_of_frame? h.held

theorem size_left (h : Beside k V f σ τ) : σ.frames.size = τ.frames.size + 1 := by
  have hlt := h.lt_size
  have hnext : (Scope.without k ⟨σ.frames.size⟩).index = τ.frames.size :=
    congrArg Scope.index (h.stores.next_frame 0)
  rw [Scope.index_without] at hnext
  grind

end Beside

inductive Bound (k : Nat) (V : View) (outer : Outer) (ws : List (String × Value))
    (params : List String) : Outcome Unit × Store → Outcome (List Value) × Store → Prop where
  | value {σ τ : Store} {vs : List Value}
    (hστ : Beside k V ⟨.ofWrites (ws ++ Function.writes params vs), outer⟩ σ τ)
    (hvs : ∀ v ∈ vs, V.Holds v) : Bound k V outer ws params (.value (), σ) (.value vs, τ)
  | error {σ τ : Store} {f : Frame} (hστ : Beside k V f σ τ) (e : RuntimeError) :
    Bound k V outer ws params (.error e, σ) (.error e, τ)
  | tooDeep {σ τ : Store} {f : Frame} (hστ : Beside k V f σ τ) :
    Bound k V outer ws params (.tooDeep, σ) (.tooDeep, τ)

variable {ws : List (String × Value)} {caller : Scope}

theorem bound_nil {params : List String} (ev : Evaluator)
    (hστ : Beside k V ⟨.ofWrites ws, outer⟩ σ τ) :
    Bound k V outer ws params (Function.bindParams ev caller ⟨k⟩ params [] σ) (.value [], τ) := by
  induction params generalizing ws σ with
  | nil =>
    rw [Function.bindParams]
    refine .value ?_ (by simp)
    rwa [Function.writes_nil, List.append_nil]
  | cons param params ih =>
    have hnext := ih (hστ.declare (v := .null) trivial param)
    have hstep : Function.bindParams ev caller ⟨k⟩ (param :: params) [] σ =
        Function.bindParams ev caller ⟨k⟩ params [] (σ.declare ⟨k⟩ param .null) := by
      rw [Function.bindParams]
      rfl
    rw [hstep]
    revert hnext
    generalize Function.bindParams ev caller ⟨k⟩ params [] _ = r
    rintro ⟨hστ', hvs⟩
    refine .value ?_ hvs
    rwa [Function.writes_cons_nil, List.append_cons]

theorem Bound.cons {params params' : List String} {ws' : List (String × Value)} {v : Value}
    {r : Outcome Unit × Store} {y : Eval (List Value)} (hv : V.Holds v)
    (hws : ∀ vs, ws' ++ Function.writes params' vs = ws ++ Function.writes params (v :: vs))
    (h : Bound k V outer ws' params' r (y τ)) :
    Bound k V outer ws params r ((y >>= fun vs => pure (v :: vs)) τ) := by
  rw [Eval.bind_apply]
  generalize y τ = r' at h
  cases h with
  | @value σ τ vs hστ hvs =>
    refine .value ?_ (List.forall_mem_cons.mpr ⟨hv, hvs⟩)
    rwa [← hws]
  | error hστ e => exact .error hστ e
  | tooDeep hστ => exact .tooDeep hστ

theorem Bound.bind {params : List String} {f : Frame} {x x' : Eval Value} {g : Value → Eval Unit}
    {g' : Value → Eval (List Value)} (hσ : Beside k V f σ τ) (hs : σ.Has s)
    (hran : (beside k V).Ran own s σ τ (x σ) (x' τ))
    (h : ∀ v σ₁ τ₁, V.Holds v → Beside k V f σ₁ τ₁ →
      Bound k V outer ws params (g v σ₁) (g' v τ₁)) :
    Bound k V outer ws params ((x >>= g) σ) ((x' >>= g') τ) := by
  have hστ := hσ.ran hs hran
  have houtcome := hran.outcome.trans (Outcome.map_renumber_id _)
  have hholds := hran.holds
  rw [Eval.bind_apply, Eval.bind_apply]
  generalize x σ = r at houtcome hστ hholds
  generalize x' τ = r' at houtcome hστ
  obtain ⟨o, σ₁⟩ := r
  obtain ⟨o', τ₁⟩ := r'
  obtain rfl : o' = o := houtcome
  cases o' with
  | value v => exact h v σ₁ τ₁ (hholds v rfl) hστ
  | error e => exact .error hστ e
  | tooDeep => exact .tooDeep hστ

theorem bound (params : List String) {args : List Code} (host : Host) (n : Nat)
    (hστ : Beside k V ⟨.ofWrites ws, outer⟩ σ τ) (hcaller : V.scope caller)
    (hlt : caller.index < k) (hargs : ∀ j ∈ Code.keywordsAll args, j.isBuiltin) :
    Bound k V outer ws params
      (Function.bindParams (Code.eval host n) caller ⟨k⟩ params args σ)
      (args.mapM (Code.eval host n · caller) τ) := by
  -- parameters that are left when there are no more arguments become null on both sides
  induction args generalizing ws params σ τ with
  | nil => exact bound_nil _ hστ
  | cons arg args ih =>
    rw [Code.keywordsAll, List.forall_mem_append] at hargs
    have hhas : σ.Has caller := Nat.lt_trans hlt hστ.lt_size
    -- the caller is older than the new frame, so it has the same place in both stores
    have hplace : (beside k V).place caller = caller := Scope.without_of_le (Nat.le_of_lt hlt)
    have hran := hστ.stores.eval (fun _ => True) host host n hargs.1 (s := caller)
      ⟨hcaller, Nat.ne_of_lt hlt⟩ trivial
    rw [hplace] at hran
    rw [List.mapM_cons]
    cases params with
    | nil =>
      rw [Function.bindParams]
      exact .bind hστ hhas hran fun v σ₁ τ₁ hv hστ₁ => .cons hv (fun _ => rfl) (ih [] hστ₁ hargs.2)
    | cons param params =>
      rw [Function.bindParams]
      refine .bind hστ hhas hran fun v σ₁ τ₁ hv hστ₁ => ?_
      refine .cons hv (fun vs => ?_) (ih params (hστ₁.declare hv param) hargs.2)
      rw [Function.writes_cons_cons]
      exact (List.append_cons _ _ _).symm

def later (k j : Nat) (hk : k ≤ j) (V : View) : Relocation where
  view := V
  place := Scope.delayed k j
  number := id
  place_inj _ _ := Scope.delayed_inj hk
  number_inj := number_inj_id V

namespace Beside

theorem moved_later (h : Beside k V f σ τ) (ho : f.outer = .child s) (hlt : s.index < k)
    (hk : k ≤ τ.frames.size) :
    σ.Moved (fun _ => True) (Scope.delayed k τ.frames.size) (τ.addFrame f).2 := by
  have hsize := h.size_left
  have hplace : ∀ {t : Scope}, t.index ≠ k → t.index < σ.frames.size →
      t.delayed k τ.frames.size = t.without k :=
    fun ht hlt => Scope.delayed_of_le ht (by omega)
  refine ⟨?_, ?_, h.moved.journal⟩
  · intro t _
    rw [Store.frame?_addFrame]
    by_cases htk : t.index = k
    · obtain rfl : t = ⟨k⟩ := Scope.ext_index htk
      rw [Scope.delayed_self, if_pos rfl, h.held, Option.map_some, Frame.move_congr, Frame.move_id]
      intro p hp
      cases ho.symm.trans hp
      rw [hplace (by omega) (by omega), Scope.without_of_le (by omega)]
      rfl
    cases hf : σ.frame? t with
    | none =>
      have htop : σ.frames.size ≤ t.index := Array.getElem?_eq_none_iff.mp hf
      rw [Scope.delayed_of_lt hk (by omega), if_neg (by omega)]
      exact Array.getElem?_eq_none (by omega)
    | some g =>
      have htop := Store.lt_size_of_frame? hf
      have hwithout : (t.without k).index < τ.frames.size :=
        Scope.index_without_lt htk (by omega) hk
      rw [hplace htk htop, if_neg (by omega), h.moved.frame htk, hf, Option.map_some,
        Option.map_some, Frame.move_congr]
      intro p hp
      have hpt := h.grounded.parent hf hp
      have hpk : p.index ≠ k := fun hpk => h.forgotten.parent hf hp (Scope.ext_index hpk)
      exact (hplace hpk (by omega)).symm
  · refine h.moved.functions.trans (Function.map_move_congr ?_)
    intro i g hg
    have hpk : g.captured.index ≠ k := fun hpk => h.forgotten.captured hg (Scope.ext_index hpk)
    exact (hplace hpk (h.grounded.captured hg)).symm

theorem covers (h : Beside k V f σ τ) (ho : f.outer = .child s) (hs : V.scope s)
    (hvalues : ∀ v ∈ f.bindings.values, V.Holds v) : V.Covers Code.OnlyBuiltins σ := by
  refine ⟨⟨?_, ?_⟩, h.stores.covers.code, ?_, h.stores.covers.function⟩
  · intro t g ht hg
    by_cases htk : t.index = k
    · obtain rfl : t = ⟨k⟩ := Scope.ext_index htk
      cases h.held.symm.trans hg
      refine ⟨hvalues, ?_, ?_⟩
      · intro p hp _
        cases ho.symm.trans hp
        exact hs
      · rw [ho]
        simp [Outer.keywords]
    · exact View.Frames.imp (V := V.without k) (fun _ ht => ht.1) (fun _ hi => hi)
        (h.stores.covers.closed.frame ⟨ht, htk⟩ hg)
  · intro i g hi hg
    exact (h.stores.covers.closed.captured hi hg).1
  · intro t ht
    exact (h.stores.covers.scope ht).1

theorem stores_later (h : Beside k V f σ τ) (ho : f.outer = .child s) (hs : V.scope s)
    (hlt : s.index < k) (hvalues : ∀ v ∈ f.bindings.values, V.Holds v) (hk : k ≤ τ.frames.size) :
    (later k τ.frames.size hk V).Stores σ (τ.addFrame f).2 := by
  have hsize := h.size_left
  refine stores_of_moved rfl (h.moved_later ho hlt hk) (fun _ => trivial)
    (h.covers ho hs hvalues) ?_ ?_
  · intro t p g _ hg hp
    have htop := Store.lt_size_of_frame? hg
    have hpt := h.grounded.parent hg hp
    have hpk : p.index ≠ k := fun hpk => h.forgotten.parent hg hp (Scope.ext_index hpk)
    refine iff_of_true hpt ?_
    change (p.delayed k τ.frames.size).index < (t.delayed k τ.frames.size).index
    rw [Scope.delayed_of_le hpk (by omega)]
    by_cases htk : t.index = k
    · obtain rfl : t = ⟨k⟩ := Scope.ext_index htk
      have hlt : p.index < k := hpt
      rw [Scope.delayed_self]
      exact Scope.index_without_lt (j := τ.frames.size) hpk (by omega) hk
    · rw [Scope.delayed_of_le htk (by omega)]
      exact Scope.without_lt_without hpk hpt
  · intro i
    change Scope.delayed _ _ _ = _
    rw [Scope.delayed_of_lt hk (by simp only; omega)]
    simp [Store.addFrame, hsize]

end Beside

end Relocation

theorem Relocation.Stores.size_later {k j : Nat} {hk : k ≤ j} {V : View} {σ τ : Store}
    (hστ : (later k j hk V).Stores σ τ) (hlt : j < σ.frames.size) :
    τ.frames.size = σ.frames.size := by
  have hnext : Scope.delayed k j ⟨σ.frames.size⟩ = ⟨τ.frames.size⟩ := hστ.next_frame 0
  have hsame := Scope.delayed_of_lt (s := ⟨σ.frames.size⟩) hk hlt
  exact congrArg Scope.index (hnext.symm.trans hsame)

theorem Bindings.mem_values_ofWrites {α : Type} {ws : List (String × α)} {a : α}
    (h : a ∈ (ofWrites ws).values) : a ∈ ws.map (·.2) := by
  induction ws using List.reverseRecOn with
  | nil => exact h
  | append_singleton ws w ih =>
    rw [ofWrites_concat] at h
    rw [List.map_append, List.mem_append]
    rcases mem_values_insert h with rfl | h
    · exact .inr List.mem_cons_self
    · exact .inl (ih h)

theorem Function.eq_null_or_mem_of_writes {params : List String} {vs : List Value} {v : Value}
    (h : v ∈ (writes params vs).map (·.2)) : v = .null ∨ v ∈ vs := by
  obtain ⟨⟨param, _⟩, hw, rfl⟩ := List.mem_map.mp h
  obtain ⟨i, _, hi⟩ := List.mem_mapIdx.mp hw
  obtain ⟨-, rfl⟩ := Prod.mk.inj hi
  rw [List.getD_eq_getElem?_getD]
  cases hv : vs[i]? with
  | none => exact .inl rfl
  | some v => exact .inr (List.mem_of_getElem? hv)

/--
A call does what a call by value does, but for the place of the new frame, which is made before the
frames that the arguments make and not after them. If an argument fails, then the body is not run, and
the new frame stays behind, where nothing leads to it.
-/
theorem Function.call_equiv_callByValue (host : Host) (n : Nat) {σ : Store} {f : Function}
    {caller : Scope} {args : List Code} (hσ : σ.Grounded)
    (hcaller : caller.index < σ.frames.size) (hcaptured : f.captured.index < σ.frames.size)
    (hknows : σ.KnowsOnlyBuiltins caller) (hknows' : σ.KnowsOnlyBuiltins f.captured)
    (hargs : ∀ k ∈ Code.keywordsAll args, k.isBuiltin)
    (hbody : ∀ k ∈ f.body.keywords, k.isBuiltin) :
    (f.call (Code.eval host n) caller args σ).1 =
      (f.callByValue (Code.eval host n) caller args σ).1 ∧
    (∀ vs τ, args.mapM (Code.eval host n · caller) σ = (.value vs, τ) →
      (f.callByValue (Code.eval host n) caller args σ).2.frames.size =
        (f.call (Code.eval host n) caller args σ).2.frames.size ∧
      (f.call (Code.eval host n) caller args σ).2.Moved (fun _ => True)
        (Scope.delayed σ.frames.size τ.frames.size)
        (f.callByValue (Code.eval host n) caller args σ).2) ∧
    ∀ o τ, args.mapM (Code.eval host n · caller) σ = (o, τ) → (∀ vs, o ≠ .value vs) →
      (f.callByValue (Code.eval host n) caller args σ).2 = τ ∧
      (f.call (Code.eval host n) caller args σ).2.frames.size = τ.frames.size + 1 ∧
      (f.call (Code.eval host n) caller args σ).2.Moved (·.index ≠ σ.frames.size)
        (Scope.without σ.frames.size) τ ∧
      (f.call (Code.eval host n) caller args σ).2.Forgotten ⟨σ.frames.size⟩ := by
  have hcall : f.call (Code.eval host n) caller args σ =
      (bindParams (Code.eval host n) caller ⟨σ.frames.size⟩ f.params args >>= fun _ =>
        runItems (Code.eval host n) ⟨σ.frames.size⟩ f.body.items) (σ.addChild f.captured).2 := rfl
  let V := (σ.viewFrom caller).or (σ.viewFrom f.captured)
  have hV : V.Covers Code.OnlyBuiltins σ := .or (.viewFrom hknows) (.viewFrom hknows')
  have hentered : Relocation.Beside σ.frames.size V ⟨.ofWrites [], .child f.captured⟩
      (σ.addChild f.captured).2 σ := .addChild hσ hcaptured hV
  have hbound := Relocation.bound f.params host n hentered (.inl Store.viewFrom_self) hcaller hargs
  rw [hcall, callByValue, Eval.bind_apply, Eval.bind_apply]
  generalize bindParams _ _ _ _ _ _ = r at hbound
  generalize (args.mapM (Code.eval host n · caller) : Eval _) σ = r' at hbound
  cases hbound with
  | @value σ₁ τ₁ vs hστ hvs =>
    have hsize := hστ.size_left
    have hk : σ.frames.size ≤ τ₁.frames.size := by
      have := hστ.lt_size
      omega
    have hvalues : ∀ v ∈ (Bindings.ofWrites (writes f.params vs)).values, V.Holds v := by
      intro v hv
      rcases eq_null_or_mem_of_writes (Bindings.mem_values_ofWrites hv) with rfl | hv
      · trivial
      · exact hvs v hv
    have hmoved := hστ.moved_later rfl hcaptured hk
    have hstores := hστ.stores_later rfl (.inr Store.viewFrom_self) hcaptured hvalues hk
    have hran := hstores.runItems (fun _ => True) host host n hbody (s := ⟨σ.frames.size⟩)
      (hV.scope (le_refl _)) trivial
    have hmoved' := hran.moved hstores rfl hmoved (fun _ => trivial)
      fun _ _ => Scope.delayed_inj hk
    rw [show (Relocation.later _ _ hk V).place ⟨σ.frames.size⟩ = ⟨τ₁.frames.size⟩ from
      Scope.delayed_self _ _] at hran hmoved'
    have hgrown := hran.left.grows.frames
    refine ⟨(hran.outcome.trans (Outcome.map_renumber_id _)).symm, ?_, ?_⟩
    · rintro _ _ ⟨⟩
      exact ⟨hran.stores.size_later (by omega), hmoved'⟩
    · rintro o τ ⟨⟩ hne
      exact absurd rfl (hne vs)
  | error hστ | tooDeep hστ =>
    refine ⟨rfl, ?_, ?_⟩
    · rintro vs τ ⟨⟩
    · rintro o τ ⟨⟩ -
      exact ⟨rfl, hστ.size_left, hστ.moved, hστ.forgotten⟩

def Store.inner : Store := (((Context.builtin 0).newScope .empty).2.addChild ⟨0⟩).2

def Function.repeating : Function :=
  ⟨["a", "b", "a"], ⟨[.lookup default "a"], default⟩, ⟨0⟩⟩

def Function.surplus : List Code :=
  [.block default [.literal default (.string "u")], .literal default (.string "v"),
    .literal default (.string "w"), .literal default (.string "x")]

theorem Function.call_equiv_callByValue_repeating :
    Store.inner.Grounded ∧ Store.inner.KnowsOnlyBuiltins ⟨1⟩ ∧
    (repeating.call (Code.eval Host.absent 9) ⟨1⟩ surplus Store.inner).1 =
      (repeating.callByValue (Code.eval Host.absent 9) ⟨1⟩ surplus Store.inner).1 ∧
    (repeating.call (Code.eval Host.absent 9) ⟨1⟩ surplus Store.inner).2.Moved
      (fun _ => True) (Scope.delayed 2 3)
      (repeating.callByValue (Code.eval Host.absent 9) ⟨1⟩ surplus Store.inner).2 := by
  have hgrounded : Store.inner.Grounded := by
    apply Store.Grounded.addChild
    · apply Store.Grounded.empty.addFrame
      rintro p ⟨⟩
    · decide
  have hknows := Store.knowsOnlyBuiltins_of_forall (σ := Store.inner) (by decide) (by decide)
  have hargs : ∀ k ∈ Code.keywordsAll surplus, k.isBuiltin := by decide
  have hcaller : (⟨1⟩ : Scope).index < Store.inner.frames.size := by decide
  have h := call_equiv_callByValue Host.absent 9 (f := repeating) hgrounded hcaller (by decide)
    (hknows _) (hknows _) hargs (by decide)
  exact ⟨hgrounded, hknows _, h.1, (h.2.1 _ _ rfl).2⟩

end Fexpr
