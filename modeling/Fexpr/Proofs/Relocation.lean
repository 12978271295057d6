import Mathlib.Data.Nat.Basic
import Mathlib.Order.Basic
import Fexpr.Proofs.Covering

/-!
# Runs in stores with frames and functions in other places

Two stores hold the same frames and functions in different places, as far as a run can get at them.
The run does the same in both, and what it makes corresponds as well. Whatever it cannot get at stays
as it was, in either store.
-/

namespace Fexpr

namespace Store

def Has (σ : Store) (s : Scope) : Prop := s.index < σ.frames.size

instance (σ : Store) (s : Scope) : Decidable (σ.Has s) :=
  inferInstanceAs (Decidable (s.index < σ.frames.size))

structure Grows (σ τ : Store) : Prop where
  frames : σ.frames.size ≤ τ.frames.size
  functions : σ.functions.size ≤ τ.functions.size

variable {σ τ υ : Store} {s : Scope}

theorem Grows.refl (σ : Store) : σ.Grows σ := ⟨Nat.le_refl _, Nat.le_refl _⟩

theorem Grows.trans (h : σ.Grows τ) (h' : τ.Grows υ) : σ.Grows υ :=
  ⟨Nat.le_trans h.frames h'.frames, Nat.le_trans h.functions h'.functions⟩

theorem Grows.has (h : σ.Grows τ) (hs : σ.Has s) : τ.Has s := Nat.lt_of_lt_of_le hs h.frames

theorem Has.frame? (hs : σ.Has s) : ∃ f, σ.frame? s = some f :=
  ⟨_, Array.getElem?_eq_getElem hs⟩

theorem grows_declare (σ : Store) (s : Scope) (name : String) (v : Value) :
    σ.Grows (σ.declare s name v) :=
  ⟨Nat.le_of_eq (σ.size_declare s name v).symm, Nat.le_refl _⟩

theorem grows_addFrame (σ : Store) (f : Frame) : σ.Grows (σ.addFrame f).2 := by
  constructor
  · simp only [addFrame, Array.size_push, Nat.le_succ]
  · exact Nat.le_refl _

theorem grows_addFunction (σ : Store) (f : Function) : σ.Grows (σ.addFunction f).2 := by
  constructor
  · exact Nat.le_refl _
  · simp only [addFunction, Array.size_push, Nat.le_succ]

end Store

/-- Parents are older than their children, and scopes that functions have captured exist. -/
structure Store.Grounded (σ : Store) : Prop where
  parent : ∀ {t p : Scope} {f : Frame}, σ.frame? t = some f → f.outer = .child p →
    p.index < t.index
  captured : ∀ {i : Nat} {f : Function}, σ.function? i = some f →
    f.captured.index < σ.frames.size

namespace Store.Grounded

variable {σ : Store} {s : Scope}

theorem empty : Store.empty.Grounded := by
  constructor
  · intro t p f hf
    cases hf
  · intro i f hf
    cases hf

theorem declare (hσ : σ.Grounded) (s : Scope) (name : String) (v : Value) :
    (σ.declare s name v).Grounded := by
  constructor
  · intro t p g hg ho
    obtain ⟨f, hf, houter, -⟩ := frame?_declare_eq_some hg
    exact hσ.parent hf (houter.symm.trans ho)
  · intro i f hf
    rw [size_declare]
    exact hσ.captured hf

theorem addFrame {f : Frame} (hσ : σ.Grounded)
    (hf : ∀ p, f.outer = .child p → p.index < σ.frames.size) : (σ.addFrame f).2.Grounded := by
  constructor
  · intro t p g hg ho
    rcases frame?_addFrame_eq_some hg with hg | ⟨rfl, rfl⟩
    · exact hσ.parent hg ho
    · exact hf p ho
  · intro i g hg
    have hlt := hσ.captured hg
    simp only [Store.addFrame, Array.size_push]
    omega

theorem addChild (hσ : σ.Grounded) (hs : s.index < σ.frames.size) : (σ.addChild s).2.Grounded := by
  apply hσ.addFrame
  rintro p ⟨⟩
  exact hs

theorem addFunction {f : Function} (hσ : σ.Grounded) (hf : f.captured.index < σ.frames.size) :
    (σ.addFunction f).2.Grounded := by
  constructor
  · exact hσ.parent
  · intro i g hg
    rw [function?_addFunction] at hg
    split at hg
    · cases hg
      exact hf
    · exact hσ.captured hg

end Store.Grounded

def Outer.move (place : Scope → Scope) : Outer → Outer
  | root keywords => .root keywords
  | child parent => .child (place parent)

def Frame.move (place : Scope → Scope) (f : Frame) : Frame :=
  { f with outer := f.outer.move place }

def Function.move (place : Scope → Scope) (f : Function) : Function :=
  { f with captured := place f.captured }

structure Store.Moved (domain : Scope → Prop) (place : Scope → Scope) (σ τ : Store) : Prop where
  frame : ∀ {t : Scope}, domain t → τ.frame? (place t) = (σ.frame? t).map (Frame.move place)
  functions : τ.functions = σ.functions.map (Function.move place)
  journal : τ.journal = σ.journal

theorem Store.Moved.function? {domain : Scope → Prop} {place : Scope → Scope} {σ τ : Store}
    (h : σ.Moved domain place τ) (i : Nat) :
    τ.function? i = (σ.function? i).map (Function.move place) := by
  rw [Store.function?, h.functions, Array.getElem?_map]
  rfl

theorem Store.Moved.functions_size {domain : Scope → Prop} {place : Scope → Scope} {σ τ : Store}
    (h : σ.Moved domain place τ) : τ.functions.size = σ.functions.size := by
  rw [h.functions, Array.size_map]

theorem Frame.move_congr {place place' : Scope → Scope} {f : Frame}
    (h : ∀ p, f.outer = .child p → place' p = place p) : f.move place' = f.move place := by
  obtain ⟨bindings, outer⟩ := f
  cases outer with
  | root keywords => rfl
  | child p => simp only [move, Outer.move, h p rfl]

theorem Frame.move_id (f : Frame) : f.move id = f := by
  obtain ⟨bindings, outer⟩ := f
  cases outer <;> rfl

theorem Function.map_move_congr {place place' : Scope → Scope} {fs : Array Function}
    (h : ∀ (i : Nat) (f : Function), fs[i]? = some f → place' f.captured = place f.captured) :
    fs.map (move place') = fs.map (move place) := by
  apply Array.map_congr_left
  intro f hf
  obtain ⟨i, hi⟩ := Array.mem_iff_getElem?.mp hf
  rw [move, move, h i f hi]

theorem Function.map_move_id (fs : Array Function) : fs.map (move id) = fs := Array.map_id' fs

/-- A run that was confined to some scopes: frames elsewhere are as they were, and so are functions
and the journal, and there are new names only in frames of its own. -/
structure Store.Confined (within own : Scope → Prop) (σ τ : Store) : Prop where
  grows : σ.Grows τ
  frame : ∀ {t : Scope} {f : Frame}, ¬ within t → σ.frame? t = some f → τ.frame? t = some f
  function : ∀ {i : Nat} {f : Function}, σ.function? i = some f → τ.function? i = some f
  journal : τ.journal = σ.journal
  names : ∀ {t : Scope} {f : Frame}, σ.frame? t = some f → ∃ g, τ.frame? t = some g ∧
    g.outer = f.outer ∧ f.bindings.names <+: g.bindings.names ∧
    (¬ own t → g.bindings.names = f.bindings.names)

namespace Store.Confined

variable {within own : Scope → Prop} {σ τ : Store} {s : Scope} {name : String}

theorem refl (within own : Scope → Prop) (σ : Store) : σ.Confined within own σ :=
  ⟨.refl σ, fun _ => id, id, rfl, fun hf => ⟨_, hf, rfl, List.prefix_rfl, fun _ => rfl⟩⟩

theorem declare (h : σ.Confined within own τ) (hs : within s)
    (hname : own s ∨ σ.frames.size ≤ s.index ∨ name ∈ (τ.bindings s).names) (v : Value) :
    σ.Confined within own (τ.declare s name v) := by
  refine ⟨h.grows.trans (τ.grows_declare s name v), ?_, h.function, h.journal, ?_⟩
  · intro t f ht hf
    rw [Store.frame?_declare, if_neg (fun heq : s = t => ht (heq ▸ hs)), h.frame ht hf]
  · intro t f hf
    obtain ⟨g, hg, houter, hprefix, hnames⟩ := h.names hf
    rw [Store.frame?_declare, hg]
    by_cases hst : s = t
    · subst hst
      rw [if_pos rfl]
      refine ⟨_, rfl, houter, ?_, ?_⟩
      · rw [Bindings.names_insert]
        split
        · exact hprefix
        · exact hprefix.trans (List.prefix_append _ _)
      · intro hown
        have hlt := Store.lt_size_of_frame? hf
        have hmem := (hname.resolve_left hown).resolve_left (Nat.not_le_of_lt hlt)
        rw [Store.bindings_of_some hg] at hmem
        rw [Bindings.names_insert, if_pos hmem, hnames hown]
    · rw [if_neg hst]
      exact ⟨g, rfl, houter, hprefix, hnames⟩

theorem addChild (h : σ.Confined within own τ) (s : Scope) :
    σ.Confined within own (τ.addChild s).2 := by
  have hframe : ∀ {t : Scope} {f : Frame}, τ.frame? t = some f →
      (τ.addChild s).2.frame? t = some f := fun hf => by
    rw [Store.addChild, Store.frame?_addFrame, if_neg (Nat.ne_of_lt (Store.lt_size_of_frame? hf)),
      hf]
  refine ⟨h.grows.trans (τ.grows_addFrame _), fun ht hf => hframe (h.frame ht hf), h.function,
    h.journal, ?_⟩
  intro t f hf
  obtain ⟨g, hg, hrest⟩ := h.names hf
  exact ⟨g, hframe hg, hrest⟩

theorem addFunction (h : σ.Confined within own τ) (f : Function) :
    σ.Confined within own (τ.addFunction f).2 := by
  refine ⟨h.grows.trans (τ.grows_addFunction f), h.frame, ?_, h.journal, h.names⟩
  intro i g hg
  have hlt := (Array.getElem?_eq_some_iff.mp (h.function hg)).1
  rw [Store.function?_addFunction, if_neg (Nat.ne_of_lt hlt), h.function hg]

end Store.Confined

/-- Where frames and functions stand in another store, as far as a run may get at them. -/
structure Relocation where
  view : View
  place : Scope → Scope
  number : Nat → Nat
  place_inj : ∀ {s t : Scope}, view.scope s → view.scope t → place s = place t → s = t
  number_inj : ∀ {i j : Nat}, view.function i → view.function j → number i = number j → i = j

namespace Relocation

variable (R : Relocation)

def transfer (f : Frame) : Frame := (f.renumber R.number).move R.place

def Image (u : Scope) : Prop := ∃ t, R.view.scope t ∧ R.place t = u

/-- What is in view corresponds, and what is yet to be made will. -/
structure Stores (σ τ : Store) : Prop where
  covers : R.view.Covers Code.OnlyBuiltins σ
  frame : ∀ {t : Scope}, R.view.scope t → τ.frame? (R.place t) = (σ.frame? t).map R.transfer
  function : ∀ {i : Nat}, R.view.function i →
    τ.function? (R.number i) = (σ.function? i).map (Function.move R.place)
  order : ∀ {t p : Scope} {f : Frame}, R.view.scope t → σ.frame? t = some f →
    f.outer = .child p → (p.index < t.index ↔ (R.place p).index < (R.place t).index)
  next_frame : ∀ i, R.place ⟨σ.frames.size + i⟩ = ⟨τ.frames.size + i⟩
  next_function : ∀ i, R.number (σ.functions.size + i) = τ.functions.size + i

variable {R} {σ τ : Store} {s t : Scope} {name : String} {v : Value}

theorem transfer_eq_self {f : Frame}
    (hvalues : ∀ v ∈ f.bindings.values, v.renumber R.number = v)
    (hparent : ∀ p, f.outer = .child p → R.place p = p) : R.transfer f = f := by
  have hmove : f.move R.place = f.move id := Frame.move_congr hparent
  rw [transfer, Frame.renumber, Bindings.map_eq_self hvalues, hmove, Frame.move_id]

namespace Stores

theorem ascend {α : Type} {g : α → α} {found found' : Scope → Value → α}
    {root : Keywords → Option α} {s : Scope} (hστ : R.Stores σ τ) (hs : R.view.scope s)
    (hfound : ∀ t v, found' (R.place t) (v.renumber R.number) = g (found t v))
    (hroot : ∀ keywords, (root keywords).map g = root keywords) :
    τ.ascend name found' root (R.place s) = (σ.ascend name found root s).map g := by
  rw [Store.ascend, Store.ascend, hστ.frame hs]
  cases hf : σ.frame? s with
  | none => rfl
  | some f =>
    obtain ⟨bindings, outer⟩ := f
    simp only [Option.map_some, transfer, Frame.renumber, Frame.move, Bindings.find?_map]
    cases hv : bindings.find? name with
    | some v => simp only [Option.map_some, hfound]
    | none =>
      cases outer with
      | root keywords => simp only [Option.map_none, Outer.move, hroot]
      | child p =>
        simp only [Option.map_none, Outer.move, ← hστ.order hs hf rfl]
        split
        · exact hστ.ascend ((hστ.covers.closed.frame hs hf).parent p rfl ‹_›) hfound hroot
        · rfl
termination_by s.index

theorem lookup (hστ : R.Stores σ τ) (hs : R.view.scope s) :
    τ.lookup (R.place s) name = (σ.lookup s name).map (Value.renumber R.number) := by
  rw [Store.lookup_eq_ascend, Store.lookup_eq_ascend]
  apply hστ.ascend hs
  · intro t v
    rfl
  · intro keywords
    cases keywords.find? name <;> rfl

theorem binder (hστ : R.Stores σ τ) (hs : R.view.scope s) :
    τ.binder? (R.place s) name = (σ.binder? s name).map R.place := by
  rw [Store.binder?_eq_ascend, Store.binder?_eq_ascend]
  apply hστ.ascend hs
  · intro t v
    rfl
  · intro keywords
    rfl

theorem declare (hστ : R.Stores σ τ) (hs : R.view.scope s) (hv : R.view.Holds v) :
    R.Stores (σ.declare s name v) (τ.declare (R.place s) name (v.renumber R.number)) := by
  refine ⟨hστ.covers.declare hv s name, ?_, hστ.function, ?_, ?_, hστ.next_function⟩
  · intro t ht
    rw [Store.frame?_declare, Store.frame?_declare, hστ.frame ht]
    -- no other frame in view has the same place
    by_cases hst : s = t
    · subst hst
      rw [if_pos rfl, if_pos rfl]
      cases σ.frame? s with
      | none => rfl
      | some f => simp [transfer, Frame.renumber, Frame.move, Bindings.insert_map]
    · rw [if_neg hst, if_neg fun h => hst (R.place_inj hs ht h)]
  · intro t p g ht hg ho
    obtain ⟨f, hf, houter, -⟩ := Store.frame?_declare_eq_some hg
    exact hστ.order ht hf (houter.symm.trans ho)
  · intro i
    rw [Store.size_declare, Store.size_declare]
    exact hστ.next_frame i

theorem has_place (hστ : R.Stores σ τ) (hs : R.view.scope s) : τ.Has (R.place s) ↔ σ.Has s := by
  by_cases hhas : σ.Has s
  · obtain ⟨f, hf⟩ := hhas.frame?
    have hplace := hστ.frame hs
    rw [hf] at hplace
    exact iff_of_true (Store.lt_size_of_frame? hplace) hhas
  · obtain ⟨i, hi⟩ := Nat.exists_eq_add_of_le (Nat.le_of_not_lt hhas)
    obtain rfl : s = ⟨σ.frames.size + i⟩ := congrArg Scope.mk hi
    rw [hστ.next_frame]
    exact iff_of_false (Nat.not_lt.mpr (Nat.le_add_right _ _)) hhas

theorem addChild (hστ : R.Stores σ τ) (hs : R.view.scope s) :
    R.Stores (σ.addChild s).2 (τ.addChild (R.place s)).2 := by
  have hnew : R.view.scope ⟨σ.frames.size⟩ := hστ.covers.scope (Nat.le_refl _)
  have hplace : R.place ⟨σ.frames.size⟩ = ⟨τ.frames.size⟩ := hστ.next_frame 0
  refine ⟨hστ.covers.addChild hs, ?_, hστ.function, ?_, ?_, hστ.next_function⟩
  · intro t ht
    rw [Store.addChild, Store.addChild, Store.frame?_addFrame, Store.frame?_addFrame,
      hστ.frame ht]
    by_cases htop : t.index = σ.frames.size
    · obtain rfl : t = ⟨σ.frames.size⟩ := congrArg Scope.mk htop
      rw [if_pos rfl, if_pos (congrArg Scope.index hplace)]
      rfl
    · rw [if_neg htop, if_neg]
      intro heq
      have hsame : R.place t = R.place ⟨σ.frames.size⟩ := (congrArg Scope.mk heq).trans hplace.symm
      exact htop (congrArg Scope.index (R.place_inj ht hnew hsame))
  · intro t p g ht hg ho
    rcases Store.frame?_addFrame_eq_some hg with hg | ⟨rfl, rfl⟩
    · exact hστ.order ht hg ho
    · cases ho
      change s.index < σ.frames.size ↔ _ < (R.place ⟨σ.frames.size⟩).index
      rw [hplace]
      exact (hστ.has_place hs).symm
  · intro i
    rw [Store.size_addChild, Store.size_addChild, Nat.add_assoc, Nat.add_assoc]
    exact hστ.next_frame (1 + i)

theorem addFunction {f : Function} (hστ : R.Stores σ τ) (hf : R.view.scope f.captured)
    (hcode : ∀ c ∈ f.body.items, c.OnlyBuiltins) :
    R.Stores (σ.addFunction f).2 (τ.addFunction (f.move R.place)).2 := by
  have hnew : R.view.function σ.functions.size := hστ.covers.function (Nat.le_refl _)
  have hnumber : R.number σ.functions.size = τ.functions.size := hστ.next_function 0
  refine ⟨hστ.covers.addFunction hf hcode, hστ.frame, ?_, hστ.order, hστ.next_frame, ?_⟩
  · intro i hi
    rw [Store.function?_addFunction, Store.function?_addFunction, hστ.function hi]
    by_cases htop : i = σ.functions.size
    · subst htop
      rw [if_pos hnumber, if_pos rfl]
      rfl
    · rw [if_neg htop, if_neg]
      intro heq
      exact htop (R.number_inj hi hnew (heq.trans hnumber.symm))
  · intro i
    simp only [Store.addFunction, Array.size_push, Nat.add_assoc]
    exact hστ.next_function (1 + i)

end Stores

/-- Two stores in the course of two runs, and what has changed since these began. The first store
stays grounded if it was so and if code is run only in scopes that exist. -/
structure Reached (R : Relocation) (G : Prop) (own : Scope → Prop) (σ₀ τ₀ σ τ : Store) : Prop where
  stores : R.Stores σ τ
  left : σ₀.Confined R.view.scope own σ
  right : τ₀.Confined R.Image (fun _ => True) τ
  grounded : G → σ.Grounded

namespace Reached

variable {G : Prop} {own : Scope → Prop} {σ₀ τ₀ : Store}

theorem declare (h : R.Reached G own σ₀ τ₀ σ τ) (hs : R.view.scope s) (hv : R.view.Holds v)
    (hname : own s ∨ σ₀.frames.size ≤ s.index ∨ name ∈ (σ.bindings s).names) :
    R.Reached G own σ₀ τ₀ (σ.declare s name v)
      (τ.declare (R.place s) name (v.renumber R.number)) :=
  ⟨h.stores.declare hs hv, h.left.declare hs hname v,
    h.right.declare ⟨s, hs, rfl⟩ (.inl trivial) _, fun hG => (h.grounded hG).declare s name v⟩

theorem assign (h : R.Reached G own σ₀ τ₀ σ τ) (hs : R.view.scope s) (hv : R.view.Holds v) :
    Option.Rel (fun σ' τ' => σ'.frames.size = σ.frames.size ∧ R.Reached G own σ₀ τ₀ σ' τ')
      (σ.assign? s name v) (τ.assign? (R.place s) name (v.renumber R.number)) := by
  rw [Store.assign?, Store.assign?, h.stores.binder hs]
  cases ht : σ.binder? s name with
  | none => exact .none
  | some t =>
    exact .some ⟨Store.size_declare _ _ _ _, h.declare (h.stores.covers.closed.binder hs ht) hv
      (.inr (.inr (Store.mem_names_of_binder? ht)))⟩

theorem addChild (h : R.Reached G own σ₀ τ₀ σ τ) (hs : R.view.scope s) (hhas : G → σ.Has s) :
    R.Reached G own σ₀ τ₀ (σ.addChild s).2 (τ.addChild (R.place s)).2 :=
  ⟨h.stores.addChild hs, h.left.addChild s, h.right.addChild (R.place s),
    fun hG => (h.grounded hG).addChild (hhas hG)⟩

theorem addFunction {f : Function} (h : R.Reached G own σ₀ τ₀ σ τ)
    (hf : R.view.scope f.captured) (hhas : G → σ.Has f.captured)
    (hcode : ∀ c ∈ f.body.items, c.OnlyBuiltins) :
    R.Reached G own σ₀ τ₀ (σ.addFunction f).2 (τ.addFunction (f.move R.place)).2 :=
  ⟨h.stores.addFunction hf hcode, h.left.addFunction f, h.right.addFunction (f.move R.place),
    fun hG => (h.grounded hG).addFunction (hhas hG)⟩

end Reached

def zoning (R : Relocation) (G : Prop) (own : Scope → Prop) (σ₀ τ₀ : Store) :
    Zoning (R.view.matching R.number Nat) Unit where
  store w σ τ := σ.frames.size = w ∧ R.Reached G own σ₀ τ₀ σ τ
  code _ := Code.Alike
  binds _ := Eq
  late _ _ _ := False
  runs w _ s s' := s' = R.place s ∧ R.view.scope s ∧ (own s ∨ σ₀.frames.size ≤ s.index) ∧
    (G → s.index < w)
  heads := View.heads_alike
  name_of_binds hn := hn
  runs_mono hle hs := ⟨hs.1, hs.2.1, hs.2.2.1, fun hG => Nat.lt_of_lt_of_le (hs.2.2.2 hG) hle⟩
  function_mono _ hi := hi
  keyword_builtin := View.keyword_builtin
  keyword_inj := View.keyword_inj
  function_inj := by
    rintro _ i _ j _ ⟨rfl, hi⟩ ⟨rfl, hj⟩
    exact ⟨congrArg R.number, R.number_inj hi hj⟩
  lookup := by
    rintro _ _ σ τ s _ n _ ⟨-, h⟩ ⟨rfl, hs, -⟩ rfl
    rw [h.stores.lookup hs]
    cases hv : σ.lookup s n with
    | none => exact .none
    | some v => exact .some (View.values_iff.mpr ⟨rfl, h.stores.covers.closed.lookup hs hv⟩)
  lookup_late _ _ hk := hk.elim
  declare := by
    rintro _ _ σ τ s _ n _ v _ ⟨rfl, h⟩ ⟨rfl, hs, hown, -⟩ rfl hv
    obtain ⟨rfl, hheld⟩ := View.values_iff.mp hv
    exact ⟨Store.size_declare _ _ _ _, h.declare hs hheld (hown.imp_right .inl)⟩
  assign := by
    rintro _ _ σ τ s _ n _ v _ ⟨rfl, h⟩ ⟨rfl, hs, -⟩ rfl hv
    obtain ⟨rfl, hheld⟩ := View.values_iff.mp hv
    exact h.assign hs hheld
  addChild := by
    rintro _ _ σ τ s _ ⟨rfl, h⟩ ⟨rfl, hs, -, hlt⟩
    exact ⟨σ.frames.size + 1, Nat.le_succ _,
      ⟨(h.stores.next_frame 0).symm, h.stores.covers.scope (le_refl _), .inr h.left.grows.frames,
        fun _ => Nat.lt_succ_self _⟩,
      Store.size_addChild σ s, h.addChild hs hlt⟩
  addFunction := by
    rintro _ _ σ τ s _ params params' ⟨items, p⟩ ⟨items', p'⟩ ⟨rfl, h⟩ ⟨rfl, hs, -, hlt⟩ hparams hbody
    obtain rfl : params = params' := List.forall₂_eq_eq_eq ▸ hparams
    obtain rfl : p = p' := hbody.span
    obtain ⟨rfl, hcode⟩ : items' = items ∧ _ := Code.forall₂_alike.mp hbody.items
    refine ⟨_, le_refl _, ?_, rfl, h.addFunction (f := ⟨params, ⟨items', p⟩, s⟩) hs hlt
      (Code.forall_onlyBuiltins.mpr hcode)⟩
    exact .function ⟨(h.stores.next_function 0).symm, h.stores.covers.function (le_refl _)⟩
  enter := by
    rintro _ σ τ i _ ⟨rfl, h⟩ ⟨rfl, hi⟩
    rw [h.stores.function hi]
    cases hf : σ.function? i with
    | none => exact .none
    | some f =>
      exact .some ⟨(), σ.frames.size + 1, Nat.le_succ _, List.forall₂_same.mpr fun _ _ => rfl,
        Code.forall₂_alike.mpr
          ⟨rfl, Code.forall_onlyBuiltins.mp (h.stores.covers.code hi hf)⟩,
        ⟨(h.stores.next_frame 0).symm, h.stores.covers.scope (le_refl _), .inr h.left.grows.frames,
          fun _ => Nat.lt_succ_self _⟩,
        Store.size_addChild σ f.captured, h.addChild (h.stores.covers.closed.captured hi hf)
          fun hG => (h.grounded hG).captured hf⟩

structure Ran (R : Relocation) (own : Scope → Prop) (s : Scope) (σ τ : Store)
    (r r' : Outcome Value × Store) : Prop
    extends R.Reached (σ.Grounded ∧ σ.Has s) own σ τ r.2 r'.2 where
  outcome : r'.1 = r.1.map (Value.renumber R.number)
  holds : ∀ v, r.1 = .value v → R.view.Holds v

theorem ran_of_related {own : Scope → Prop} {x y : Eval Value} (hστ : R.Stores σ τ)
    (h : (R.zoning (σ.Grounded ∧ σ.Has s) own σ τ).Related
      (R.view.matching R.number Nat).Values σ.frames.size x y) :
    R.Ran own s σ τ (x σ) (y τ) := by
  obtain ⟨w, -, ⟨-, hreached⟩, ho⟩ :=
    h σ τ ⟨rfl, hστ, .refl _ _ σ, .refl _ _ τ, And.left⟩
  refine ⟨hreached, View.outcome_eq ho, ?_⟩
  intro v hv
  rw [hv] at ho
  generalize (y τ).1 = o at ho
  cases ho with
  | value h => exact (View.values_iff.mp h).2

theorem Stores.eval (hστ : R.Stores σ τ) (own : Scope → Prop) (host host' : Host) (n : Nat)
    {c : Code} (hc : ∀ k ∈ c.keywords, k.isBuiltin) (hs : R.view.scope s)
    (hown : own s) :
    R.Ran own s σ τ (c.eval host n s σ) (c.eval host' n (R.place s) τ) :=
  ran_of_related hστ (Zoning.evaluators_eval host host' n _ () c c s _ ⟨rfl, hc⟩
    ⟨rfl, hs, .inl hown, And.right⟩)

theorem Stores.runItems (hστ : R.Stores σ τ) (own : Scope → Prop) (host host' : Host) (n : Nat)
    {items : List Code} (hitems : ∀ k ∈ Code.keywordsAll items, k.isBuiltin) (hs : R.view.scope s)
    (hown : own s) :
    R.Ran own s σ τ (runItems (Code.eval host n) s items σ)
      (Fexpr.runItems (Code.eval host' n) (R.place s) items τ) :=
  ran_of_related hστ ((Zoning.evaluators_eval host host' n).runItems (z := ())
    ⟨rfl, hs, .inl hown, And.right⟩ (Code.forall₂_alike.mpr ⟨rfl, hitems⟩))

theorem number_inj_id (V : View) {i j : Nat} (_ : V.function i) (_ : V.function j)
    (h : id i = id j) : i = j := h

def refl (V : View) : Relocation := ⟨V, id, id, fun _ _ => id, number_inj_id V⟩

theorem stores_refl {V : View} (hV : V.Covers Code.OnlyBuiltins σ) : (refl V).Stores σ σ := by
  have htransfer : ∀ f : Frame, (refl V).transfer f = f := fun f =>
    transfer_eq_self (fun v _ => v.renumber_id) fun _ _ => rfl
  refine ⟨hV, ?_, ?_, fun _ _ _ => Iff.rfl, fun _ => rfl, fun _ => rfl⟩
  · intro t _
    rw [funext htransfer]
    exact (congrFun Option.map_id _).symm
  · intro i _
    exact (congrFun Option.map_id _).symm

end Relocation

end Fexpr
