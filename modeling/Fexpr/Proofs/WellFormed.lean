import Fexpr.Proofs.Relocation

/-!
# Well-formed stores

In a well-formed store every frame lies in an older one, and whatever is held somewhere exists. The
ways outwards are then finite: loops that follow the parents, with nothing to stop them but a frame
that has none, come to an end from every scope.
-/

namespace Fexpr

def Outer.parent? : Outer → Option Scope
  | root _ => none
  | child parent => some parent

def Outer.table? : Outer → Option Keywords
  | root keywords => some keywords
  | child _ => none

theorem Outer.isSome_table?_iff (o : Outer) : o.table?.isSome ↔ o.parent? = none := by
  cases o <;> simp [table?, parent?]

theorem Outer.eq_child_of_parent? {o : Outer} {p : Scope} (h : o.parent? = some p) :
    o = .child p := by
  cases o with
  | root keywords => cases h
  | child q =>
    cases h
    rfl

namespace Store

def Knows (σ : Store) : Value → Prop
  | .function i => i < σ.functions.size
  | _ => True

structure WellFormed (σ : Store) : Prop extends σ.Grounded where
  names : ∀ {t : Scope} {f : Frame}, σ.frame? t = some f → f.bindings.names.Nodup
  known : ∀ {t : Scope} {f : Frame} {v : Value}, σ.frame? t = some f → v ∈ f.bindings.values →
    σ.Knows v

variable {σ τ υ : Store} {s t : Scope} {v : Value} {name : String}

theorem Grows.knows (h : σ.Grows τ) (hv : σ.Knows v) : τ.Knows v := by
  cases v with
  | function i => exact Nat.lt_of_lt_of_le hv h.functions
  | null | number | string | boolean | keyword | host => trivial

theorem grows_note (σ : Store) (line : String) : σ.Grows (σ.note line) :=
  ⟨Nat.le_refl _, Nat.le_refl _⟩

theorem frame?_addFrame_self (σ : Store) (f : Frame) :
    (σ.addFrame f).2.frame? (σ.addFrame f).1 = some f := by
  rw [frame?_addFrame]
  exact if_pos rfl

theorem has_addFrame (σ : Store) (f : Frame) : (σ.addFrame f).2.Has (σ.addFrame f).1 := by
  simp only [Has, addFrame, Array.size_push, Nat.lt_succ_self]

theorem knows_addFunction (σ : Store) (f : Function) :
    (σ.addFunction f).2.Knows (σ.addFunction f).1 := by
  simp only [Knows, addFunction, Array.size_push, Nat.lt_succ_self]

namespace WellFormed

theorem empty : Store.empty.WellFormed where
  toGrounded := .empty
  names hf := by cases hf
  known hf := by cases hf

theorem note (hσ : σ.WellFormed) (line : String) : (σ.note line).WellFormed where
  parent := hσ.parent
  captured := hσ.captured
  names := hσ.names
  known := hσ.known

theorem declare (hσ : σ.WellFormed) (hv : σ.Knows v) (s : Scope) (name : String) :
    (σ.declare s name v).WellFormed where
  toGrounded := hσ.toGrounded.declare s name v
  names {t g} hg := by
    obtain ⟨f, hf, -, hbindings⟩ := frame?_declare_eq_some hg
    rcases hbindings with hbindings | ⟨-, hbindings⟩
    · rw [hbindings]
      exact hσ.names hf
    · rw [hbindings]
      exact Bindings.nodup_names_insert (hσ.names hf) name v
  known {t g x} hg hx := by
    apply (σ.grows_declare s name v).knows
    obtain ⟨f, hf, -, hkeeps⟩ := forall_values_declare hv hg
    exact hkeeps (fun _ => hσ.known hf) x hx

theorem assign (hσ : σ.WellFormed) (hv : σ.Knows v) (h : σ.assign? s name v = some τ) :
    τ.WellFormed := by
  obtain ⟨t, -, rfl⟩ := Option.map_eq_some_iff.mp h
  exact hσ.declare hv t name

theorem addFrame {f : Frame} (hσ : σ.WellFormed) (hparent : ∀ p, f.outer = .child p → σ.Has p)
    (hnames : f.bindings.names.Nodup) (hknown : ∀ v ∈ f.bindings.values, σ.Knows v) :
    (σ.addFrame f).2.WellFormed where
  toGrounded := hσ.toGrounded.addFrame hparent
  names {t g} hg := by
    rcases frame?_addFrame_eq_some hg with hg | ⟨-, rfl⟩
    · exact hσ.names hg
    · exact hnames
  known {t g v} hg hv := by
    apply (σ.grows_addFrame f).knows
    rcases frame?_addFrame_eq_some hg with hg | ⟨-, rfl⟩
    · exact hσ.known hg hv
    · exact hknown v hv

theorem addChild (hσ : σ.WellFormed) (hs : σ.Has s) : (σ.addChild s).2.WellFormed := by
  apply hσ.addFrame
  · rintro p ⟨⟩
    exact hs
  · exact List.nodup_nil
  · intro v hv
    cases hv

theorem addFunction {f : Function} (hσ : σ.WellFormed) (hf : σ.Has f.captured) :
    (σ.addFunction f).2.WellFormed where
  toGrounded := hσ.toGrounded.addFunction hf
  names := hσ.names
  known hg hv := (σ.grows_addFunction f).knows (hσ.known hg hv)

theorem has_parent (hσ : σ.WellFormed) {f : Frame} {p : Scope} (hf : σ.frame? t = some f)
    (ho : f.outer = .child p) : σ.Has p :=
  Nat.lt_trans (hσ.parent hf ho) (lt_size_of_frame? hf)

theorem knows_lookupLocal (hσ : σ.WellFormed) (h : σ.lookupLocal s name = some v) :
    σ.Knows v := by
  rw [lookupLocal, bindings] at h
  split at h
  · rename_i f hf
    exact hσ.known hf (Bindings.mem_values_of_find? h)
  · cases h

theorem knows_lookup (hσ : σ.WellFormed) (h : σ.lookup s name = some v) : σ.Knows v := by
  rw [lookup] at h
  split at h
  · exact hσ.knows_lookupLocal h
  · obtain ⟨k, -, rfl⟩ := Option.map_eq_some_iff.mp h
    trivial

theorem exists_function (hσ : σ.WellFormed) {f : Frame} {i : Nat} (hf : σ.frame? t = some f)
    (hi : .function i ∈ f.bindings.values) :
    ∃ g, σ.function? i = some g ∧ σ.Has g.captured := by
  have hlt : i < σ.functions.size := hσ.known hf hi
  have hg : σ.function? i = some σ.functions[i] := Array.getElem?_eq_getElem hlt
  exact ⟨_, hg, hσ.captured hg⟩

theorem inwards (hσ : σ.WellFormed) {motive : (s : Scope) → σ.Has s → Prop}
    (root : ∀ s hs f keywords, σ.frame? s = some f → f.outer = .root keywords → motive s hs)
    (child : ∀ s hs f p hp, σ.frame? s = some f → f.outer = .child p → motive p hp → motive s hs)
    (s : Scope) (hs : σ.Has s) : motive s hs := by
  obtain ⟨f, hf⟩ := hs.frame?
  cases ho : f.outer with
  | root keywords => exact root s hs f keywords hf ho
  | child p =>
    have hlt := hσ.parent hf ho
    have hp := hσ.has_parent hf ho
    exact child s hs f p hp hf ho (inwards hσ root child p hp)
termination_by s.index

theorem chain_of_child (hσ : σ.WellFormed) {f : Frame} {p : Scope} (hf : σ.frame? s = some f)
    (ho : f.outer = .child p) : σ.chain s = s :: σ.chain p := by
  rw [Store.chain_of_child hf ho, if_pos (hσ.parent hf ho)]

theorem chain_ne_nil (hs : σ.Has s) : σ.chain s ≠ [] := by
  obtain ⟨f, hf⟩ := hs.frame?
  exact List.ne_nil_of_mem (mem_chain_self hf)

theorem depth_of_child (hσ : σ.WellFormed) {f : Frame} {p : Scope} (hf : σ.frame? s = some f)
    (ho : f.outer = .child p) : σ.depth s = σ.depth p + 1 := by
  have hpos := List.length_pos_iff.mpr (chain_ne_nil (hσ.has_parent hf ho))
  rw [depth, depth, hσ.chain_of_child hf ho, List.length_cons]
  omega

theorem depth_addChild (hσ : σ.WellFormed) (hs : σ.Has s) :
    (σ.addChild s).2.depth (σ.addChild s).1 = σ.depth s + 1 := by
  have hframe : (σ.addChild s).2.frame? (σ.addChild s).1 = some ⟨.empty, .child s⟩ :=
    σ.frame?_addFrame_self _
  rw [(hσ.addChild hs).depth_of_child hframe rfl, depth, depth, Store.addChild,
    chain_addFrame (Nat.ne_of_lt hs)]

end WellFormed

end Store

/-- The run of a loop, whose body gives the next state or else the result. -/
inductive Loop {α β : Type} (body : α → α ⊕ β) : α → β → Prop where
  | done {a : α} {b : β} (h : body a = .inr b) : Loop body a b
  | next {a a' : α} {b : β} (h : body a = .inl a') (rest : Loop body a' b) : Loop body a b

namespace Store

variable {σ : Store} {s : Scope}

def seek {α : Type} (σ : Store) (name : String) (found : Scope → Value → α)
    (root : Keywords → Option α) (s : Scope) : Scope ⊕ Option α :=
  match σ.frame? s with
  | none => .inr none
  | some f =>
    match f.bindings.find? name, f.outer with
    | some v, _ => .inr (some (found s v))
    | none, .root keywords => .inr (root keywords)
    | none, .child parent => .inl parent

def lookupBody (σ : Store) (name : String) : Scope → Scope ⊕ Option Value :=
  σ.seek name (fun _ v => v) fun keywords => (keywords.find? name).map .keyword

def assignBody (σ : Store) (name : String) (v : Value) : Scope → Scope ⊕ Option Store :=
  σ.seek name (fun t _ => σ.declare t name v) fun _ => none

def parent? (σ : Store) (s : Scope) : Option Scope := (σ.frame? s).bind (·.outer.parent?)

def rootBody (σ : Store) (s : Scope) : Scope ⊕ Scope :=
  match σ.parent? s with
  | some parent => .inl parent
  | none => .inr s

def depthBody (σ : Store) : Option Scope × Nat → (Option Scope × Nat) ⊕ Nat
  | (some s, count) => .inl (σ.parent? s, count + 1)
  | (none, count) => .inr count

theorem parent?_of_root {f : Frame} {keywords : Keywords} (hf : σ.frame? s = some f)
    (ho : f.outer = .root keywords) : σ.parent? s = none := by
  rw [parent?, hf, Option.bind_some, ho, Outer.parent?]

theorem parent?_of_child {f : Frame} {p : Scope} (hf : σ.frame? s = some f)
    (ho : f.outer = .child p) : σ.parent? s = some p := by
  rw [parent?, hf, Option.bind_some, ho, Outer.parent?]

theorem assign?_eq_ascend (σ : Store) (s : Scope) (name : String) (v : Value) :
    σ.assign? s name v = σ.ascend name (fun t _ => σ.declare t name v) (fun _ => none) s := by
  apply eq_ascend (g := (σ.assign? · name v))
  intro s
  rw [assign?, binder?_eq]
  cases σ.frame? s with
  | none => rfl
  | some f =>
    obtain ⟨bindings, outer⟩ := f
    cases hv : bindings.find? name with
    | some x => simp only [hv, Option.map_some]
    | none =>
      cases outer with
      | root keywords => simp only [hv, Option.map_none]
      | child p =>
        simp only [hv]
        split <;> rfl

namespace WellFormed

variable {α : Type}

theorem loop_seek (hσ : σ.WellFormed) (hs : σ.Has s) (name : String) (found : Scope → Value → α)
    (root : Keywords → Option α) :
    Loop (σ.seek name found root) s (σ.ascend name found root s) := by
  induction s, hs using hσ.inwards with
  | root s _ f keywords hf ho =>
    rw [ascend, hf]
    apply Loop.done
    rw [seek, hf]
    cases hv : f.bindings.find? name <;> simp only [hv, ho]
  | child s _ f p _ hf ho ih =>
    rw [ascend, hf]
    cases hv : f.bindings.find? name with
    | some v =>
      apply Loop.done
      simp only [seek, hf, hv]
    | none =>
      have hnext : σ.seek name found root s = .inl p := by simp only [seek, hf, hv, ho]
      simp only [hv, ho, if_pos (hσ.parent hf ho)]
      exact .next hnext ih

theorem loop_lookup (hσ : σ.WellFormed) (hs : σ.Has s) (name : String) :
    Loop (σ.lookupBody name) s (σ.lookup s name) := by
  rw [lookup_eq_ascend]
  exact hσ.loop_seek hs name _ _

theorem loop_assign (hσ : σ.WellFormed) (hs : σ.Has s) (name : String) (v : Value) :
    Loop (σ.assignBody name v) s (σ.assign? s name v) := by
  rw [assign?_eq_ascend]
  exact hσ.loop_seek hs name _ _

/-- The loop for the root ends at the last scope of the chain, which has the keywords and no
parent. -/
theorem loop_root (hσ : σ.WellFormed) (hs : σ.Has s) :
    ∃ r f, Loop σ.rootBody s r ∧ (σ.chain s).getLast? = some r ∧ σ.frame? r = some f ∧
      f.outer = .root (σ.keywords s) := by
  induction s, hs using hσ.inwards with
  | root s _ f keywords hf ho =>
    refine ⟨s, f, .done ?_, ?_, hf, ?_⟩
    · rw [rootBody, parent?_of_root hf ho]
    · rw [chain_of_root hf ho, List.getLast?_singleton]
    · simp only [keywords_eq, hf, ho]
  | child s _ f p _ hf ho ih =>
    obtain ⟨r, g, hloop, hlast, hg, hkeywords⟩ := ih
    refine ⟨r, g, .next ?_ hloop, ?_, hg, ?_⟩
    · rw [rootBody, parent?_of_child hf ho]
    · rw [hσ.chain_of_child hf ho, List.getLast?_cons, hlast]
      rfl
    · rw [hkeywords, keywords_eq σ s, hf]
      simp only [ho, if_pos (hσ.parent hf ho)]

theorem loop_depth (hσ : σ.WellFormed) (hs : σ.Has s) (count : Nat) :
    Loop σ.depthBody (σ.parent? s, count) (σ.depth s + count) := by
  -- the count is carried inwards, so it is not fixed
  induction s, hs using hσ.inwards generalizing count with
  | root s _ f keywords hf ho =>
    rw [parent?_of_root hf ho, depth, chain_of_root hf ho, List.length_singleton, Nat.sub_self,
      Nat.zero_add]
    exact .done rfl
  | child s _ f p _ hf ho ih =>
    rw [parent?_of_child hf ho, hσ.depth_of_child hf ho, Nat.add_right_comm, Nat.add_assoc]
    exact .next rfl (ih (count + 1))

end WellFormed

end Store

end Fexpr
