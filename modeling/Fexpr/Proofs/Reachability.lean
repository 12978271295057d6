import Fexpr.Proofs.Chains
import Fexpr.Proofs.LoweredCode

/-!
# What a run can get at

A run gets at the frames around its scope, through functions bound there at the frames around the
scopes which these have captured, and so on. What it makes itself it gets at as well. No step leads
out of what can be got at.
-/

namespace Fexpr

def Keyword.isBuiltin : Keyword → Bool
  | builtin _ _ => true
  | host _ _ => false

def Body.keywords (b : Body) : List Keyword := Code.keywordsAll b.items

namespace Bindings

variable {α : Type} {b : Bindings α} {name : String} {a x : α}

def values (b : Bindings α) : List α := b.entries.map (·.2)

theorem mem_values_of_find? (h : b.find? name = some a) : a ∈ b.values := by
  obtain ⟨entry, hentry, rfl⟩ := Option.map_eq_some_iff.mp h
  exact List.mem_map_of_mem (List.mem_of_find?_eq_some hentry)

theorem mem_values_insertEntry {es : List (String × α)}
    (h : x ∈ (insertEntry name a es).map (·.2)) : x = a ∨ x ∈ es.map (·.2) := by
  induction es with
  | nil =>
    left
    simpa [insertEntry] using h
  | cons e es ih =>
    obtain ⟨n, y⟩ := e
    rw [insertEntry] at h
    split at h
    · rw [List.map_cons, List.mem_cons] at h
      exact h.imp_right (List.mem_cons_of_mem _)
    · rw [List.map_cons, List.mem_cons] at h
      rcases h with rfl | h
      · exact .inr List.mem_cons_self
      · exact (ih h).imp_right (List.mem_cons_of_mem _)

theorem mem_values_insert (h : x ∈ (b.insert name a).values) : x = a ∨ x ∈ b.values :=
  mem_values_insertEntry h

end Bindings

def Value.keyword? : Value → Option Keyword
  | keyword k => some k
  | _ => none

def Outer.keywords : Outer → List Keyword
  | root keywords => keywords.values
  | child _ => []

def Frame.keywords (f : Frame) : List Keyword :=
  f.outer.keywords ++ f.bindings.values.filterMap Value.keyword?

namespace Store

variable {σ : Store} {s t u : Scope}

theorem mem_chain_self {f : Frame} (h : σ.frame? s = some f) : s ∈ σ.chain s := by
  cases ho : f.outer with
  | root keywords => simp [chain_of_root h ho]
  | child parent =>
    rw [chain_of_child h ho]
    split <;> simp

theorem chain_induction {motive : Scope → Prop} {s t : Scope} (ht : t ∈ σ.chain s)
    (self : motive s)
    (step : ∀ u f parent, σ.frame? u = some f → f.outer = .child parent →
      parent.index < u.index → motive u → motive parent) : motive t := by
  cases hf : σ.frame? s with
  | none => simp [chain_of_none hf] at ht
  | some f =>
    by_cases hts : t = s
    · exact hts ▸ self
    cases ho : f.outer with
    | root keywords => simp [chain_of_root hf ho, hts] at ht
    | child parent =>
      rw [chain_of_child hf ho] at ht
      split at ht
      · have hlt : parent.index < s.index := ‹_›
        have ht := (List.mem_cons.mp ht).resolve_left hts
        exact chain_induction ht (step s f parent hf ho hlt self) step
      · simp [hts] at ht
termination_by s.index

theorem mem_chain_trans (ht : t ∈ σ.chain s) (hu : u ∈ σ.chain t) : u ∈ σ.chain s := by
  revert hu
  apply chain_induction (motive := fun t => u ∈ σ.chain t → u ∈ σ.chain s) ht
  · exact id
  · intro t f parent hf ho hlt ih hu
    apply ih
    rw [chain_of_child hf ho, if_pos hlt]
    exact List.mem_cons_of_mem _ hu

/-- The frames around a scope, and those around what a function bound in such a frame has
captured. -/
inductive Reaches (σ : Store) (s : Scope) : Scope → Prop where
  | chain {t : Scope} (ht : t ∈ σ.chain s) : Reaches σ s t
  | captured {t u : Scope} {i : Nat} {f : Function} (ht : Reaches σ s t)
    (hi : .function i ∈ (σ.bindings t).values) (hf : σ.function? i = some f)
    (hu : u ∈ σ.chain f.captured) : Reaches σ s u

theorem Reaches.trans_chain (ht : σ.Reaches s t) (hu : u ∈ σ.chain t) : σ.Reaches s u := by
  cases ht with
  | chain ht => exact .chain (mem_chain_trans ht hu)
  | captured hr hi hf ht => exact .captured hr hi hf (mem_chain_trans ht hu)

structure KnowsOnlyBuiltins (σ : Store) (s : Scope) : Prop where
  frames : ∀ {t : Scope} {f : Frame}, σ.Reaches s t → σ.frame? t = some f →
    ∀ k ∈ f.keywords, k.isBuiltin
  functions : ∀ {t : Scope} {i : Nat} {f : Function}, σ.Reaches s t →
    .function i ∈ (σ.bindings t).values → σ.function? i = some f →
    ∀ k ∈ f.body.keywords, k.isBuiltin

theorem knowsOnlyBuiltins_of_forall (hframes : ∀ f ∈ σ.frames, ∀ k ∈ f.keywords, k.isBuiltin)
    (hfunctions : ∀ f ∈ σ.functions, ∀ k ∈ f.body.keywords, k.isBuiltin) (s : Scope) :
    σ.KnowsOnlyBuiltins s :=
  ⟨fun _ hf => hframes _ (Array.mem_of_getElem? hf),
    fun _ _ hf => hfunctions _ (Array.mem_of_getElem? hf)⟩

variable {f g : Frame} {name : String} {v : Value}

theorem frame?_declare_eq_some (h : (σ.declare s name v).frame? t = some g) :
    ∃ f, σ.frame? t = some f ∧ g.outer = f.outer ∧
      (g.bindings = f.bindings ∨ t = s ∧ g.bindings = f.bindings.insert name v) := by
  rw [frame?_declare] at h
  split at h
  · obtain ⟨f, hf, rfl⟩ := Option.map_eq_some_iff.mp h
    exact ⟨f, hf, rfl, .inr ⟨‹s = t›.symm, rfl⟩⟩
  · exact ⟨g, h, rfl, .inl rfl⟩

theorem forall_values_declare {P : Value → Prop} (hv : P v)
    (h : (σ.declare s name v).frame? t = some g) :
    ∃ f, σ.frame? t = some f ∧ g.outer = f.outer ∧
      ((∀ x ∈ f.bindings.values, P x) → ∀ x ∈ g.bindings.values, P x) := by
  obtain ⟨f, hf, houter, hbindings⟩ := frame?_declare_eq_some h
  refine ⟨f, hf, houter, fun hP => ?_⟩
  rcases hbindings with hbindings | ⟨-, hbindings⟩
  · rwa [hbindings]
  · rw [hbindings]
    intro x hx
    rcases Bindings.mem_values_insert hx with rfl | hx
    · exact hv
    · exact hP x hx

theorem frame?_addFrame_eq_some (h : (σ.addFrame f).2.frame? t = some g) :
    σ.frame? t = some g ∨ t = (σ.addFrame f).1 ∧ g = f := by
  rw [frame?_addFrame] at h
  split at h
  · rename_i ht
    cases h
    exact .inr ⟨by rw [addFrame, ← ht], rfl⟩
  · exact .inl h

theorem lt_size_of_frame? (h : σ.frame? t = some f) : t.index < σ.frames.size :=
  (Array.getElem?_eq_some_iff.mp h).1

end Store

structure View where
  scope : Scope → Prop
  function : Nat → Prop

namespace View

variable (V : View)

/-- Values that lead to nothing outside, and to no keywords but built-in ones. -/
def Holds : Value → Prop
  | .function i => V.function i
  | .keyword k => k.isBuiltin
  | _ => True

structure Frames (t : Scope) (f : Frame) : Prop where
  values : ∀ v ∈ f.bindings.values, V.Holds v
  parent : ∀ p, f.outer = .child p → p.index < t.index → V.scope p
  keywords : ∀ k ∈ f.outer.keywords, k.isBuiltin

structure Closed (σ : Store) : Prop where
  frame : ∀ {t : Scope} {f : Frame}, V.scope t → σ.frame? t = some f → V.Frames t f
  captured : ∀ {i : Nat} {f : Function}, V.function i → σ.function? i = some f →
    V.scope f.captured

namespace Closed

variable {V} {σ : Store} {s t : Scope} {name : String} {v : Value}

theorem chain (hσ : V.Closed σ) (hs : V.scope s) (ht : t ∈ σ.chain s) : V.scope t :=
  Store.chain_induction ht hs fun _ _ parent hf ho hlt hu => (hσ.frame hu hf).parent parent ho hlt

theorem reaches (hσ : V.Closed σ) (hs : V.scope s) (ht : σ.Reaches s t) : V.scope t := by
  induction ht with
  | chain ht => exact hσ.chain hs ht
  | @captured t u i f _ hi hf hu ih =>
    cases hg : σ.frame? t with
    | none =>
      rw [Store.bindings, hg] at hi
      cases hi
    | some g =>
      rw [Store.bindings_of_some hg] at hi
      exact hσ.chain (hσ.captured ((hσ.frame ih hg).values _ hi) hf) hu

theorem binder (hσ : V.Closed σ) (hs : V.scope s) (ht : σ.binder? s name = some t) :
    V.scope t :=
  hσ.chain hs (List.mem_of_find?_eq_some ht)

theorem lookup (hσ : V.Closed σ) (hs : V.scope s) (hv : σ.lookup s name = some v) : V.Holds v := by
  rw [Store.lookup] at hv
  split at hv
  · rename_i t ht
    rw [Store.lookupLocal, Store.bindings] at hv
    split at hv
    · rename_i f hf
      exact (hσ.frame (hσ.binder hs ht) hf).values v (Bindings.mem_values_of_find? hv)
    · cases hv
  · obtain ⟨k, hk, rfl⟩ := Option.map_eq_some_iff.mp hv
    rw [Store.keyword?, Store.keywords] at hk
    split at hk
    · cases hk
    · rename_i root hroot
      split at hk
      · rename_i bindings keywords hf
        have hvisible := hσ.chain hs (List.mem_of_getLast? hroot)
        exact (hσ.frame hvisible hf).keywords k (Bindings.mem_values_of_find? hk)
      · cases hk

theorem declare (hσ : V.Closed σ) (hv : V.Holds v) : V.Closed (σ.declare s name v) := by
  refine ⟨?_, hσ.captured⟩
  intro t g ht hg
  obtain ⟨f, hf, houter, hkeeps⟩ := Store.forall_values_declare hv hg
  obtain ⟨hvalues, hparent, hkeywords⟩ := hσ.frame ht hf
  exact ⟨hkeeps hvalues, houter ▸ hparent, houter ▸ hkeywords⟩

theorem addFrame {f : Frame} (hσ : V.Closed σ) (hf : V.Frames (σ.addFrame f).1 f) :
    V.Closed (σ.addFrame f).2 := by
  refine ⟨?_, hσ.captured⟩
  intro t g ht hg
  rcases Store.frame?_addFrame_eq_some hg with hg | ⟨rfl, rfl⟩
  · exact hσ.frame ht hg
  · exact hf

theorem addChild (hσ : V.Closed σ) (hs : V.scope s) : V.Closed (σ.addChild s).2 := by
  apply hσ.addFrame
  refine ⟨?_, ?_, ?_⟩
  · intro v hv
    cases hv
  · rintro p ⟨⟩ -
    exact hs
  · intro k hk
    cases hk

theorem addFunction {f : Function} (hσ : V.Closed σ) (hf : V.scope f.captured) :
    V.Closed (σ.addFunction f).2 := by
  refine ⟨hσ.frame, ?_⟩
  intro i g hi hg
  rw [Store.function?_addFunction] at hg
  split at hg
  · cases hg
    exact hf
  · exact hσ.captured hi hg

end Closed

end View

namespace Store

variable {σ : Store} {s t : Scope}

/-- What can be got at from a scope, and all that is yet to be made. -/
def viewFrom (σ : Store) (s : Scope) : View where
  scope t := σ.Reaches s t ∨ σ.frames.size ≤ t.index
  function i := (∃ t, σ.Reaches s t ∧ .function i ∈ (σ.bindings t).values) ∨ σ.functions.size ≤ i

theorem viewFrom_scope (h : ∀ f, σ.frame? t = some f → σ.Reaches s t) :
    (σ.viewFrom s).scope t := by
  cases hf : σ.frame? t with
  | none => exact .inr (Array.getElem?_eq_none_iff.mp hf)
  | some f => exact .inl (h f hf)

theorem viewFrom_self : (σ.viewFrom s).scope s :=
  viewFrom_scope fun _ hf => .chain (mem_chain_self hf)

theorem reaches_of_viewFrom {f : Frame} (ht : (σ.viewFrom s).scope t) (hf : σ.frame? t = some f) :
    σ.Reaches s t :=
  ht.resolve_right (Nat.not_le_of_lt (lt_size_of_frame? hf))

theorem exists_binding_of_viewFrom {i : Nat} {f : Function} (hi : (σ.viewFrom s).function i)
    (hf : σ.function? i = some f) :
    ∃ t, σ.Reaches s t ∧ .function i ∈ (σ.bindings t).values :=
  hi.resolve_right (Nat.not_le_of_lt (Array.getElem?_eq_some_iff.mp hf).1)

theorem KnowsOnlyBuiltins.code {i : Nat} {f : Function} (h : σ.KnowsOnlyBuiltins s)
    (hi : (σ.viewFrom s).function i) (hf : σ.function? i = some f) :
    ∀ k ∈ f.body.keywords, k.isBuiltin := by
  obtain ⟨t, ht, hbound⟩ := exists_binding_of_viewFrom hi hf
  exact h.functions ht hbound hf

theorem closed_viewFrom (h : σ.KnowsOnlyBuiltins s) : (σ.viewFrom s).Closed σ := by
  refine ⟨?_, ?_⟩
  · intro t f ht hf
    have hreaches := reaches_of_viewFrom ht hf
    have hkeywords := h.frames hreaches hf
    refine ⟨?_, ?_, ?_⟩
    · intro v hv
      cases v with
      | function i =>
        left
        exact ⟨t, hreaches, by rwa [bindings_of_some hf]⟩
      | keyword k =>
        apply hkeywords
        exact List.mem_append_right _ (List.mem_filterMap.mpr ⟨_, hv, rfl⟩)
      | null | number | string | boolean | host => trivial
    · intro p ho hlt
      apply viewFrom_scope
      intro g hg
      apply hreaches.trans_chain
      rw [chain_of_child hf ho, if_pos hlt]
      exact List.mem_cons_of_mem _ (mem_chain_self hg)
    · intro k hk
      exact hkeywords k (List.mem_append_left _ hk)
  · intro i f hi hf
    obtain ⟨t, ht, hbound⟩ := exists_binding_of_viewFrom hi hf
    apply viewFrom_scope
    intro g hg
    exact .captured ht hbound hf (mem_chain_self hg)

end Store

end Fexpr
