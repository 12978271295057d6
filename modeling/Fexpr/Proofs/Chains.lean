import Fexpr.Store.Basic

/-!
# Chains of scopes, frame by frame

Looking a name up and finding the scope that binds it go through the chain of a scope. Both can be
done one frame at a time: in the frame of the scope itself, and then in its parent.
-/

namespace Fexpr.Store

variable {σ : Store} {s : Scope}

theorem chain_of_none (h : σ.frame? s = none) : σ.chain s = [] := by
  rw [chain, h]

theorem chain_of_root {f : Frame} {keywords : Keywords} (h : σ.frame? s = some f)
    (ho : f.outer = .root keywords) : σ.chain s = [s] := by
  rw [chain, h]
  simp only [ho]

theorem chain_of_child {f : Frame} {parent : Scope} (h : σ.frame? s = some f)
    (ho : f.outer = .child parent) :
    σ.chain s = if parent.index < s.index then s :: σ.chain parent else [s] := by
  rw [chain, h]
  simp only [ho]

theorem bindings_of_some {f : Frame} (h : σ.frame? s = some f) : σ.bindings s = f.bindings := by
  rw [bindings, h]

theorem binder?_eq (σ : Store) (s : Scope) (name : String) :
    σ.binder? s name = match σ.frame? s with
      | none => none
      | some f =>
        match f.bindings.find? name, f.outer with
        | some _, _ => some s
        | none, .root _ => none
        | none, .child parent =>
          if parent.index < s.index then σ.binder? parent name else none := by
  unfold binder?
  cases hf : σ.frame? s with
  | none => rw [chain_of_none hf]; rfl
  | some f =>
    have hs : (σ.bindings s).contains name = (f.bindings.find? name).isSome := by
      rw [bindings_of_some hf, Bindings.contains]
    cases ho : f.outer with
    | root keywords =>
      rw [chain_of_root hf ho, List.find?_singleton, hs]
      cases hv : f.bindings.find? name <;> simp [hv, ho]
    | child parent =>
      rw [chain_of_child hf ho]
      by_cases hlt : parent.index < s.index
      · rw [if_pos hlt, List.find?_cons, hs]
        cases hv : f.bindings.find? name <;> simp [hv, ho, hlt]
      · rw [if_neg hlt, List.find?_singleton, hs]
        cases hv : f.bindings.find? name <;> simp [hv, ho, hlt]

theorem mem_names_of_binder? {t : Scope} {name : String} (h : σ.binder? s name = some t) :
    name ∈ (σ.bindings t).names := by
  have hcontains : (σ.bindings t).contains name = true := by simpa using List.find?_some h
  obtain ⟨a, ha⟩ := Option.isSome_iff_exists.mp hcontains
  exact Bindings.mem_names_of_find? ha

theorem keywords_eq (σ : Store) (s : Scope) :
    σ.keywords s = match σ.frame? s with
      | none => .empty
      | some f =>
        match f.outer with
        | .root keywords => keywords
        | .child parent => if parent.index < s.index then σ.keywords parent else .empty := by
  unfold keywords
  cases hf : σ.frame? s with
  | none => rw [chain_of_none hf]; rfl
  | some f =>
    obtain ⟨bindings, outer⟩ := f
    cases outer with
    | root keywords =>
      rw [chain_of_root hf rfl]
      simp only [List.getLast?_singleton, hf]
    | child parent =>
      rw [chain_of_child hf rfl]
      by_cases hlt : parent.index < s.index
      · simp only [if_pos hlt]
        cases hc : σ.chain parent with
        | nil => simp only [List.getLast?_singleton, hf, List.getLast?_nil]
        | cons t ts => rw [List.getLast?_cons_cons]
      · simp only [if_neg hlt, List.getLast?_singleton, hf]

theorem lookup_eq (σ : Store) (s : Scope) (name : String) :
    σ.lookup s name = match σ.frame? s with
      | none => none
      | some f =>
        match f.bindings.find? name, f.outer with
        | some v, _ => some v
        | none, .root keywords => (keywords.find? name).map .keyword
        | none, .child parent =>
          if parent.index < s.index then σ.lookup parent name else none := by
  unfold lookup
  rw [binder?_eq, keyword?, keywords_eq]
  cases hf : σ.frame? s with
  | none => rfl
  | some f =>
    cases hv : f.bindings.find? name with
    | some v => simp only [hv, lookupLocal, bindings_of_some hf]
    | none =>
      cases ho : f.outer with
      | root keywords => simp only [hv, ho]
      | child parent =>
        by_cases hlt : parent.index < s.index
        · simp only [hv, ho, if_pos hlt, keyword?]
        · simp only [hv, ho, if_neg hlt]
          rfl

/-- The answer of the first frame outwards that binds a name, or else of the root. -/
def ascend {α : Type} (σ : Store) (name : String) (found : Scope → Value → α)
    (root : Keywords → Option α) (s : Scope) : Option α :=
  match σ.frame? s with
  | none => none
  | some f =>
    match f.bindings.find? name, f.outer with
    | some v, _ => some (found s v)
    | none, .root keywords => root keywords
    | none, .child parent =>
      if parent.index < s.index then σ.ascend name found root parent else none
termination_by s.index

/-- Whatever goes outwards frame by frame is `ascend`. -/
theorem eq_ascend {α : Type} {name : String} {found : Scope → Value → α}
    {root : Keywords → Option α} {g : Scope → Option α}
    (hg : ∀ s, g s = match σ.frame? s with
      | none => none
      | some f =>
        match f.bindings.find? name, f.outer with
        | some v, _ => some (found s v)
        | none, .root keywords => root keywords
        | none, .child parent => if parent.index < s.index then g parent else none)
    (s : Scope) : g s = σ.ascend name found root s := by
  rw [hg, ascend]
  cases σ.frame? s with
  | none => rfl
  | some f =>
    obtain ⟨bindings, outer⟩ := f
    cases hv : bindings.find? name with
    | some v => simp only [hv]
    | none =>
      cases outer with
      | root keywords => simp only [hv]
      | child parent =>
        simp only [hv]
        split
        · exact eq_ascend hg parent
        · rfl
termination_by s.index

theorem lookup_eq_ascend (σ : Store) (s : Scope) (name : String) :
    σ.lookup s name =
      σ.ascend name (fun _ v => v) (fun keywords => (keywords.find? name).map .keyword) s :=
  eq_ascend (fun s => σ.lookup_eq s name) s

theorem binder?_eq_ascend (σ : Store) (s : Scope) (name : String) :
    σ.binder? s name = σ.ascend name (fun t _ => t) (fun _ => none) s :=
  eq_ascend (fun s => σ.binder?_eq s name) s

theorem lookup_of_frames {τ : Store} (h : τ.frames = σ.frames) (s : Scope) (name : String) :
    τ.lookup s name = σ.lookup s name := by
  rw [σ.lookup_eq_ascend]
  refine eq_ascend (g := (τ.lookup · name)) (fun s => ?_) s
  rw [lookup_eq, frame?, h]
  rfl

theorem binder?_of_frames {τ : Store} (h : τ.frames = σ.frames) (s : Scope) (name : String) :
    τ.binder? s name = σ.binder? s name := by
  rw [σ.binder?_eq_ascend]
  refine eq_ascend (g := (τ.binder? · name)) (fun s => ?_) s
  rw [binder?_eq, frame?, h]
  rfl

theorem function?_addFunction (σ : Store) (f : Function) (i : Nat) :
    (σ.addFunction f).2.function? i = if i = σ.functions.size then some f else σ.function? i := by
  simp only [addFunction, function?, Array.getElem?_push]

end Fexpr.Store
