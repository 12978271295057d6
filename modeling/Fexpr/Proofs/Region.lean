import Mathlib.Data.Nat.Basic
import Mathlib.Order.Basic
import Fexpr.Program
import Fexpr.Proofs.Chains
import Fexpr.Proofs.Simulation

/-!
# Runs in frames of their own

Two runs that begin in unrelated stores and touch only what they make themselves: the frames and
functions made after the beginning are matched by their order, and what was there before stays as it
was. A world counts the frames and the functions made so far.
-/

namespace Fexpr

/-- Which names, places and keywords are matched, and the stores in which two runs begin. -/
structure Region where
  span : Span → Span → Prop
  name : String → String → Prop
  keyword : Keyword → Keyword → Prop
  name_inj : ∀ {m m' n n' : String}, name m m' → name n n' → (m = n ↔ m' = n')
  keyword_builtin : ∀ {k k' : Keyword}, keyword k k' →
    ∃ table table' b, k = .builtin table b ∧ k' = .builtin table' b
  keyword_inj : ∀ {k k' l l' : Keyword}, keyword k k' → keyword l l' → (k = l ↔ k' = l')
  left : Store
  right : Store

namespace Region

variable (ρ : Region)

def matching : Matching (Nat × Nat) where
  span := ρ.span
  name := ρ.name
  keyword := ρ.keyword
  scope w s s' := ∃ i < w.1, s = ⟨ρ.left.frames.size + i⟩ ∧ s' = ⟨ρ.right.frames.size + i⟩
  function w i i' := ∃ j < w.2, i = ρ.left.functions.size + j ∧ i' = ρ.right.functions.size + j

def Entries {α : Type} (V : α → α → Prop) (b b' : Bindings α) : Prop :=
  List.Forall₂ (fun e e' => ρ.name e.1 e'.1 ∧ V e.2 e'.2) b.entries b'.entries

variable {ρ}

namespace Entries

variable {α : Type} {V U : α → α → Prop} {b b' : Bindings α} {n n' : String}

theorem mono (hVU : ∀ a a', V a a' → U a a') (h : ρ.Entries V b b') : ρ.Entries U b b' :=
  h.imp fun _ _ ⟨hn, hv⟩ => ⟨hn, hVU _ _ hv⟩

theorem find? (h : ρ.Entries V b b') (hn : ρ.name n n') :
    Option.Rel V (b.find? n) (b'.find? n') := by
  obtain ⟨es⟩ := b
  obtain ⟨es'⟩ := b'
  simp only [Entries] at h
  induction h with
  | nil => exact .none
  | @cons e e' es es' he _ ih =>
    have heq := ρ.name_inj he.1 hn
    by_cases hen : e.1 = n
    · have h₁ : Bindings.find? ⟨e :: es⟩ n = some e.2 := by simp [Bindings.find?, hen]
      have h₂ : Bindings.find? ⟨e' :: es'⟩ n' = some e'.2 := by
        simp [Bindings.find?, heq.mp hen]
      rw [h₁, h₂]
      exact .some he.2
    · have hen' : ¬ e'.1 = n' := fun h => hen (heq.mpr h)
      have h₁ : Bindings.find? ⟨e :: es⟩ n = Bindings.find? ⟨es⟩ n := by
        simp [Bindings.find?, hen]
      have h₂ : Bindings.find? ⟨e' :: es'⟩ n' = Bindings.find? ⟨es'⟩ n' := by
        simp [Bindings.find?, hen']
      rw [h₁, h₂]
      exact ih

theorem insert {a a' : α} (h : ρ.Entries V b b') (hn : ρ.name n n') (ha : V a a') :
    ρ.Entries V (b.insert n a) (b'.insert n' a') := by
  obtain ⟨es⟩ := b
  obtain ⟨es'⟩ := b'
  simp only [Entries, Bindings.insert] at h ⊢
  induction h with
  | nil => exact .cons ⟨hn, ha⟩ .nil
  | @cons e e' es es' he hes ih =>
    have heq := ρ.name_inj he.1 hn
    rw [Bindings.insertEntry, Bindings.insertEntry]
    by_cases hen : e.1 = n
    · rw [if_pos hen, if_pos (heq.mp hen)]
      exact .cons ⟨he.1, ha⟩ hes
    · rw [if_neg hen, if_neg fun h => hen (heq.mpr h)]
      exact .cons he ih

end Entries

variable (ρ) in
inductive Outers (w : Nat × Nat) : Outer → Outer → Prop where
  | root {keywords keywords' : Keywords} (h : ρ.Entries ρ.keyword keywords keywords') :
    Outers w (.root keywords) (.root keywords')
  | child {s s' : Scope} (h : ρ.matching.scope w s s') : Outers w (.child s) (.child s')

variable (ρ) in
structure Frames (w : Nat × Nat) (f f' : Frame) : Prop where
  bindings : ρ.Entries (ρ.matching.Values w) f.bindings f'.bindings
  outer : ρ.Outers w f.outer f'.outer

variable (ρ) in
/-- What was made since the beginning is matched, and what was there before is as it was. -/
structure Stores (w : Nat × Nat) (σ τ : Store) : Prop where
  frames_left : σ.frames.size = ρ.left.frames.size + w.1
  frames_right : τ.frames.size = ρ.right.frames.size + w.1
  functions_left : σ.functions.size = ρ.left.functions.size + w.2
  functions_right : τ.functions.size = ρ.right.functions.size + w.2
  frame : ∀ i < w.1, Option.Rel (ρ.Frames w) (σ.frame? ⟨ρ.left.frames.size + i⟩)
    (τ.frame? ⟨ρ.right.frames.size + i⟩)
  function : ∀ i < w.2, Option.Rel (ρ.matching.Functions w)
    (σ.function? (ρ.left.functions.size + i)) (τ.function? (ρ.right.functions.size + i))
  kept_left : ∀ s : Scope, s.index < ρ.left.frames.size → σ.frame? s = ρ.left.frame? s
  kept_right : ∀ s : Scope, s.index < ρ.right.frames.size → τ.frame? s = ρ.right.frame? s
  kept_functions_left : ∀ i < ρ.left.functions.size, σ.function? i = ρ.left.function? i
  kept_functions_right : ∀ i < ρ.right.functions.size, τ.function? i = ρ.right.function? i

variable {w w' : Nat × Nat} {σ τ : Store} {s s' : Scope} {n n' : String}

theorem scope_mono (hle : w ≤ w') (h : ρ.matching.scope w s s') : ρ.matching.scope w' s s' := by
  obtain ⟨i, hi, hs⟩ := h
  exact ⟨i, Nat.lt_of_lt_of_le hi hle.1, hs⟩

theorem function_mono {i i' : Nat} (hle : w ≤ w') (h : ρ.matching.function w i i') :
    ρ.matching.function w' i i' := by
  obtain ⟨j, hj, hi⟩ := h
  exact ⟨j, Nat.lt_of_lt_of_le hj hle.2, hi⟩

theorem values_mono {v v' : Value} (hle : w ≤ w') (h : ρ.matching.Values w v v') :
    ρ.matching.Values w' v v' :=
  h.mono fun _ _ => function_mono hle

theorem functions_mono {f f' : Function} (hle : w ≤ w') (h : ρ.matching.Functions w f f') :
    ρ.matching.Functions w' f f' :=
  ⟨h.params, h.body, scope_mono hle h.captured⟩

theorem Outers.mono {o o' : Outer} (hle : w ≤ w') (h : ρ.Outers w o o') : ρ.Outers w' o o' := by
  cases h with
  | root h => exact .root h
  | child h => exact .child (scope_mono hle h)

theorem Frames.mono {f f' : Frame} (hle : w ≤ w') (h : ρ.Frames w f f') : ρ.Frames w' f f' :=
  ⟨h.bindings.mono fun _ _ => values_mono hle, h.outer.mono hle⟩

theorem rel_mono {α β : Type} {V U : α → β → Prop} {a : Option α} {b : Option β}
    (hVU : ∀ a b, V a b → U a b) (h : Option.Rel V a b) : Option.Rel U a b := by
  cases h with
  | none => exact .none
  | some h => exact .some (hVU _ _ h)

theorem ascend {α : Type} {V : α → α → Prop} {found found' : Scope → Value → α}
    {root root' : Keywords → Option α} (hστ : ρ.Stores w σ τ) (hs : ρ.matching.scope w s s')
    (hn : ρ.name n n')
    (hfound : ∀ s s' v v', ρ.matching.scope w s s' → ρ.matching.Values w v v' →
      V (found s v) (found' s' v'))
    (hroot : ∀ kw kw', ρ.Entries ρ.keyword kw kw' → Option.Rel V (root kw) (root' kw')) :
    Option.Rel V (σ.ascend n found root s) (τ.ascend n' found' root' s') := by
  obtain ⟨i, hi, rfl, rfl⟩ := hs
  -- parents are older, so the induction is on the place of the frame
  induction i using Nat.strongRecOn with
  | ind i ih =>
    have hf := hστ.frame i hi
    rw [Store.ascend, Store.ascend]
    generalize σ.frame? _ = o at hf
    generalize τ.frame? _ = o' at hf
    cases hf with
    | none => exact .none
    | @some f f' hf =>
      obtain ⟨bindings, outer⟩ := f
      obtain ⟨bindings', outer'⟩ := f'
      obtain ⟨hbindings, houter⟩ := hf
      have hv := hbindings.find? hn
      simp only at hv houter ⊢
      generalize bindings.find? n = b at hv
      generalize bindings'.find? n' = b' at hv
      cases hv with
      | some hv => exact .some (hfound _ _ _ _ ⟨i, hi, rfl, rfl⟩ hv)
      | none =>
        cases houter with
        | root hkeywords => exact hroot _ _ hkeywords
        | child hparent =>
          obtain ⟨j, hj, rfl, rfl⟩ := hparent
          simp only [Nat.add_lt_add_iff_left]
          split
          · exact ih j ‹_› hj
          · exact .none

theorem lookup (hστ : ρ.Stores w σ τ) (hs : ρ.matching.scope w s s') (hn : ρ.name n n') :
    Option.Rel (ρ.matching.Values w) (σ.lookup s n) (τ.lookup s' n') := by
  rw [Store.lookup_eq_ascend, Store.lookup_eq_ascend]
  refine ascend hστ hs hn (fun _ _ _ _ _ hv => hv) fun kw kw' hkw => ?_
  have hk := hkw.find? hn
  generalize kw.find? n = k at hk
  generalize kw'.find? n' = k' at hk
  cases hk with
  | none => exact .none
  | some hk => exact .some (.keyword hk)

theorem binder (hστ : ρ.Stores w σ τ) (hs : ρ.matching.scope w s s') (hn : ρ.name n n') :
    Option.Rel (ρ.matching.scope w) (σ.binder? s n) (τ.binder? s' n') := by
  rw [Store.binder?_eq_ascend, Store.binder?_eq_ascend]
  exact ascend hστ hs hn (fun _ _ _ _ ht _ => ht) fun _ _ _ => .none

theorem declare {v v' : Value} (hστ : ρ.Stores w σ τ) (hs : ρ.matching.scope w s s')
    (hn : ρ.name n n') (hv : ρ.matching.Values w v v') :
    ρ.Stores w (σ.declare s n v) (τ.declare s' n' v') := by
  obtain ⟨i, hi, rfl, rfl⟩ := hs
  refine ⟨?_, ?_, hστ.functions_left, hστ.functions_right, fun j hj => ?_, hστ.function,
    fun t ht => ?_, fun t ht => ?_, hστ.kept_functions_left, hστ.kept_functions_right⟩
  · rw [← hστ.frames_left, Store.declare, Array.size_modify]
  · rw [← hστ.frames_right, Store.declare, Array.size_modify]
  · have hf := hστ.frame j hj
    rw [Store.frame?_declare, Store.frame?_declare]
    by_cases hij : i = j
    · subst hij
      rw [if_pos rfl, if_pos rfl]
      generalize σ.frame? _ = o at hf
      generalize τ.frame? _ = o' at hf
      cases hf with
      | none => exact .none
      | some hf => exact .some ⟨hf.bindings.insert hn hv, hf.outer⟩
    · have hne : ∀ k, (⟨k + i⟩ : Scope) ≠ ⟨k + j⟩ := by
        intro k h
        exact hij (Nat.add_left_cancel (Scope.mk.inj h))
      rw [if_neg (hne _), if_neg (hne _)]
      exact hf
  · rw [Store.frame?_declare, if_neg, hστ.kept_left t ht]
    rintro rfl
    simp only at ht
    omega
  · rw [Store.frame?_declare, if_neg, hστ.kept_right t ht]
    rintro rfl
    simp only at ht
    omega

theorem addFrame {f f' : Frame} (hστ : ρ.Stores w σ τ) (hf : ρ.Frames (w.1 + 1, w.2) f f') :
    ρ.matching.scope (w.1 + 1, w.2) (σ.addFrame f).1 (τ.addFrame f').1 ∧
      ρ.Stores (w.1 + 1, w.2) (σ.addFrame f).2 (τ.addFrame f').2 := by
  have hle : w ≤ (w.1 + 1, w.2) := ⟨Nat.le_succ _, Nat.le_refl _⟩
  refine ⟨⟨w.1, Nat.lt_succ_self _, ?_, ?_⟩, ?_, ?_, hστ.functions_left, hστ.functions_right,
    fun i hi => ?_, fun i hi => ?_, fun t ht => ?_, fun t ht => ?_, hστ.kept_functions_left,
    hστ.kept_functions_right⟩
  · rw [← hστ.frames_left, Store.addFrame]
  · rw [← hστ.frames_right, Store.addFrame]
  · simp only [Store.addFrame, Array.size_push, hστ.frames_left, Nat.add_assoc]
  · simp only [Store.addFrame, Array.size_push, hστ.frames_right, Nat.add_assoc]
  · rw [Store.frame?_addFrame, Store.frame?_addFrame, hστ.frames_left, hστ.frames_right]
    simp only [Nat.add_left_cancel_iff]
    split
    · exact .some hf
    · exact rel_mono (fun _ _ => Frames.mono hle) (hστ.frame i (by omega))
  · exact rel_mono (fun _ _ => functions_mono hle) (hστ.function i hi)
  · rw [Store.frame?_addFrame, if_neg (by rw [hστ.frames_left]; omega), hστ.kept_left t ht]
  · rw [Store.frame?_addFrame, if_neg (by rw [hστ.frames_right]; omega), hστ.kept_right t ht]

theorem addChild (hστ : ρ.Stores w σ τ) (hs : ρ.matching.scope w s s') :
    ∃ w', w ≤ w' ∧ ρ.matching.scope w' (σ.addChild s).1 (τ.addChild s').1 ∧
      ρ.Stores w' (σ.addChild s).2 (τ.addChild s').2 := by
  have hle : w ≤ (w.1 + 1, w.2) := ⟨Nat.le_succ _, Nat.le_refl _⟩
  exact ⟨_, hle, addFrame hστ ⟨.nil, .child (scope_mono hle hs)⟩⟩

theorem addFunction {f f' : Function} (hστ : ρ.Stores w σ τ) (hf : ρ.matching.Functions w f f') :
    ∃ w', w ≤ w' ∧ ρ.matching.Values w' (σ.addFunction f).1 (τ.addFunction f').1 ∧
      ρ.Stores w' (σ.addFunction f).2 (τ.addFunction f').2 := by
  have hle : w ≤ (w.1, w.2 + 1) := ⟨Nat.le_refl _, Nat.le_succ _⟩
  refine ⟨_, hle, .function ⟨w.2, Nat.lt_succ_self _, hστ.functions_left, hστ.functions_right⟩,
    hστ.frames_left, hστ.frames_right, ?_, ?_, fun i hi => ?_, fun i hi => ?_, hστ.kept_left,
    hστ.kept_right, fun i hi => ?_, fun i hi => ?_⟩
  · simp only [Store.addFunction, Array.size_push, hστ.functions_left, Nat.add_assoc]
  · simp only [Store.addFunction, Array.size_push, hστ.functions_right, Nat.add_assoc]
  · exact rel_mono (fun _ _ => Frames.mono hle) (hστ.frame i hi)
  · rw [Store.function?_addFunction, Store.function?_addFunction, hστ.functions_left,
      hστ.functions_right]
    simp only [Nat.add_left_cancel_iff]
    split
    · exact .some (functions_mono hle hf)
    · exact rel_mono (fun _ _ => functions_mono hle) (hστ.function i (by omega))
  · rw [Store.function?_addFunction, if_neg (by rw [hστ.functions_left]; omega),
      hστ.kept_functions_left i hi]
  · rw [Store.function?_addFunction, if_neg (by rw [hστ.functions_right]; omega),
      hστ.kept_functions_right i hi]

variable (ρ) in
def simulation : Simulation (Nat × Nat) where
  toMatching := ρ.matching
  store := ρ.Stores
  scope_mono := scope_mono
  function_mono := function_mono
  keyword_builtin := ρ.keyword_builtin
  keyword_inj := ρ.keyword_inj
  function_inj := by
    rintro w _ _ _ _ ⟨i, -, rfl, rfl⟩ ⟨j, -, rfl, rfl⟩
    simp only [Nat.add_left_cancel_iff]
  lookup := lookup
  binder := binder
  declare := declare
  addChild := addChild
  function? := by
    rintro w σ τ _ _ hστ ⟨i, hi, rfl, rfl⟩
    exact hστ.function i hi
  addFunction := addFunction

variable (ρ) in
theorem stores_start : ρ.Stores (0, 0) ρ.left ρ.right :=
  ⟨rfl, rfl, rfl, rfl, fun _ h => absurd h (Nat.not_lt_zero _),
    fun _ h => absurd h (Nat.not_lt_zero _), fun _ _ => rfl, fun _ _ => rfl, fun _ _ => rfl,
    fun _ _ => rfl⟩

structure Contexts (ρ : Region) (c c' : Context) : Prop where
  keywords : ρ.Entries ρ.keyword c.keywords c'.keywords
  values : ρ.Entries (ρ.matching.Values (0, 0)) c.values c'.values

theorem Contexts.tables {c c' : Context} (h : ρ.Contexts c c') :
    ρ.matching.Tables c.keywords c'.keywords :=
  fun _ _ hn => h.keywords.find? hn

theorem related_newScope {c c' : Context} (hc : ρ.Contexts c c') :
    ρ.simulation.Related ρ.matching.scope w (Eval.update c.newScope) (Eval.update c'.newScope) := by
  intro σ τ hστ
  have hle : w ≤ (w.1 + 1, w.2) := ⟨Nat.le_succ _, Nat.le_refl _⟩
  have hle₀ : ((0, 0) : Nat × Nat) ≤ (w.1 + 1, w.2) := ⟨Nat.zero_le _, Nat.zero_le _⟩
  have hroot : ρ.Frames (w.1 + 1, w.2) ⟨c.values, .root c.keywords⟩
      ⟨c'.values, .root c'.keywords⟩ :=
    ⟨hc.values.mono fun _ _ => values_mono hle₀, .root hc.keywords⟩
  obtain ⟨hs, hστ'⟩ := addFrame hστ hroot
  exact ⟨_, hle, hστ', .value hs⟩

theorem related_run {p p' : Program} (hc : ρ.Contexts p.context p'.context)
    (hbody : ρ.matching.Bodies p.body p'.body) (host host' : Host) (limit : Nat) :
    ρ.simulation.Related ρ.matching.Values w (p.run host limit) (p'.run host' limit) :=
  .bind (related_newScope hc) fun _ _ _ _ hs => Simulation.related_run host host' limit hbody hs

def plain (span : Span → Span → Prop) (left right : Store) : Region where
  span
  name m n := m = n
  keyword k l := k = l ∧ ∃ table b, k = .builtin table b
  name_inj := by
    rintro m _ n _ rfl rfl
    rfl
  keyword_builtin := by
    rintro k _ ⟨rfl, table, b, rfl⟩
    exact ⟨table, table, b, rfl, rfl⟩
  keyword_inj := by
    rintro k _ l _ ⟨rfl, -⟩ ⟨rfl, -⟩
    rfl
  left
  right

end Region

/-- Values that do not lead out of a run: no functions, and of the keywords only those built in. -/
def Value.SelfContained : Value → Prop
  | .function _ => False
  | .keyword k => ∃ table b, k = .builtin table b
  | _ => True

structure Context.SelfContained (c : Context) : Prop where
  keywords : ∀ entry ∈ c.keywords.entries, ∃ table b, entry.2 = .builtin table b
  values : ∀ entry ∈ c.values.entries, entry.2.SelfContained

theorem Context.selfContained_builtin (table : Nat) : (Context.builtin table).SelfContained := by
  refine ⟨fun entry h => ?_, fun entry h => ?_⟩
  · obtain ⟨b, -, rfl⟩ := List.mem_map.mp h
    exact ⟨table, b, rfl⟩
  · simp only [builtin, ofKeywords, constants, List.mem_cons, List.not_mem_nil, or_false] at h
    rcases h with rfl | rfl | rfl <;> exact trivial

namespace Region

variable {P : Span → Span → Prop} {σ₀ τ₀ : Store}

theorem plain_values {w : Nat × Nat} {v : Value} (h : v.SelfContained) :
    (plain P σ₀ τ₀).matching.Values w v v := by
  cases v with
  | null => exact .null
  | number x => exact .number x
  | string s => exact .string s
  | boolean b => exact .boolean b
  | function i => exact h.elim
  | keyword k => exact .keyword ⟨rfl, h⟩
  | host o => exact .host o

theorem plain_contexts {c : Context} (h : c.SelfContained) : (plain P σ₀ τ₀).Contexts c c := by
  refine ⟨List.forall₂_same.mpr fun e he => ⟨rfl, rfl, h.keywords e he⟩,
    List.forall₂_same.mpr fun e he => ⟨rfl, plain_values (h.values e he)⟩⟩

end Region

end Fexpr
