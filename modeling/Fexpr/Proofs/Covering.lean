import Mathlib.Order.Defs.PartialOrder
import Fexpr.Proofs.Reachability
import Fexpr.Proofs.ScopeHistory
import Fexpr.Proofs.Zones

/-!
# Runs keep to a view

A view that nothing leads out of, with all that is yet to be made, is kept by runs of its code. The
code may be of any kind that its parts are of as well.
-/

namespace Fexpr

def Value.renumber (φ : Nat → Nat) : Value → Value
  | function i => .function (φ i)
  | v => v

theorem Value.renumber_id (v : Value) : v.renumber id = v := by
  cases v <;> rfl

namespace Bindings

variable {α β : Type}

def map (g : α → β) (b : Bindings α) : Bindings β := ⟨b.entries.map fun e => (e.1, g e.2)⟩

theorem find?_map (g : α → β) (b : Bindings α) (name : String) :
    (b.map g).find? name = (b.find? name).map g := by
  simp only [find?, map, List.find?_map, Option.map_map]
  rfl

theorem insert_map (g : α → β) (b : Bindings α) (name : String) (a : α) :
    (b.map g).insert name (g a) = (b.insert name a).map g := by
  obtain ⟨es⟩ := b
  simp only [insert, map, mk.injEq]
  induction es with
  | nil => rfl
  | cons e es ih =>
    rw [List.map_cons, insertEntry, insertEntry]
    split
    · rfl
    · rw [ih, List.map_cons]

theorem map_eq_self {g : α → α} {b : Bindings α} (h : ∀ a ∈ b.values, g a = a) : b.map g = b := by
  obtain ⟨es⟩ := b
  simp only [map, mk.injEq]
  conv_rhs => rw [← List.map_id es]
  refine List.map_congr_left fun e he => ?_
  rw [h e.2 (List.mem_map_of_mem he)]
  rfl

end Bindings

def Frame.renumber (φ : Nat → Nat) (f : Frame) : Frame :=
  { f with bindings := f.bindings.map (Value.renumber φ) }

def Outcome.map {α β : Type} (g : α → β) : Outcome α → Outcome β
  | value a => .value (g a)
  | error e => .error e
  | tooDeep => .tooDeep

theorem Outcome.map_renumber_id (o : Outcome Value) : o.map (Value.renumber id) = o := by
  cases o with
  | value v => exact congrArg value v.renumber_id
  | error e => rfl
  | tooDeep => rfl

namespace Store

/-- Functions that are made after two stores were alike get numbers of their own in each. -/
def renumber (σ τ : Store) (i : Nat) : Nat :=
  if i < σ.functions.size then i else τ.functions.size + (i - σ.functions.size)

theorem renumber_new {σ τ : Store} {i : Nat} (hi : σ.functions.size ≤ i) :
    σ.renumber τ i = τ.functions.size + (i - σ.functions.size) := if_neg (Nat.not_lt.mpr hi)

end Store

namespace Code

/-- What holds of code holds of its parts, and only built-in keywords are called. -/
structure Hereditary (P : Code → Prop) : Prop where
  items : ∀ {p : Span} {items : List Code}, P (.block p items) → ∀ c ∈ items, P c
  args : ∀ {p : Span} {callee : Callee} {args : List Code}, P (.call p callee args) →
    ∀ c ∈ args, P c
  builtin : ∀ {p : Span} {k : Keyword} {args : List Code}, P (.call p (.keyword k) args) →
    k.isBuiltin

def OnlyBuiltins (c : Code) : Prop := ∀ k ∈ c.keywords, k.isBuiltin

theorem forall_onlyBuiltins {cs : List Code} :
    (∀ c ∈ cs, c.OnlyBuiltins) ↔ ∀ k ∈ keywordsAll cs, k.isBuiltin := by
  constructor
  · intro h k hk
    obtain ⟨c, hc, hk⟩ := mem_keywordsAll.mp hk
    exact h c hc k hk
  · intro h c hc k hk
    exact h k (mem_keywordsAll.mpr ⟨c, hc, hk⟩)

theorem forall₂_self_iff {P : Code → Prop} {cs cs' : List Code} :
    List.Forall₂ (fun c c' => c' = c ∧ P c) cs cs' ↔ cs' = cs ∧ ∀ c ∈ cs, P c := by
  constructor
  · intro h
    induction h with
    | nil => simp
    | cons hc _ ih =>
      obtain ⟨rfl, hc⟩ := hc
      obtain ⟨rfl, ih⟩ := ih
      exact ⟨rfl, List.forall_mem_cons.mpr ⟨hc, ih⟩⟩
  · rintro ⟨rfl, h⟩
    exact List.forall₂_same.mpr fun c hc => ⟨rfl, h c hc⟩

theorem hereditary_onlyBuiltins : Hereditary OnlyBuiltins where
  items h := forall_onlyBuiltins.mpr h
  args {p callee args} h := by
    cases callee with
    | name n => exact forall_onlyBuiltins.mpr h
    | keyword k => exact forall_onlyBuiltins.mpr fun j hj => h j (List.mem_cons_of_mem k hj)
  builtin h := h _ List.mem_cons_self

def Alike (c c' : Code) : Prop := c' = c ∧ ∀ k ∈ c.keywords, k.isBuiltin

theorem forall₂_alike {cs cs' : List Code} :
    List.Forall₂ Alike cs cs' ↔ cs' = cs ∧ ∀ k ∈ keywordsAll cs, k.isBuiltin :=
  forall₂_self_iff.trans (and_congr_right fun _ => forall_onlyBuiltins)

end Code

namespace View

def matching (V : View) (φ : Nat → Nat) (W : Type) : Matching W where
  span := Eq
  name := Eq
  keyword k k' := k' = k ∧ k.isBuiltin
  scope _ := Eq
  function _ i i' := i' = φ i ∧ V.function i

variable {V : View} {φ : Nat → Nat} {W : Type} {w : W}

theorem values_iff {v v' : Value} :
    (V.matching φ W).Values w v v' ↔ v' = v.renumber φ ∧ V.Holds v := by
  constructor
  · intro h
    cases h with
    | function hi => exact ⟨congrArg Value.function hi.1, hi.2⟩
    | keyword hk => exact ⟨congrArg Value.keyword hk.1, hk.2⟩
    | null | number | string | boolean | host => exact ⟨rfl, trivial⟩
  · rintro ⟨rfl, h⟩
    cases v with
    | null => exact .null
    | number x => exact .number x
    | string text => exact .string text
    | boolean b => exact .boolean b
    | function i => exact .function ⟨rfl, h⟩
    | keyword k => exact .keyword ⟨rfl, h⟩
    | host o => exact .host o

theorem outcome_eq {o o' : Outcome Value}
    (h : (V.matching φ W).Outcomes ((V.matching φ W).Values w) o o') :
    o' = o.map (Value.renumber φ) := by
  cases h with
  | value hv => exact congrArg Outcome.value (values_iff.mp hv).1
  | error he => exact congrArg Outcome.error (he.eq (fun _ _ => id) (fun _ _ => id)).symm
  | tooDeep => rfl

theorem keyword_builtin {k k' : Keyword} (h : (V.matching φ W).keyword k k') :
    ∃ table table' b, k = .builtin table b ∧ k' = .builtin table' b := by
  obtain ⟨rfl, h⟩ := h
  cases k' with
  | builtin table b => exact ⟨table, table, b, rfl, rfl⟩
  | host id name => cases h

theorem keyword_inj {k k' l l' : Keyword} (hk : (V.matching φ W).keyword k k')
    (hl : (V.matching φ W).keyword l l') : k = l ↔ k' = l' := by
  rw [hk.1, hl.1]

theorem heads_self {P : Code → Prop} (hP : Code.Hereditary P) {late : Keyword → String → Prop}
    {c c' : Code} (h : c' = c ∧ P c) :
    (V.matching φ W).Heads Eq late (fun c c' => c' = c ∧ P c) c c' := by
  obtain ⟨rfl, hc⟩ := h
  cases c' with
  | literal p l => exact .literal rfl l
  | lookup p n => exact .lookup rfl rfl
  | reference p n => exact .reference rfl rfl
  | block p items => exact .block rfl (Code.forall₂_self_iff.mpr ⟨rfl, hP.items hc⟩)
  | call p callee args =>
    have hargs := Code.forall₂_self_iff.mpr ⟨rfl, hP.args hc⟩
    cases callee with
    | name n => exact .name rfl rfl hargs
    | keyword k => exact .keyword rfl ⟨rfl, hP.builtin hc⟩ hargs

theorem heads_alike {late : Keyword → String → Prop} {c c' : Code} (h : c.Alike c') :
    (V.matching φ W).Heads Eq late Code.Alike c c' :=
  heads_self Code.hereditary_onlyBuiltins h

end View

theorem Store.size_addChild (σ : Store) (s : Scope) :
    (σ.addChild s).2.frames.size = σ.frames.size + 1 := by
  simp [Store.addChild, Store.addFrame]

/-- Nothing leads out of the view, functions in it have code of the kind, and what is yet to be made
belongs to it. -/
structure View.Covers (V : View) (P : Code → Prop) (σ : Store) : Prop where
  closed : V.Closed σ
  code : ∀ {i : Nat} {f : Function}, V.function i → σ.function? i = some f →
    ∀ c ∈ f.body.items, P c
  scope : ∀ {t : Scope}, σ.frames.size ≤ t.index → V.scope t
  function : ∀ {i : Nat}, σ.functions.size ≤ i → V.function i

namespace View.Covers

variable {V : View} {P : Code → Prop} {σ : Store} {s : Scope} {v : Value}

theorem declare (h : V.Covers P σ) (hv : V.Holds v) (s : Scope) (name : String) :
    V.Covers P (σ.declare s name v) := by
  refine ⟨h.closed.declare hv, h.code, ?_, h.function⟩
  intro t ht
  rw [Store.size_declare] at ht
  exact h.scope ht

theorem assign (h : V.Covers P σ) (hv : V.Holds v) (s : Scope) (name : String) :
    ∀ τ, σ.assign? s name v = some τ → V.Covers P τ := by
  intro τ hτ
  obtain ⟨t, -, rfl⟩ := Option.map_eq_some_iff.mp hτ
  exact h.declare hv t name

theorem addChild (h : V.Covers P σ) (hs : V.scope s) : V.Covers P (σ.addChild s).2 := by
  refine ⟨h.closed.addChild hs, h.code, ?_, h.function⟩
  intro t ht
  rw [Store.size_addChild] at ht
  exact h.scope (by omega)

theorem addFunction {f : Function} (h : V.Covers P σ) (hf : V.scope f.captured)
    (hcode : ∀ c ∈ f.body.items, P c) : V.Covers P (σ.addFunction f).2 := by
  refine ⟨h.closed.addFunction hf, ?_, h.scope, ?_⟩
  · intro i g hi hg
    rw [Store.function?_addFunction] at hg
    split at hg
    · cases hg
      exact hcode
    · exact h.code hi hg
  · intro i hi
    apply h.function
    simp only [Store.addFunction, Array.size_push] at hi
    omega

theorem viewFrom (h : σ.KnowsOnlyBuiltins s) : (σ.viewFrom s).Covers Code.OnlyBuiltins σ :=
  ⟨Store.closed_viewFrom h, fun hi hf => Code.forall_onlyBuiltins.mpr (h.code hi hf), .inr, .inr⟩

end View.Covers

inductive Settled where
  | world

instance : Preorder Settled where
  le _ _ := True
  le_refl _ := trivial
  le_trans _ _ _ _ _ := trivial

namespace View

variable {P : Code → Prop}

theorem values_self {V : View} {w : Settled} {v : Value} (h : V.Holds v) :
    (V.matching id Settled).Values w v v :=
  values_iff.mpr ⟨v.renumber_id.symm, h⟩

def keeping (V : View) (hP : Code.Hereditary P) : Zoning (V.matching id Settled) Unit where
  store _ σ τ := τ = σ ∧ V.Covers P σ
  code _ c c' := c' = c ∧ P c
  binds _ := Eq
  late _ _ _ := False
  runs _ _ s s' := s' = s ∧ V.scope s
  heads := heads_self hP
  name_of_binds hn := hn
  runs_mono _ hs := hs
  function_mono _ hi := hi
  keyword_builtin := View.keyword_builtin
  keyword_inj := View.keyword_inj
  function_inj := by
    rintro _ i _ j _ ⟨rfl, -⟩ ⟨rfl, -⟩
    rfl
  lookup := by
    rintro _ _ _ σ _ s n _ ⟨rfl, hσ⟩ ⟨rfl, hs⟩ rfl
    cases hv : σ.lookup s n with
    | none => exact .none
    | some v => exact .some (values_self (hσ.closed.lookup hs hv))
  lookup_late _ _ hk := hk.elim
  declare := by
    rintro _ _ _ σ _ s n _ v _ ⟨rfl, hσ⟩ ⟨rfl, hs⟩ rfl hv
    obtain ⟨rfl, hheld⟩ := values_iff.mp hv
    rw [Value.renumber_id]
    exact ⟨rfl, hσ.declare hheld s n⟩
  assign := by
    rintro _ _ _ σ _ s n _ v _ ⟨rfl, hσ⟩ ⟨rfl, hs⟩ rfl hv
    obtain ⟨rfl, hheld⟩ := values_iff.mp hv
    rw [Value.renumber_id]
    cases hτ : σ.assign? s n v with
    | none => exact .none
    | some τ => exact .some ⟨rfl, hσ.assign hheld s n τ hτ⟩
  addChild := by
    rintro w _ _ σ _ s ⟨rfl, hσ⟩ ⟨rfl, hs⟩
    exact ⟨w, trivial, ⟨rfl, hσ.scope (Nat.le_refl _)⟩, rfl, hσ.addChild hs⟩
  addFunction := by
    rintro w _ _ σ _ s params params' ⟨items, p⟩ ⟨items', p'⟩ ⟨rfl, hσ⟩ ⟨rfl, hs⟩ hparams hbody
    obtain rfl : params = params' := List.forall₂_eq_eq_eq ▸ hparams
    obtain rfl : p = p' := hbody.span
    obtain ⟨rfl, hcode⟩ := Code.forall₂_self_iff.mp hbody.items
    refine ⟨w, trivial, ?_, rfl, hσ.addFunction hs hcode⟩
    exact .function ⟨rfl, hσ.function (Nat.le_refl _)⟩
  enter := by
    rintro w _ σ _ i ⟨rfl, hσ⟩ ⟨rfl, hi⟩
    cases hf : σ.function? i with
    | none => exact .none
    | some f =>
      exact .some ⟨(), w, trivial, List.forall₂_same.mpr fun _ _ => rfl,
        Code.forall₂_self_iff.mpr ⟨rfl, hσ.code hi hf⟩, ⟨rfl, hσ.scope (Nat.le_refl _)⟩, rfl,
        hσ.addChild (hσ.closed.captured hi hf)⟩

namespace Covers

variable {V : View} {hP : Code.Hereditary P} {ev : Evaluator} {σ : Store} {s : Scope}
  {codes : List Code}

theorem of_related {α : Type} {U : Settled → α → α → Prop} {x : Eval α} (hσ : V.Covers P σ)
    (h : (V.keeping hP).Related U .world x x) : V.Covers P (x σ).2 := by
  obtain ⟨_, -, ⟨-, hσ'⟩, -⟩ := h σ σ ⟨rfl, hσ⟩
  exact hσ'

variable (hev : (V.keeping hP).Evaluators ev ev)

include hev

theorem runItems (hσ : V.Covers P σ) (hs : V.scope s) (hcodes : ∀ c ∈ codes, P c) :
    V.Covers P (runItems ev s codes σ).2 :=
  hσ.of_related (hev.runItems (z := ()) ⟨rfl, hs⟩ (Code.forall₂_self_iff.mpr ⟨rfl, hcodes⟩))

theorem search {sought : Value → Bool} (hsought : ∀ w v v', (V.matching id Settled).Values w v v' →
      sought v = sought v') (hσ : V.Covers P σ) (hs : V.scope s) (hcodes : ∀ c ∈ codes, P c) :
    V.Covers P (Builtin.search sought ev s codes σ).2 :=
  hσ.of_related (hev.search hsought (z := ()) ⟨rfl, hs⟩
    (Code.forall₂_self_iff.mpr ⟨rfl, hcodes⟩))

theorem bindParams {frame : Scope} (params : List String) (hσ : V.Covers P σ) (hs : V.scope s)
    (hframe : V.scope frame) (hcodes : ∀ c ∈ codes, P c) :
    V.Covers P (Function.bindParams ev s frame params codes σ).2 := by
  have hruns : (V.keeping hP).runs .world () frame frame := ⟨rfl, hframe⟩
  exact hσ.of_related (hev.bindParams (z := ()) ⟨rfl, hs⟩ hruns
    (List.forall₂_same.mpr fun _ _ => rfl) (Code.forall₂_self_iff.mpr ⟨rfl, hcodes⟩))

end Covers

end View

end Fexpr
