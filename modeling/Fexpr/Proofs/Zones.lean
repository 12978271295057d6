import Fexpr.Proofs.Matching

/-!
# Evaluation in zones

Two programs run side by side, on code that is matched zone by zone. A zone says which code is
matched in it, which names that code may bind, and where it may have a name in place of a keyword.
Code of a zone is run only in scopes of the zone, and functions keep to the zone of their code. If
single steps on stores keep the match, then so does evaluation.
-/

namespace Fexpr

variable {W Z : Type}

namespace Matching

variable (M : Matching W)

inductive Heads (binds : String → String → Prop) (late : Keyword → String → Prop)
    (code : Code → Code → Prop) : Code → Code → Prop where
  | literal {p p' : Span} (hp : M.span p p') (l : Literal) :
    Heads binds late code (.literal p l) (.literal p' l)
  | lookup {p p' : Span} {n n' : String} (hp : M.span p p') (hn : M.name n n') :
    Heads binds late code (.lookup p n) (.lookup p' n')
  | reference {p p' : Span} {n n' : String} (hp : M.span p p') (hn : binds n n') :
    Heads binds late code (.reference p n) (.reference p' n')
  | keyword {p p' : Span} {k k' : Keyword} {args args' : List Code} (hp : M.span p p')
    (hk : M.keyword k k') (hargs : List.Forall₂ code args args') :
    Heads binds late code (.call p (.keyword k) args) (.call p' (.keyword k') args')
  | name {p p' : Span} {n n' : String} {args args' : List Code} (hp : M.span p p')
    (hn : M.name n n') (hargs : List.Forall₂ code args args') :
    Heads binds late code (.call p (.name n) args) (.call p' (.name n') args')
  | late {p p' : Span} {k : Keyword} {n : String} {args args' : List Code} (hp : M.span p p')
    (hk : late k n) (hargs : List.Forall₂ code args args') :
    Heads binds late code (.call p (.keyword k) args) (.call p' (.name n) args')
  | block {p p' : Span} {items items' : List Code} (hp : M.span p p')
    (hitems : List.Forall₂ code items items') :
    Heads binds late code (.block p items) (.block p' items')

/-- From matched stores, matched outcomes and matched stores, perhaps in a larger world. -/
def Related [Preorder W] (store : W → Store → Store → Prop) {α β : Type} (V : W → α → β → Prop)
    (w : W) (x : Eval α) (y : Eval β) : Prop :=
  ∀ σ τ, store w σ τ → ∃ w', w ≤ w' ∧ store w' (x σ).2 (y τ).2 ∧ M.Outcomes (V w') (x σ).1 (y τ).1

variable {M}

theorem Heads.span {binds : String → String → Prop} {late : Keyword → String → Prop}
    {code : Code → Code → Prop} {c c' : Code} (h : M.Heads binds late code c c') :
    M.span c.span c'.span := by
  cases h <;> assumption

theorem Heads.describe {binds : String → String → Prop} {late : Keyword → String → Prop}
    {code : Code → Code → Prop} {c c' : Code} (h : M.Heads binds late code c c') :
    c.describe = c'.describe := by
  cases h <;> rfl

theorem Values.isTruthy {w : W} {v v' : Value} (h : M.Values w v v') :
    v.isTruthy = v'.isTruthy := by
  cases h <;> rfl

theorem Values.typeName {w : W} {v v' : Value} (h : M.Values w v v') :
    v.typeName = v'.typeName := by
  cases h <;> rfl

theorem Values.imp {W' : Type} {N : Matching W'} {w : W} {w' : W'} {v v' : Value}
    (hfunction : ∀ i i', M.function w i i' → N.function w' i i')
    (hkeyword : ∀ k k', M.keyword k k' → N.keyword k k') (h : M.Values w v v') :
    N.Values w' v v' := by
  cases h with
  | null => exact .null
  | number x => exact .number x
  | string s => exact .string s
  | boolean b => exact .boolean b
  | function hi => exact .function (hfunction _ _ hi)
  | keyword hk => exact .keyword (hkeyword _ _ hk)
  | host o => exact .host o

theorem Values.mono {w w' : W} {v v' : Value}
    (hle : ∀ i i', M.function w i i' → M.function w' i i') (h : M.Values w v v') :
    M.Values w' v v' :=
  h.imp hle fun _ _ hk => hk

theorem Outcomes.mono {α β : Type} {V U : α → β → Prop} {o : Outcome α} {o' : Outcome β}
    (hVU : ∀ a b, V a b → U a b) (h : M.Outcomes V o o') : M.Outcomes U o o' := by
  cases h with
  | value h => exact .value (hVU _ _ h)
  | error h => exact .error h
  | tooDeep => exact .tooDeep

theorem Errors.eq {e e' : RuntimeError} (hspan : ∀ p p', M.span p p' → p = p')
    (hname : ∀ n n', M.name n n' → n = n') (h : M.Errors e e') : e = e' := by
  cases h with
  | unresolved hn hp => rw [hname _ _ hn, hspan _ _ hp]
  | notCallable hn found hp => rw [hname _ _ hn, hspan _ _ hp]
  | arity keyword expected got hp => rw [hspan _ _ hp]
  | mismatch keyword position expected found hp => rw [hspan _ _ hp]

namespace Related

variable [Preorder W] {store : W → Store → Store → Prop} {α β γ δ : Type} {w : W}
  {V : W → α → β → Prop} {U : W → γ → δ → Prop}

theorem pure {a : α} {b : β} (h : V w a b) : M.Related store V w (Pure.pure a) (Pure.pure b) :=
  fun _ _ hστ => ⟨w, le_refl w, hστ, .value h⟩

theorem fail {e e' : RuntimeError} (h : M.Errors e e') :
    M.Related store V w (Eval.fail e) (Eval.fail e') :=
  fun _ _ hστ => ⟨w, le_refl w, hστ, .error h⟩

theorem tooDeep : M.Related store V w Eval.tooDeep Eval.tooDeep :=
  fun _ _ hστ => ⟨w, le_refl w, hστ, .tooDeep⟩

theorem weaken {V' : W → α → β → Prop} {x : Eval α} {y : Eval β} (h : M.Related store V w x y)
    (hV : ∀ w a b, V w a b → V' w a b) : M.Related store V' w x y := by
  intro σ τ hστ
  obtain ⟨w', hle, hστ', ho⟩ := h σ τ hστ
  exact ⟨w', hle, hστ', ho.mono (hV w')⟩

theorem bind {x : Eval α} {y : Eval β} {f : α → Eval γ} {g : β → Eval δ}
    (hx : M.Related store V w x y)
    (hf : ∀ w', w ≤ w' → ∀ a b, V w' a b → M.Related store U w' (f a) (g b)) :
    M.Related store U w (x >>= f) (y >>= g) := by
  intro σ τ hστ
  obtain ⟨w₁, hle₁, hστ₁, ho⟩ := hx σ τ hστ
  rw [Eval.bind_apply, Eval.bind_apply]
  generalize x σ = r at hστ₁ ho
  generalize y τ = r' at hστ₁ ho
  obtain ⟨o, σ₁⟩ := r
  obtain ⟨o', τ₁⟩ := r'
  simp only at hστ₁ ho
  cases ho with
  | value h =>
    obtain ⟨w₂, hle₂, hστ₂, ho₂⟩ := hf w₁ hle₁ _ _ h σ₁ τ₁ hστ₁
    exact ⟨w₂, le_trans hle₁ hle₂, hστ₂, ho₂⟩
  | error h => exact ⟨w₁, hle₁, hστ₁, .error h⟩
  | tooDeep => exact ⟨w₁, hle₁, hστ₁, .tooDeep⟩

end Related

end Matching

/-- Code matched in zones, and stores matched in such a way that single steps keep the match. Only
built-in keywords are matched, and identities are told apart alike. -/
structure Zoning [Preorder W] (M : Matching W) (Z : Type) where
  store : W → Store → Store → Prop
  code : Z → Code → Code → Prop
  binds : Z → String → String → Prop
  late : Z → Keyword → String → Prop
  runs : W → Z → Scope → Scope → Prop
  heads : ∀ {z : Z} {c c' : Code}, code z c c' → M.Heads (binds z) (late z) (code z) c c'
  name_of_binds : ∀ {z : Z} {n n' : String}, binds z n n' → M.name n n'
  runs_mono : ∀ {w w' : W} {z : Z} {s s' : Scope}, w ≤ w' → runs w z s s' → runs w' z s s'
  function_mono : ∀ {w w' : W} {i i' : Nat}, w ≤ w' → M.function w i i' → M.function w' i i'
  keyword_builtin : ∀ {k k' : Keyword}, M.keyword k k' →
    ∃ table table' b, k = .builtin table b ∧ k' = .builtin table' b
  keyword_inj : ∀ {k k' l l' : Keyword}, M.keyword k k' → M.keyword l l' → (k = l ↔ k' = l')
  function_inj : ∀ {w : W} {i i' j j' : Nat}, M.function w i i' → M.function w j j' →
    (i = j ↔ i' = j')
  lookup : ∀ {w : W} {z : Z} {σ τ : Store} {s s' : Scope} {n n' : String}, store w σ τ →
    runs w z s s' → M.name n n' → Option.Rel (M.Values w) (σ.lookup s n) (τ.lookup s' n')
  lookup_late : ∀ {w : W} {z : Z} {σ τ : Store} {s s' : Scope} {k : Keyword} {n : String},
    store w σ τ → runs w z s s' → late z k n →
    ∃ k', M.keyword k k' ∧ τ.lookup s' n = some (.keyword k')
  declare : ∀ {w : W} {z : Z} {σ τ : Store} {s s' : Scope} {n n' : String} {v v' : Value},
    store w σ τ → runs w z s s' → binds z n n' → M.Values w v v' →
    store w (σ.declare s n v) (τ.declare s' n' v')
  assign : ∀ {w : W} {z : Z} {σ τ : Store} {s s' : Scope} {n n' : String} {v v' : Value},
    store w σ τ → runs w z s s' → binds z n n' → M.Values w v v' →
    Option.Rel (store w) (σ.assign? s n v) (τ.assign? s' n' v')
  addChild : ∀ {w : W} {z : Z} {σ τ : Store} {s s' : Scope}, store w σ τ → runs w z s s' →
    ∃ w', w ≤ w' ∧ runs w' z (σ.addChild s).1 (τ.addChild s').1 ∧
      store w' (σ.addChild s).2 (τ.addChild s').2
  addFunction : ∀ {w : W} {z : Z} {σ τ : Store} {s s' : Scope} {params params' : List String}
    {body body' : Body}, store w σ τ → runs w z s s' → List.Forall₂ (binds z) params params' →
    M.BodiesBy (code z) body body' → ∃ w', w ≤ w' ∧
      M.Values w' (σ.addFunction ⟨params, body, s⟩).1 (τ.addFunction ⟨params', body', s'⟩).1 ∧
      store w' (σ.addFunction ⟨params, body, s⟩).2 (τ.addFunction ⟨params', body', s'⟩).2
  enter : ∀ {w : W} {σ τ : Store} {i i' : Nat}, store w σ τ → M.function w i i' →
    Option.Rel (fun f f' => ∃ z w', w ≤ w' ∧ List.Forall₂ (binds z) f.params f'.params ∧
      List.Forall₂ (code z) f.body.items f'.body.items ∧
      runs w' z (σ.addChild f.captured).1 (τ.addChild f'.captured).1 ∧
      store w' (σ.addChild f.captured).2 (τ.addChild f'.captured).2)
      (σ.function? i) (τ.function? i')

namespace Zoning

variable [Preorder W] {M : Matching W}

theorem values_mono (R : Zoning M Z) {w w' : W} {v v' : Value} (hle : w ≤ w')
    (h : M.Values w v v') : M.Values w' v v' :=
  h.mono fun _ _ => R.function_mono hle

theorem equal_eq (R : Zoning M Z) {w : W} {a a' b b' : Value} (ha : M.Values w a a')
    (hb : M.Values w b b') : a.equal b = a'.equal b' := by
  cases ha with
  | function hi =>
    cases hb with
    | function hj => exact decide_eq_decide.mpr (R.function_inj hi hj)
    | _ => rfl
  | keyword hk =>
    cases hb with
    | keyword hl => exact decide_eq_decide.mpr (R.keyword_inj hk hl)
    | _ => rfl
  | _ => cases hb <;> rfl

variable (R : Zoning M Z)

abbrev Related {α β : Type} (V : W → α → β → Prop) (w : W) (x : Eval α) (y : Eval β) : Prop :=
  M.Related R.store V w x y

structure Calls (w : W) (z : Z) (c c' : Call) : Prop where
  scope : R.runs w z c.scope c'.scope
  args : List.Forall₂ (R.code z) c.args c'.args
  span : M.span c.span c'.span

def Evaluators (ev ev' : Evaluator) : Prop :=
  ∀ w z c c' s s', R.code z c c' → R.runs w z s s' → R.Related M.Values w (ev c s) (ev' c' s')

variable {R} {w : W} {z : Z} {s s' : Scope}

theorem Calls.mono {w' : W} {c c' : Call} (hle : w ≤ w') (h : R.Calls w z c c') :
    R.Calls w' z c c' :=
  ⟨R.runs_mono hle h.scope, h.args, h.span⟩

theorem Calls.getElem? {c c' : Call} (h : R.Calls w z c c') (i : Nat) :
    Option.Rel (R.code z) c.args[i]? c'.args[i]? := by
  obtain ⟨-, hargs, -⟩ := h
  generalize c.args = args at hargs
  generalize c'.args = args' at hargs
  induction hargs generalizing i with
  | nil => exact .none
  | cons hc _ ih =>
    cases i with
    | zero => exact .some hc
    | succ i => exact ih i

theorem related_child (hs : R.runs w z s s') :
    R.Related (fun w => R.runs w z) w (Eval.child s) (Eval.child s') := by
  intro σ τ hστ
  obtain ⟨w', hle, hnew, hστ'⟩ := R.addChild hστ hs
  exact ⟨w', hle, hστ', .value hnew⟩

theorem related_declare {n n' : String} {v v' : Value} (hs : R.runs w z s s')
    (hn : R.binds z n n') (hv : M.Values w v v') :
    R.Related (fun _ _ _ => True) w (Eval.declare s n v) (Eval.declare s' n' v') :=
  fun _ _ hστ => ⟨w, le_refl w, R.declare hστ hs hn hv, .value trivial⟩

theorem related_assign {n n' : String} {v v' : Value} (hs : R.runs w z s s')
    (hn : R.binds z n n') (hv : M.Values w v v') :
    R.Related (fun _ a b => a = b) w (Eval.assign s n v) (Eval.assign s' n' v') := by
  intro σ τ hστ
  have ha := R.assign hστ hs hn hv
  rw [Eval.assign, Eval.assign]
  generalize σ.assign? s n v = o at ha
  generalize τ.assign? s' n' v' = o' at ha
  cases ha with
  | none => exact ⟨w, le_refl w, hστ, .value rfl⟩
  | some ha => exact ⟨w, le_refl w, ha, .value rfl⟩

theorem related_resolve {n n' : String} {p p' : Span} (hs : R.runs w z s s') (hn : M.name n n')
    (hp : M.span p p') :
    R.Related M.Values w (Eval.resolve s n p) (Eval.resolve s' n' p') := by
  intro σ τ hστ
  have hl := R.lookup hστ hs hn
  rw [Eval.resolve, Eval.resolve, Eval.bind_apply, Eval.bind_apply, Eval.read, Eval.read]
  generalize σ.lookup s n = o at hl
  generalize τ.lookup s' n' = o' at hl
  cases hl with
  | none => exact ⟨w, le_refl w, hστ, .error (.unresolved hn hp)⟩
  | some hv => exact ⟨w, le_refl w, hστ, .value hv⟩

namespace Evaluators

variable {ev ev' : Evaluator} {cs cs' : List Code} {c c' : Call}

theorem foldlM (hev : R.Evaluators ev ev') (hs : R.runs w z s s')
    (hcs : List.Forall₂ (R.code z) cs cs') {v v' : Value} (hv : M.Values w v v') :
    R.Related M.Values w (cs.foldlM (fun _ code => ev code s) v)
      (cs'.foldlM (fun _ code => ev' code s') v') := by
  induction hcs generalizing w v v' with
  | nil => exact .pure hv
  | cons hc _ ih =>
    rw [List.foldlM_cons, List.foldlM_cons]
    exact .bind (hev w z _ _ s s' hc hs) fun w' hle _ _ hv => ih (R.runs_mono hle hs) hv

theorem runItems (hev : R.Evaluators ev ev') (hs : R.runs w z s s')
    (hcs : List.Forall₂ (R.code z) cs cs') :
    R.Related M.Values w (runItems ev s cs) (Fexpr.runItems ev' s' cs') :=
  hev.foldlM hs hcs .null

theorem search (hev : R.Evaluators ev ev') {sought : Value → Bool}
    (hsought : ∀ w v v', M.Values w v v' → sought v = sought v') (hs : R.runs w z s s')
    (hcs : List.Forall₂ (R.code z) cs cs') :
    R.Related (fun _ a b => a = b) w (Builtin.search sought ev s cs)
      (Builtin.search sought ev' s' cs') := by
  induction hcs generalizing w with
  | nil => exact .pure rfl
  | cons hc _ ih =>
    rw [Builtin.search, Builtin.search]
    refine .bind (hev w z _ _ s s' hc hs) fun w' hle v v' hv => ?_
    rw [← hsought w' v v' hv]
    split
    · exact .pure rfl
    · exact ih (R.runs_mono hle hs)

/-- The frame and the arguments of a call may belong to different zones. -/
theorem bindParams (hev : R.Evaluators ev ev') {z' : Z} {frame frame' : Scope}
    {params params' : List String} (hs : R.runs w z s s') (hframe : R.runs w z' frame frame')
    (hparams : List.Forall₂ (R.binds z') params params') (hcs : List.Forall₂ (R.code z) cs cs') :
    R.Related (fun _ _ _ => True) w (Function.bindParams ev s frame params cs)
      (Function.bindParams ev' s' frame' params' cs') := by
  induction hcs generalizing w params params' with
  | nil =>
    induction hparams generalizing w with
    | nil =>
      rw [Function.bindParams, Function.bindParams]
      exact .pure trivial
    | cons hn _ ih =>
      rw [Function.bindParams, Function.bindParams]
      exact .bind (related_declare hframe hn .null) fun w' hle _ _ _ =>
        ih (R.runs_mono hle hs) (R.runs_mono hle hframe)
  | cons hc _ ih =>
    cases hparams with
    | nil =>
      rw [Function.bindParams, Function.bindParams]
      exact .bind (hev w z _ _ s s' hc hs) fun w' hle _ _ _ =>
        ih (R.runs_mono hle hs) (R.runs_mono hle hframe) .nil
    | cons hn hparams =>
      rw [Function.bindParams, Function.bindParams]
      refine .bind (hev w z _ _ s s' hc hs) fun w₁ hle₁ v v' hv => ?_
      refine .bind (related_declare (R.runs_mono hle₁ hframe) hn hv) fun w₂ hle₂ _ _ _ => ?_
      have hle := le_trans hle₁ hle₂
      exact ih (R.runs_mono hle hs) (R.runs_mono hle hframe) hparams

theorem arg (hev : R.Evaluators ev ev') (hc : R.Calls w z c c') (i : Nat) :
    R.Related M.Values w (c.eval ev i) (c'.eval ev' i) := by
  have hi := hc.getElem? i
  rw [Call.eval, Call.eval, Call.evalIn, Call.evalIn]
  generalize c.args[i]? = o at hi
  generalize c'.args[i]? = o' at hi
  cases hi with
  | none => exact .pure .null
  | some hcode => exact hev w z _ _ _ _ hcode hc.scope

end Evaluators

variable {c c' : Call}

theorem related_mismatch {α β : Type} {V : W → α → β → Prop} (hc : R.Calls w z c c')
    (hname : c.name = c'.name) (i : Nat) (expected : String) :
    R.Related V w (c.mismatch i expected (c.describe i))
      (c'.mismatch i expected (c'.describe i)) := by
  have hi := hc.getElem? i
  rw [Call.mismatch, Call.mismatch, Call.describe, Call.describe, hname]
  generalize c.args[i]? = o at hi
  generalize c'.args[i]? = o' at hi
  cases hi with
  | none => exact .fail (.mismatch _ _ _ _ hc.span)
  | some hcode =>
    simp only [(R.heads hcode).describe]
    exact .fail (.mismatch _ _ _ _ (R.heads hcode).span)

theorem related_reference (hc : R.Calls w z c c') (hname : c.name = c'.name) (i : Nat) :
    R.Related (fun _ => R.binds z) w (c.reference i) (c'.reference i) := by
  have hi := hc.getElem? i
  have hmismatch := related_mismatch (V := fun _ => R.binds z) hc hname i "an @reference"
  rw [Call.reference, Call.reference]
  generalize c.args[i]? = o at hi
  generalize c'.args[i]? = o' at hi
  cases hi with
  | none => exact hmismatch
  | some hcode =>
    cases R.heads hcode with
    | reference _ hn => exact .pure hn
    | _ => exact hmismatch

theorem related_block (hc : R.Calls w z c c') (hname : c.name = c'.name) (i : Nat) :
    R.Related (fun _ => M.BodiesBy (R.code z)) w (c.block i) (c'.block i) := by
  have hi := hc.getElem? i
  have hmismatch := related_mismatch (V := fun _ => M.BodiesBy (R.code z)) hc hname i "a block"
  rw [Call.block, Call.block]
  generalize c.args[i]? = o at hi
  generalize c'.args[i]? = o' at hi
  cases hi with
  | none => exact hmismatch
  | some hcode =>
    cases R.heads hcode with
    | block hp hitems => exact .pure ⟨hitems, hp⟩
    | _ => exact hmismatch

theorem related_references (hc : R.Calls w z c c') (hname : c.name = c'.name) (is : List Nat) :
    R.Related (fun _ => List.Forall₂ (R.binds z)) w (is.mapM c.reference)
      (is.mapM c'.reference) := by
  induction is generalizing w with
  | nil => exact .pure .nil
  | cons i is ih =>
    rw [List.mapM_cons, List.mapM_cons]
    refine .bind (related_reference hc hname i) fun w₁ hle₁ n n' hn => ?_
    exact .bind (ih (hc.mono hle₁)) fun w₂ _ ns ns' hns => .pure (.cons hn hns)

theorem Evaluators.apply {ev ev' : Evaluator} (hev : R.Evaluators ev ev') (b : Builtin)
    (hc : R.Calls w z c c') (hname : c.name = c'.name) :
    R.Related M.Values w (b.apply ev c) (b.apply ev' c') := by
  cases b with
  | var =>
    refine .bind (related_reference hc hname 0) fun w₁ hle₁ n n' hn => ?_
    have hc₁ := hc.mono hle₁
    refine .bind (hev.arg hc₁ 1) fun w₂ hle₂ v v' hv => ?_
    refine .bind (related_declare (R.runs_mono hle₂ hc₁.scope) hn hv) fun w₃ hle₃ _ _ _ => ?_
    exact .pure (R.values_mono hle₃ hv)
  | set =>
    refine .bind (related_reference hc hname 0) fun w₁ hle₁ n n' hn => ?_
    have hc₁ := hc.mono hle₁
    refine .bind (hev.arg hc₁ 1) fun w₂ hle₂ v v' hv => ?_
    refine .bind (related_assign (R.runs_mono hle₂ hc₁.scope) hn hv) fun w₃ hle₃ found _ heq => ?_
    subst heq
    cases found with
    | true => exact .pure (R.values_mono hle₃ hv)
    | false => exact .fail (.unresolved (R.name_of_binds hn) hc.span)
  | cond =>
    refine .bind (hev.arg hc 0) fun w₁ hle₁ v v' hv => ?_
    have hc₁ := hc.mono hle₁
    rw [hv.isTruthy]
    cases v'.isTruthy with
    | true => exact hev.arg hc₁ 1
    | false => exact hev.arg hc₁ 2
  | function =>
    refine .bind (related_block hc hname 0) fun w₁ hle₁ body body' hbody => ?_
    have hc₁ := hc.mono hle₁
    rw [Call.referencesFrom, Call.referencesFrom, hc.args.length_eq]
    refine .bind (related_references hc₁ hname _) fun w₂ hle₂ params params' hparams => ?_
    intro σ τ hστ
    obtain ⟨w₃, hle₃, hnew, hστ'⟩ :=
      R.addFunction hστ (R.runs_mono hle₂ hc₁.scope) hparams hbody
    exact ⟨w₃, hle₃, hστ', .value hnew⟩
  | eq =>
    refine .bind (hev.arg hc 0) fun w₁ hle₁ v v' hv => ?_
    refine .bind (hev.arg (hc.mono hle₁) 1) fun w₂ hle₂ u u' hu => ?_
    rw [R.equal_eq (R.values_mono hle₂ hv) hu]
    exact .pure (.boolean _)
  | not =>
    refine .bind (hev.arg hc 0) fun w₁ _ v v' hv => ?_
    rw [hv.isTruthy]
    exact .pure (.boolean _)
  | any =>
    refine .bind (hev.search (fun _ _ _ hv => hv.isTruthy) hc.scope hc.args) fun _ _ a _ heq => ?_
    subst heq
    exact .pure (.boolean _)
  | all =>
    refine .bind (hev.search (fun _ _ _ hv => congrArg _ hv.isTruthy) hc.scope hc.args)
      fun _ _ a _ heq => ?_
    subst heq
    exact .pure (.boolean _)

theorem Evaluators.run {ev ev' : Evaluator} (hev : R.Evaluators ev ev') (b : Builtin)
    (hc : R.Calls w z c c') (hname : c.name = c'.name) :
    R.Related M.Values w (b.run ev c) (b.run ev' c') := by
  have harity : R.Related (fun _ _ _ => True) w (c.checkArity b.arity) (c'.checkArity b.arity) := by
    rw [Call.checkArity, Call.checkArity, hname, hc.args.length_eq]
    split
    · exact .pure trivial
    · exact .fail (.arity _ _ _ hc.span)
  exact .bind harity fun _ hle _ _ _ => hev.apply b (hc.mono hle) hname

section

variable (I I' : Interpreter) (hev : R.Evaluators I.eval I'.eval) (host host' : Host)

include hev

theorem related_runKeyword {k k' : Keyword} (hk : M.keyword k k') (hc : R.Calls w z c c') :
    R.Related M.Values w (I.runKeyword host k c) (I'.runKeyword host' k' c') := by
  obtain ⟨table, table', b, rfl, rfl⟩ := R.keyword_builtin hk
  exact hev.run b ⟨hc.scope, hc.args, hc.span⟩ rfl

theorem related_invokeStep {v v' : Value} (hv : M.Values w v v') (hc : R.Calls w z c c')
    (hname : M.name c.name c'.name) :
    R.Related M.Values w (I.invokeStep host v c) (I'.invokeStep host' v' c') := by
  have hfail : R.Related M.Values w (Eval.fail (.notCallable c.name v.typeName c.span))
      (Eval.fail (.notCallable c'.name v'.typeName c'.span)) := by
    rw [hv.typeName]
    exact .fail (.notCallable hname _ hc.span)
  cases hv with
  | keyword hk => exact related_runKeyword I I' hev host host' hk hc
  | function hi =>
    intro σ τ hστ
    have hf := R.enter hστ hi
    rw [Interpreter.invokeStep, Interpreter.invokeStep, Eval.bind_apply, Eval.bind_apply, Eval.read,
      Eval.read]
    revert hf
    generalize σ.function? _ = o
    generalize τ.function? _ = o'
    intro hf
    cases hf with
    | none => exact hfail σ τ hστ
    | some hf =>
      obtain ⟨z', w₁, hle₁, hparams, hitems, hframe, hστ₁⟩ := hf
      have hbind := hev.bindParams (R.runs_mono hle₁ hc.scope) hframe hparams hc.args
      obtain ⟨w₂, hle₂, hστ₂, ho⟩ := Matching.Related.bind hbind (fun w' hle _ _ _ =>
        hev.runItems (R.runs_mono hle hframe) hitems) _ _ hστ₁
      exact ⟨w₂, le_trans hle₁ hle₂, hστ₂, ho⟩
  | null | number | string | boolean | host => exact hfail

theorem related_evalStep {code code' : Code} (hcode : R.code z code code')
    (hs : R.runs w z s s') :
    R.Related M.Values w (I.evalStep host code s) (I'.evalStep host' code' s') := by
  cases R.heads hcode with
  | literal _ l =>
    cases l with
    | number x => exact .pure (.number x)
    | string text => exact .pure (.string text)
  | lookup hp hn => exact related_resolve hs hn hp
  | reference hp hn => exact related_resolve hs (R.name_of_binds hn) hp
  | block _ hitems =>
    exact .bind (related_child hs) fun _ _ _ _ hinner => hev.runItems hinner hitems
  | keyword hp hk hargs => exact related_runKeyword I I' hev host host' hk ⟨hs, hargs, hp⟩
  | name hp hn hargs =>
    refine .bind (related_resolve hs hn hp) fun w' hle v v' hv => ?_
    exact related_invokeStep I I' hev host host' hv ⟨R.runs_mono hle hs, hargs, hp⟩ hn
  | @late p p' k n args args' hp hk hargs =>
    intro σ τ hστ
    obtain ⟨k', hkk, hlookup⟩ := R.lookup_late hστ hs hk
    -- looking the name up gives the keyword, and leaves the store as it is
    have hright : I'.evalStep host' (.call p' (.name n) args') s' τ =
        I'.runKeyword host' k' ⟨n, s', args', p'⟩ τ := by
      rw [Interpreter.evalStep, Eval.bind_apply, Eval.resolve, Eval.bind_apply, Eval.read, hlookup]
      rfl
    rw [hright]
    exact related_runKeyword I I' hev host host' hkk ⟨hs, hargs, hp⟩ σ τ hστ

end

theorem evaluators_eval (host host' : Host) (n : Nat) :
    R.Evaluators (Code.eval host n) (Code.eval host' n) := by
  -- code can come back in function values, so the induction is on the depth and not on code
  induction n with
  | zero => exact fun _ _ _ _ _ _ _ _ => .tooDeep
  | succ n ih =>
    intro w z code code' s s' hcode hs
    rw [Code.eval, Code.eval]
    exact related_evalStep ⟨_, _⟩ ⟨_, _⟩ ih host host' hcode hs

end Zoning

end Fexpr
