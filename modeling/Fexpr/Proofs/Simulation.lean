import Fexpr.Proofs.Zones

/-!
# Evaluation keeps a simulation

Matched code, evaluated in matched scopes from matched stores and equally deep, ends in matched
outcomes and matched stores. The embedding programs of the two runs do not matter, since keywords of
theirs are not matched.
-/

namespace Fexpr.Simulation

variable {W : Type} [Preorder W] (R : Simulation W)

theorem heads {c c' : Code} (h : R.Codes c c') :
    R.Heads R.name (fun _ _ => False) R.Codes c c' := by
  cases h with
  | literal hp l => exact .literal hp l
  | lookup hp hn => exact .lookup hp hn
  | reference hp hn => exact .reference hp hn
  | block hp hitems => exact .block hp hitems
  | call hp hcallee hargs =>
    cases hcallee with
    | keyword hk => exact .keyword hp hk hargs
    | name hn => exact .name hp hn hargs

theorem assign {w : W} {σ τ : Store} {s s' : Scope} {n n' : String} {v v' : Value}
    (hστ : R.store w σ τ) (hs : R.scope w s s') (hn : R.name n n') (hv : R.Values w v v') :
    Option.Rel (R.store w) (σ.assign? s n v) (τ.assign? s' n' v') := by
  have hb := R.binder hστ hs hn
  rw [Store.assign?, Store.assign?]
  generalize σ.binder? s n = o at hb
  generalize τ.binder? s' n' = o' at hb
  cases hb with
  | none => exact .none
  | some ht => exact .some (R.declare hστ ht hn hv)

/-- A simulation is a zoning with one zone. -/
def zoning : Zoning R.toMatching Unit where
  store := R.store
  code _ := R.Codes
  binds _ := R.name
  late _ _ _ := False
  runs w _ := R.scope w
  heads := R.heads
  name_of_binds hn := hn
  runs_mono := R.scope_mono
  function_mono := R.function_mono
  keyword_builtin := R.keyword_builtin
  keyword_inj := R.keyword_inj
  function_inj := R.function_inj
  lookup := R.lookup
  lookup_late _ _ hk := hk.elim
  declare := R.declare
  assign := R.assign
  addChild := R.addChild
  addFunction hστ hs hparams hbody := R.addFunction hστ ⟨hparams, hbody, hs⟩
  enter := by
    intro w σ τ i i' hστ hi
    have hf := R.function? hστ hi
    generalize σ.function? i = o at hf
    generalize τ.function? i' = o' at hf
    cases hf with
    | none => exact .none
    | some hf =>
      obtain ⟨w', hle, hframe, hστ'⟩ := R.addChild hστ hf.captured
      exact .some ⟨(), w', hle, hf.params, hf.body.items, hframe, hστ'⟩

abbrev Related {α β : Type} (V : W → α → β → Prop) (w : W) (x : Eval α) (y : Eval β) : Prop :=
  R.toMatching.Related R.store V w x y

def Evaluators (ev ev' : Evaluator) : Prop :=
  ∀ w c c' s s', R.Codes c c' → R.scope w s s' → R.Related R.Values w (ev c s) (ev' c' s')

variable {R} {w : W} {s s' : Scope}

theorem Evaluators.zoned {ev ev' : Evaluator} (hev : R.Evaluators ev ev') :
    R.zoning.Evaluators ev ev' :=
  fun w _ => hev w

theorem Evaluators.runItems {ev ev' : Evaluator} (hev : R.Evaluators ev ev') (hs : R.scope w s s')
    {cs cs' : List Code} (hcs : List.Forall₂ R.Codes cs cs') :
    R.Related R.Values w (runItems ev s cs) (Fexpr.runItems ev' s' cs') :=
  Zoning.Evaluators.runItems (z := ()) hev.zoned hs hcs

theorem evaluators_eval (host host' : Host) (n : Nat) :
    R.Evaluators (Code.eval host n) (Code.eval host' n) :=
  fun w => R.zoning.evaluators_eval host host' n w ()

theorem related_run (host host' : Host) (limit : Nat) {body body' : Body}
    (hbody : R.Bodies body body') (hs : R.scope w s s') :
    R.Related R.Values w (body.run host limit s) (body'.run host' limit s') :=
  (evaluators_eval host host' limit).runItems hs hbody.items

end Fexpr.Simulation
