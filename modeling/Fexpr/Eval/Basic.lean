import Fexpr.Eval.Error
import Fexpr.Store.Basic

/-!
# Computations on the store

A computation changes the store and ends in a value, in an error, or because evaluation was nested
too deeply. What it did to the store before an error stays done.
-/

namespace Fexpr

inductive Outcome (α : Type) where
  | value (a : α)
  | error (e : RuntimeError)
  | tooDeep
deriving DecidableEq, Repr

def Eval (α : Type) : Type := Store → Outcome α × Store

namespace Eval

variable {α β : Type}

def bind (x : Eval α) (f : α → Eval β) : Eval β := fun σ =>
  match x σ with
  | (.value a, σ) => f a σ
  | (.error e, σ) => (.error e, σ)
  | (.tooDeep, σ) => (.tooDeep, σ)

instance : Monad Eval where
  pure a := fun σ => (.value a, σ)
  bind := bind

theorem pure_apply (a : α) (σ : Store) : (pure a : Eval α) σ = (.value a, σ) := rfl

theorem bind_apply (x : Eval α) (f : α → Eval β) (σ : Store) :
    (x >>= f) σ = match x σ with
      | (.value a, σ) => f a σ
      | (.error e, σ) => (.error e, σ)
      | (.tooDeep, σ) => (.tooDeep, σ) := rfl

instance : LawfulMonad Eval := LawfulMonad.mk' Eval
  (by
    intro α x
    funext σ
    change (x >>= fun a => pure a) σ = x σ
    rw [bind_apply]
    obtain ⟨o, τ⟩ := x σ
    cases o <;> rfl)
  (fun _ _ => rfl)
  (by
    intro α β γ x f g
    funext σ
    simp only [bind_apply]
    obtain ⟨o, τ⟩ := x σ
    cases o <;> rfl)

def fail (e : RuntimeError) : Eval α := fun σ => (.error e, σ)

def tooDeep : Eval α := fun σ => (.tooDeep, σ)

def read (f : Store → α) : Eval α := fun σ => (.value (f σ), σ)

def update (f : Store → α × Store) : Eval α := fun σ =>
  let (a, σ) := f σ
  (.value a, σ)

def child (s : Scope) : Eval Scope := update (·.addChild s)

def declare (s : Scope) (name : String) (v : Value) : Eval Unit := update fun σ =>
  ((), σ.declare s name v)

def assign (s : Scope) (name : String) (v : Value) : Eval Bool := fun σ =>
  match σ.assign? s name v with
  | some σ => (.value true, σ)
  | none => (.value false, σ)

def resolve (s : Scope) (name : String) (span : Span) : Eval Value := do
  match ← read (·.lookup s name) with
  | some v => pure v
  | none => fail (.unresolved name span)

end Eval

abbrev Evaluator := Code → Scope → Eval Value

/-- The value of the last item of a sequence, or null for the empty one. -/
def runItems (ev : Evaluator) (s : Scope) (items : List Code) : Eval Value :=
  items.foldlM (fun _ code => ev code s) .null

end Fexpr
