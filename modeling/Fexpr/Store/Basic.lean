import Fexpr.Value

/-!
# The store

The store holds the frames of all scopes and all functions that were ever made. A frame binds names
and lies in an older one, up to a root, which knows the keywords. Nothing is ever taken out of the
store, so scopes and functions are named by their place in it.
-/

namespace Fexpr

structure Scope where
  index : Nat
deriving DecidableEq, Repr, Inhabited

inductive Outer where
  | root (keywords : Keywords)
  | child (parent : Scope)
deriving Repr, DecidableEq

structure Frame where
  bindings : Bindings Value
  outer : Outer
deriving Repr, DecidableEq

structure Function where
  params : List String
  body : Body
  captured : Scope
deriving Repr

/-- `journal` holds what keywords of the embedding program have noted. -/
structure Store where
  frames : Array Frame
  functions : Array Function
  journal : Array String
deriving Repr

namespace Store

def empty : Store := ⟨#[], #[], #[]⟩

instance : Inhabited Store := ⟨empty⟩

def frame? (σ : Store) (s : Scope) : Option Frame := σ.frames[s.index]?

def function? (σ : Store) (index : Nat) : Option Function := σ.functions[index]?

/-- A scope and those around it, the root last. Parents are older than their children. -/
def chain (σ : Store) (s : Scope) : List Scope :=
  match σ.frame? s with
  | none => []
  | some f =>
    match f.outer with
    | .root _ => [s]
    | .child parent => if parent.index < s.index then s :: σ.chain parent else [s]
termination_by s.index

def depth (σ : Store) (s : Scope) : Nat := (σ.chain s).length - 1

def bindings (σ : Store) (s : Scope) : Bindings Value :=
  match σ.frame? s with
  | some f => f.bindings
  | none => .empty

def binder? (σ : Store) (s : Scope) (name : String) : Option Scope :=
  (σ.chain s).find? fun t => (σ.bindings t).contains name

def keywords (σ : Store) (s : Scope) : Keywords :=
  match (σ.chain s).getLast? with
  | none => .empty
  | some root =>
    match σ.frame? root with
    | some ⟨_, .root keywords⟩ => keywords
    | _ => .empty

def keyword? (σ : Store) (s : Scope) (name : String) : Option Keyword := (σ.keywords s).find? name

def lookupLocal (σ : Store) (s : Scope) (name : String) : Option Value :=
  (σ.bindings s).find? name

/-- What a name stands for: its nearest binding, or else a keyword. -/
def lookup (σ : Store) (s : Scope) (name : String) : Option Value :=
  match σ.binder? s name with
  | some t => σ.lookupLocal t name
  | none => (σ.keyword? s name).map .keyword

def addFrame (σ : Store) (f : Frame) : Scope × Store :=
  (⟨σ.frames.size⟩, { σ with frames := σ.frames.push f })

def addRoot (σ : Store) (keywords : Keywords) (values : Bindings Value) : Scope × Store :=
  σ.addFrame ⟨values, .root keywords⟩

def addChild (σ : Store) (s : Scope) : Scope × Store := σ.addFrame ⟨.empty, .child s⟩

def declare (σ : Store) (s : Scope) (name : String) (v : Value) : Store :=
  { σ with frames := σ.frames.modify s.index fun f =>
      { f with bindings := f.bindings.insert name v } }

theorem frame?_addFrame (σ : Store) (f : Frame) (s : Scope) :
    (σ.addFrame f).2.frame? s = if s.index = σ.frames.size then some f else σ.frame? s := by
  simp only [addFrame, frame?, Array.getElem?_push]

theorem frame?_declare (σ : Store) (s t : Scope) (name : String) (v : Value) :
    (σ.declare s name v).frame? t =
      if s = t then (σ.frame? t).map fun f => { f with bindings := f.bindings.insert name v }
      else σ.frame? t := by
  by_cases h : s = t
  · subst h
    simp [declare, frame?, Array.getElem?_modify]
  · have hi : s.index ≠ t.index := fun hi => h (by cases s; cases t; exact congrArg Scope.mk hi)
    simp [declare, frame?, Array.getElem?_modify, hi, h]

/-- Changes the nearest binding of a name, if there is one. -/
def assign? (σ : Store) (s : Scope) (name : String) (v : Value) : Option Store :=
  (σ.binder? s name).map fun t => σ.declare t name v

def addFunction (σ : Store) (f : Function) : Value × Store :=
  (.function σ.functions.size, { σ with functions := σ.functions.push f })

def note (σ : Store) (line : String) : Store := { σ with journal := σ.journal.push line }

end Store

end Fexpr
