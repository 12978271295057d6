/-!
# Bindings

A finite map from names that remembers the order in which its names were first bound. Binding a name
again changes its value and keeps its place.
-/

namespace Fexpr

structure Bindings (α : Type) where
  entries : List (String × α)
deriving Repr, DecidableEq

namespace Bindings

variable {α : Type}

def empty : Bindings α := ⟨[]⟩

instance : Inhabited (Bindings α) := ⟨empty⟩

def names (b : Bindings α) : List String := b.entries.map (·.1)

def size (b : Bindings α) : Nat := b.entries.length

def isEmpty (b : Bindings α) : Bool := b.entries.isEmpty

def find? (b : Bindings α) (name : String) : Option α :=
  (b.entries.find? (·.1 == name)).map (·.2)

def contains (b : Bindings α) (name : String) : Bool := (b.find? name).isSome

def insertEntry (name : String) (a : α) : List (String × α) → List (String × α)
  | [] => [(name, a)]
  | (n, x) :: rest => if n = name then (n, a) :: rest else (n, x) :: insertEntry name a rest

def insert (b : Bindings α) (name : String) (a : α) : Bindings α :=
  ⟨insertEntry name a b.entries⟩

theorem find?_insertEntry (name other : String) (a : α) (es : List (String × α)) :
    ((insertEntry name a es).find? (·.1 == other)).map (·.2) =
      if name = other then some a else (es.find? (·.1 == other)).map (·.2) := by
  induction es with
  | nil => by_cases h : name = other <;> simp [insertEntry, h]
  | cons e es ih =>
    obtain ⟨n, x⟩ := e
    by_cases hn : n = name
    · subst hn
      by_cases h : n = other <;> simp [insertEntry, h]
    · by_cases ho : n = other
      · subst ho
        simp [insertEntry, hn, Ne.symm hn]
      · simpa [insertEntry, List.find?_cons, hn, ho] using ih

@[simp] theorem find?_insert (b : Bindings α) (name other : String) (a : α) :
    (b.insert name a).find? other = if name = other then some a else b.find? other :=
  find?_insertEntry name other a b.entries

theorem names_insertEntry (name : String) (a : α) (es : List (String × α)) :
    (insertEntry name a es).map (·.1) =
      if name ∈ es.map (·.1) then es.map (·.1) else es.map (·.1) ++ [name] := by
  induction es with
  | nil => simp [insertEntry]
  | cons e es ih =>
    obtain ⟨n, x⟩ := e
    by_cases hn : n = name
    · simp [insertEntry, hn]
    · have hne : name ≠ n := fun h => hn h.symm
      by_cases hm : name ∈ es.map (·.1) <;> simp_all [insertEntry]

/-- A new name comes last; a name that is bound already keeps its place. -/
theorem names_insert (b : Bindings α) (name : String) (a : α) :
    (b.insert name a).names = if name ∈ b.names then b.names else b.names ++ [name] :=
  names_insertEntry name a b.entries

theorem nodup_names_insert {b : Bindings α} (h : b.names.Nodup) (name : String) (a : α) :
    (b.insert name a).names.Nodup := by
  rw [names_insert]
  split
  · exact h
  · rename_i hn
    refine List.nodup_append.mpr ⟨h, by simp, ?_⟩
    intro x hx y hy hxy
    rw [List.mem_singleton.mp hy] at hxy
    exact hn (hxy ▸ hx)

theorem mem_names_of_find? {b : Bindings α} {name : String} {a : α} (h : b.find? name = some a) :
    name ∈ b.names := by
  obtain ⟨entry, hentry, -⟩ := Option.map_eq_some_iff.mp h
  have hname : entry.1 = name := by simpa using List.find?_some hentry
  exact List.mem_map.mpr ⟨entry, List.mem_of_find?_eq_some hentry, hname⟩

def sortedNames (b : Bindings α) : List String := b.names.mergeSort (fun x y => decide (x ≤ y))

end Bindings

end Fexpr
