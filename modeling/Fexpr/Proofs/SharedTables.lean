import Mathlib.Data.List.Basic

/-!
# Tables that are shared until they are written

A table lies in a cell, and many can hold the same cell. One that writes and is the only holder of
its cell writes there. Any other takes a copy first, in a new cell. So each holder sees a table of
its own.
-/

namespace Fexpr

/-- Cells, those that hold one and can write, and those that hold one and only read. -/
structure Cells (α : Type) where
  contents : List α
  writers : List Nat
  readers : List Nat
  bound : ∀ a ∈ writers ++ readers, a < contents.length

namespace Cells

variable {α : Type}

def single (x : α) : Cells α where
  contents := [x]
  writers := [0]
  readers := []
  bound := by simp

def seen (c : Cells α) (i : Nat) : Option α := c.writers[i]?.bind (c.contents[·]?)

def read (c : Cells α) (j : Nat) : Option α := c.readers[j]?.bind (c.contents[·]?)

theorem mem_of_writer {c : Cells α} {i a : Nat} (h : c.writers[i]? = some a) :
    a ∈ c.writers ++ c.readers :=
  List.mem_append_left _ (List.mem_of_getElem? h)

def copy (c : Cells α) (i : Nat) : Cells α where
  contents := c.contents
  writers := c.writers ++ c.writers[i]?.toList
  readers := c.readers
  bound a ha := by
    rcases List.mem_append.mp ha with ha | ha
    · rcases List.mem_append.mp ha with ha | ha
      · exact c.bound a (List.mem_append_left _ ha)
      · exact c.bound a (mem_of_writer (Option.mem_toList.mp ha))
    · exact c.bound a (List.mem_append_right _ ha)

def lend (c : Cells α) (i : Nat) : Cells α where
  contents := c.contents
  writers := c.writers
  readers := c.readers ++ c.writers[i]?.toList
  bound a ha := by
    rw [← List.append_assoc] at ha
    rcases List.mem_append.mp ha with ha | ha
    · exact c.bound a ha
    · exact c.bound a (mem_of_writer (Option.mem_toList.mp ha))

def writeInPlace (c : Cells α) (a : Nat) (f : α → α) : Cells α where
  contents := c.contents.modify a f
  writers := c.writers
  readers := c.readers
  bound b hb := by
    rw [List.length_modify]
    exact c.bound b hb

def writeCopy (c : Cells α) (i : Nat) (x : α) : Cells α where
  contents := c.contents ++ [x]
  writers := c.writers.set i c.contents.length
  readers := c.readers
  bound b hb := by
    rw [List.length_append, List.length_singleton]
    rcases List.mem_append.mp hb with hb | hb
    · rcases List.mem_or_eq_of_mem_set hb with hb | rfl
      · exact Nat.lt_succ_of_lt (c.bound b (List.mem_append_left _ hb))
      · exact Nat.lt_succ_self _
    · exact Nat.lt_succ_of_lt (c.bound b (List.mem_append_right _ hb))

/-- Changes the table of writer `i`: in place if nobody else holds its cell. -/
def write (c : Cells α) (i : Nat) (f : α → α) : Cells α :=
  match c.writers[i]?, c.seen i with
  | some a, some x =>
    if (c.writers ++ c.readers).count a = 1 then c.writeInPlace a f else c.writeCopy i (f x)
  | _, _ => c

theorem getElem?_append_toList {β : Type} (l : List β) (o : Option β) (j : Nat) :
    (l ++ o.toList)[j]? = if j = l.length then o else l[j]? := by
  rw [List.getElem?_append]
  split
  · rename_i hlt
    rw [if_neg (Nat.ne_of_lt hlt)]
  · rename_i hge
    cases o with
    | none =>
      rw [Option.toList_none, List.getElem?_nil, List.getElem?_eq_none (Nat.le_of_not_lt hge),
        ite_self]
    | some b =>
      rw [Option.toList_some, List.getElem?_singleton, List.getElem?_eq_none (Nat.le_of_not_lt hge)]
      congr 1
      exact propext ⟨fun h => by omega, fun h => by omega⟩

theorem length_toList_getElem? {β : Type} (l : List β) (i : Nat) :
    l[i]?.toList.length = if i < l.length then 1 else 0 := by
  by_cases hi : i < l.length
  · rw [List.getElem?_eq_getElem hi, if_pos hi, Option.toList_some, List.length_singleton]
  · rw [List.getElem?_eq_none (Nat.le_of_not_lt hi), if_neg hi, Option.toList_none,
      List.length_nil]

theorem seen_copy (c : Cells α) (i j : Nat) :
    (c.copy i).seen j = if j = c.writers.length then c.seen i else c.seen j := by
  rw [seen, copy, getElem?_append_toList]
  split <;> rfl

theorem read_lend (c : Cells α) (i j : Nat) :
    (c.lend i).read j = if j = c.readers.length then c.seen i else c.read j := by
  rw [read, lend, getElem?_append_toList]
  split <;> rfl

theorem index_eq_of_count {l : List Nat} {a i j : Nat} (h : l.count a ≤ 1) (hi : l[i]? = some a)
    (hj : l[j]? = some a) : i = j := by
  induction l generalizing i j with
  | nil => cases hi
  | cons x l ih =>
    cases i with
    | zero =>
      cases j with
      | zero => rfl
      | succ j =>
        obtain rfl : x = a := Option.some.inj hi
        have hpos : 0 < l.count x := List.count_pos_iff.mpr (List.mem_of_getElem? hj)
        rw [List.count_cons_self] at h
        omega
    | succ i =>
      cases j with
      | zero =>
        obtain rfl : x = a := Option.some.inj hj
        have hpos : 0 < l.count x := List.count_pos_iff.mpr (List.mem_of_getElem? hi)
        rw [List.count_cons_self] at h
        omega
      | succ j => rw [ih (Nat.le_trans List.count_le_count_cons h) hi hj]

theorem alone_of_count {c : Cells α} {i a : Nat} (hi : c.writers[i]? = some a)
    (h : (c.writers ++ c.readers).count a = 1) :
    (∀ j : Nat, c.writers[j]? = some a → i = j) ∧ ∀ j : Nat, c.readers[j]? ≠ some a := by
  rw [List.count_append] at h
  have hpos : 0 < c.writers.count a := List.count_pos_iff.mpr (List.mem_of_getElem? hi)
  constructor
  · intro j hj
    exact index_eq_of_count (by omega) hi hj
  · intro j hj
    have hreader : 0 < c.readers.count a := List.count_pos_iff.mpr (List.mem_of_getElem? hj)
    omega

theorem write_of_none {c : Cells α} {i : Nat} (hi : c.writers[i]? = none) (f : α → α) :
    c.write i f = c := by
  rw [write, hi]

theorem write_of_some {c : Cells α} {i a : Nat} (hi : c.writers[i]? = some a) (f : α → α) :
    ∃ x, c.seen i = some x ∧ c.write i f =
      if (c.writers ++ c.readers).count a = 1 then c.writeInPlace a f else c.writeCopy i (f x) := by
  have hlt := c.bound a (mem_of_writer hi)
  have hseen : c.seen i = some (c.contents.get ⟨a, hlt⟩) := by
    rw [seen, hi, Option.bind_some]
    exact List.getElem?_eq_getElem hlt
  refine ⟨_, hseen, ?_⟩
  rw [write, hi, hseen]

/-- What is in a cell that somebody else holds stays there. -/
theorem contents_write {c : Cells α} {i a b : Nat} (hi : c.writers[i]? = some a)
    (hb : b ∈ c.writers ++ c.readers) (hother : (c.writers ++ c.readers).count a = 1 → a ≠ b)
    (f : α → α) : (c.write i f).contents[b]? = c.contents[b]? := by
  obtain ⟨x, -, hwrite⟩ := write_of_some hi f
  rw [hwrite]
  split
  · rename_i hcount
    exact List.getElem?_modify_ne f c.contents (hother hcount)
  · exact List.getElem?_append_left (c.bound b hb)

theorem writers_write (c : Cells α) {i j : Nat} (h : i ≠ j) (f : α → α) :
    (c.write i f).writers[j]? = c.writers[j]? := by
  cases hi : c.writers[i]? with
  | none => rw [write_of_none hi]
  | some a =>
    obtain ⟨x, -, hwrite⟩ := write_of_some hi f
    rw [hwrite]
    split
    · rfl
    · exact List.getElem?_set_ne h

theorem length_writers_write (c : Cells α) (i : Nat) (f : α → α) :
    (c.write i f).writers.length = c.writers.length := by
  cases hi : c.writers[i]? with
  | none => rw [write_of_none hi]
  | some a =>
    obtain ⟨x, -, hwrite⟩ := write_of_some hi f
    rw [hwrite]
    split
    · rfl
    · exact List.length_set

theorem readers_write (c : Cells α) (i : Nat) (f : α → α) :
    (c.write i f).readers = c.readers := by
  cases hi : c.writers[i]? with
  | none => rw [write_of_none hi]
  | some a =>
    obtain ⟨x, -, hwrite⟩ := write_of_some hi f
    rw [hwrite]
    split <;> rfl

theorem seen_write_self (c : Cells α) (i : Nat) (f : α → α) :
    (c.write i f).seen i = (c.seen i).map f := by
  cases hi : c.writers[i]? with
  | none => rw [write_of_none hi, seen, hi, Option.bind_none, Option.map_none]
  | some a =>
    obtain ⟨x, hseen, hwrite⟩ := write_of_some hi f
    rw [hwrite]
    split
    · rw [seen, seen, writeInPlace]
      simp only
      rw [hi, Option.bind_some, Option.bind_some]
      exact List.getElem?_modify_eq f a c.contents
    · have hlt : i < c.writers.length := (List.getElem?_eq_some_iff.mp hi).1
      rw [hseen, seen, writeCopy]
      simp only
      rw [List.getElem?_set_self hlt, Option.bind_some, List.getElem?_concat_length,
        Option.map_some]

theorem seen_write_ne (c : Cells α) {i j : Nat} (h : i ≠ j) (f : α → α) :
    (c.write i f).seen j = c.seen j := by
  rw [seen, seen, writers_write c h]
  cases hj : c.writers[j]? with
  | none => rfl
  | some b =>
    cases hi : c.writers[i]? with
    | none => rw [write_of_none hi]
    | some a =>
      refine contents_write hi (mem_of_writer hj) (fun hcount => ?_) f
      rintro rfl
      exact h ((alone_of_count hi hcount).1 j hj)

theorem read_write (c : Cells α) (i j : Nat) (f : α → α) : (c.write i f).read j = c.read j := by
  rw [read, read, readers_write]
  cases hj : c.readers[j]? with
  | none => rfl
  | some b =>
    cases hi : c.writers[i]? with
    | none => rw [write_of_none hi]
    | some a =>
      refine contents_write hi (List.mem_append_right _ (List.mem_of_getElem? hj))
        (fun hcount => ?_) f
      rintro rfl
      exact (alone_of_count hi hcount).2 j hj

end Cells

end Fexpr
