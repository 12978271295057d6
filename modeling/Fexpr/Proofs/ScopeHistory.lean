import Mathlib.Data.List.Basic
import Mathlib.Data.List.Induction
import Fexpr.Context
import Fexpr.Eval.Basic
import Fexpr.Proofs.Chains

/-!
# Scopes and their history

What scopes hold is read off the operations that were done on them: which scopes lie around which,
and what was written to the names of each. The store agrees with this reading at all times.
-/

namespace Fexpr

namespace Bindings

variable {α : Type}

def lastWrite? (ws : List (String × α)) (name : String) : Option α :=
  (ws.reverse.find? (·.1 == name)).map (·.2)

/-- Each name once, in the order of the first writes, with the value of the last. -/
def ofWrites (ws : List (String × α)) : Bindings α :=
  ⟨(ws.map (·.1)).eraseDups.filterMap fun name => (lastWrite? ws name).map (name, ·)⟩

theorem lastWrite?_concat (ws : List (String × α)) (name other : String) (a : α) :
    lastWrite? (ws ++ [(name, a)]) other = if name = other then some a else lastWrite? ws other := by
  rw [lastWrite?, List.reverse_append, List.reverse_singleton, List.singleton_append]
  by_cases h : name = other
  · simp [h]
  · rw [List.find?_cons_of_neg (by simpa using h), if_neg h, lastWrite?]

theorem isSome_lastWrite? {ws : List (String × α)} {name : String} :
    (lastWrite? ws name).isSome ↔ name ∈ ws.map (·.1) := by
  simp [lastWrite?, List.find?_isSome]

theorem lastWrite?_append (ws ws' : List (String × α)) (name : String) :
    lastWrite? (ws ++ ws') name = (lastWrite? ws' name).or (lastWrite? ws name) := by
  rw [lastWrite?, List.reverse_append, List.find?_append, Option.map_or]
  rfl

theorem lastWrite?_of_not_mem {ws : List (String × α)} {name : String}
    (h : name ∉ ws.map (·.1)) : lastWrite? ws name = none := by
  rw [← Option.not_isSome_iff_eq_none, isSome_lastWrite?]
  exact h

theorem eraseDups_concat (names : List String) (name : String) :
    (names ++ [name]).eraseDups =
      if name ∈ names then names.eraseDups else names.eraseDups ++ [name] := by
  rw [List.eraseDups_append]
  by_cases h : name ∈ names <;> simp [List.removeAll, h, List.eraseDups_cons]

theorem nodup_eraseDups (names : List String) : names.eraseDups.Nodup := by
  induction names using List.reverseRecOn with
  | nil => simp
  | append_singleton names name ih =>
    rw [eraseDups_concat]
    split
    · exact ih
    · rename_i hnew
      rw [List.nodup_append]
      refine ⟨ih, by simp, ?_⟩
      rintro x hx y hy rfl
      rw [List.mem_singleton.mp hy] at hx
      exact hnew (List.mem_eraseDups.mp hx)

theorem insertEntry_filterMap {names : List String} (hnodup : names.Nodup) (g : String → Option α)
    (hg : ∀ m ∈ names, (g m).isSome) (name : String) (a : α) :
    insertEntry name a (names.filterMap fun m => (g m).map (m, ·)) =
      (if name ∈ names then names else names ++ [name]).filterMap fun m =>
        (if name = m then some a else g m).map (m, ·) := by
  induction names with
  | nil => simp [insertEntry]
  | cons m names ih =>
    obtain ⟨hm, hnodup⟩ := List.nodup_cons.mp hnodup
    obtain ⟨x, hx⟩ := Option.isSome_iff_exists.mp (hg m List.mem_cons_self)
    have hhead : (m :: names).filterMap (fun m => (g m).map (m, ·)) =
        (m, x) :: names.filterMap fun m => (g m).map (m, ·) := by
      rw [List.filterMap_cons, hx]
      rfl
    rw [hhead, insertEntry]
    by_cases heq : m = name
    · subst heq
      have hrest : names.filterMap (fun k => (g k).map (k, ·)) =
          names.filterMap fun k => (if m = k then some a else g k).map (k, ·) := by
        apply List.filterMap_congr
        intro k hk
        rw [if_neg]
        rintro rfl
        exact hm hk
      simp [hrest]
    · have ih := ih hnodup fun k hk => hg k (List.mem_cons_of_mem m hk)
      have hne : name ≠ m := fun h => heq h.symm
      rw [if_neg heq, ih]
      by_cases hmem : name ∈ names <;> simp [hmem, hne, hx]

theorem ofWrites_concat (ws : List (String × α)) (name : String) (a : α) :
    ofWrites (ws ++ [(name, a)]) = (ofWrites ws).insert name a := by
  rw [ofWrites, ofWrites, insert]
  congr 1
  rw [insertEntry_filterMap (nodup_eraseDups _), List.map_append, List.map_singleton,
    eraseDups_concat]
  · simp only [lastWrite?_concat, List.mem_eraseDups]
  · intro m hm
    exact isSome_lastWrite?.mpr (List.mem_eraseDups.mp hm)

theorem find?_ofWrites (ws : List (String × α)) (name : String) :
    (ofWrites ws).find? name = lastWrite? ws name := by
  induction ws using List.reverseRecOn with
  | nil => rfl
  | append_singleton ws w ih => rw [ofWrites_concat, find?_insert, ih, lastWrite?_concat]

theorem names_ofWrites (ws : List (String × α)) :
    (ofWrites ws).names = (ws.map (·.1)).eraseDups := by
  induction ws using List.reverseRecOn with
  | nil => rfl
  | append_singleton ws w ih =>
    rw [ofWrites_concat, names_insert, ih, List.map_append, List.map_singleton, eraseDups_concat]
    simp only [List.mem_eraseDups]

theorem insertEntry_of_not_mem {es : List (String × α)} {name : String}
    (h : name ∉ es.map (·.1)) (a : α) : insertEntry name a es = es ++ [(name, a)] := by
  induction es with
  | nil => rfl
  | cons e es ih =>
    rw [List.map_cons, List.mem_cons, not_or] at h
    rw [insertEntry, if_neg (Ne.symm h.1), ih h.2, List.cons_append]

theorem ofWrites_entries {b : Bindings α} (h : b.names.Nodup) : ofWrites b.entries = b := by
  obtain ⟨es⟩ := b
  rw [names] at h
  induction es using List.reverseRecOn with
  | nil => rfl
  | append_singleton es e ih =>
    rw [List.map_append, List.map_singleton, List.nodup_append] at h
    obtain ⟨hes, -, hnew⟩ := h
    have hfresh : e.1 ∉ es.map (·.1) := fun hmem => hnew _ hmem _ List.mem_cons_self rfl
    rw [ofWrites_concat, ih hes, insert, insertEntry_of_not_mem hfresh]

end Bindings

namespace Store

variable {σ τ : Store} {s t : Scope} {name : String} {v : Value}

theorem size_declare (σ : Store) (s : Scope) (name : String) (v : Value) :
    (σ.declare s name v).frames.size = σ.frames.size := by
  simp [declare]

theorem outer_declare (σ : Store) (s t : Scope) (name : String) (v : Value) :
    ((σ.declare s name v).frame? t).map (·.outer) = (σ.frame? t).map (·.outer) := by
  rw [frame?_declare]
  split
  · cases σ.frame? t <;> rfl
  · rfl

theorem bindings_declare (hs : s.index < σ.frames.size) :
    (σ.declare s name v).bindings t =
      if s = t then (σ.bindings t).insert name v else σ.bindings t := by
  rw [bindings, frame?_declare, bindings]
  by_cases hst : s = t
  · subst hst
    have hf : σ.frame? s = some (σ.frames[s.index]) := Array.getElem?_eq_getElem hs
    rw [if_pos rfl, if_pos rfl, hf]
    rfl
  · rw [if_neg hst, if_neg hst]

theorem bindings_addFrame (σ : Store) (f : Frame) (s : Scope) :
    (σ.addFrame f).2.bindings s = if s.index = σ.frames.size then f.bindings else σ.bindings s := by
  rw [bindings, frame?_addFrame, bindings]
  by_cases hs : s.index = σ.frames.size
  · rw [if_pos hs, if_pos hs]
  · rw [if_neg hs, if_neg hs]

theorem lt_size_of_binder? (h : σ.binder? s name = some t) : t.index < σ.frames.size := by
  have hmem := mem_names_of_binder? h
  rw [bindings] at hmem
  cases hf : σ.frame? t with
  | none =>
    rw [hf] at hmem
    cases hmem
  | some f => exact (Array.getElem?_eq_some_iff.mp hf).1

theorem chain_congr (h : ∀ t, (τ.frame? t).map (·.outer) = (σ.frame? t).map (·.outer))
    (s : Scope) : τ.chain s = σ.chain s := by
  have hs := h s
  cases hf : σ.frame? s with
  | none =>
    rw [hf, Option.map_none, Option.map_eq_none_iff] at hs
    rw [chain_of_none hf, chain_of_none hs]
  | some f =>
    rw [hf, Option.map_some] at hs
    obtain ⟨g, hg, houter⟩ := Option.map_eq_some_iff.mp hs
    cases ho : f.outer with
    | root keywords => rw [chain_of_root hf ho, chain_of_root hg (houter.trans ho)]
    | child parent =>
      rw [chain_of_child hf ho, chain_of_child hg (houter.trans ho)]
      split
      · rw [chain_congr h parent]
      · rfl
termination_by s.index

theorem keywords_congr (h : ∀ t, (τ.frame? t).map (·.outer) = (σ.frame? t).map (·.outer))
    (s : Scope) : τ.keywords s = σ.keywords s := by
  rw [keywords, keywords, chain_congr h]
  cases (σ.chain s).getLast? with
  | none => rfl
  | some root =>
    have hroot := h root
    cases hf : σ.frame? root with
    | none =>
      rw [hf, Option.map_none, Option.map_eq_none_iff] at hroot
      simp only [hf, hroot]
    | some f =>
      rw [hf, Option.map_some] at hroot
      obtain ⟨g, hg, houter⟩ := Option.map_eq_some_iff.mp hroot
      obtain ⟨bindings, outer⟩ := f
      obtain ⟨bindings', outer'⟩ := g
      obtain rfl : outer' = outer := houter
      simp only [hf, hg]
      cases outer' <;> rfl

theorem chain_addFrame {f : Frame} {s : Scope} (hs : s.index ≠ σ.frames.size) :
    (σ.addFrame f).2.chain s = σ.chain s := by
  have hframe : (σ.addFrame f).2.frame? s = σ.frame? s := by rw [frame?_addFrame, if_neg hs]
  cases hf : σ.frame? s with
  | none => rw [chain_of_none hf, chain_of_none (hframe.trans hf)]
  | some g =>
    have hlt : s.index < σ.frames.size := (Array.getElem?_eq_some_iff.mp hf).1
    cases ho : g.outer with
    | root keywords => rw [chain_of_root hf ho, chain_of_root (hframe.trans hf) ho]
    | child parent =>
      rw [chain_of_child hf ho, chain_of_child (hframe.trans hf) ho]
      split
      · rw [chain_addFrame (by omega)]
      · rfl
termination_by s.index

theorem keywords_addFrame {f : Frame} {s : Scope} (hs : s.index ≠ σ.frames.size) :
    (σ.addFrame f).2.keywords s = σ.keywords s := by
  have hframe : (σ.addFrame f).2.frame? s = σ.frame? s := by rw [frame?_addFrame, if_neg hs]
  rw [keywords_eq, keywords_eq σ, hframe]
  cases hf : σ.frame? s with
  | none => rfl
  | some g =>
    have hlt : s.index < σ.frames.size := (Array.getElem?_eq_some_iff.mp hf).1
    obtain ⟨bindings, outer⟩ := g
    cases outer with
    | root keywords => rfl
    | child parent =>
      simp only
      split
      · rw [keywords_addFrame (by omega)]
      · rfl
termination_by s.index

end Store

/-- What was done to scopes, of which there are so many by now. Operations are on scopes that were
there before, and a root starts with values under distinct names. -/
inductive History : Nat → Type where
  | start : History 0
  | root {n : Nat} (past : History n) (context : Context)
    (distinct : context.values.names.Nodup) : History (n + 1)
  | child {n : Nat} (past : History n) (parent : Fin n) : History (n + 1)
  | declare {n : Nat} (past : History n) (s : Fin n) (name : String) (v : Value) : History n
  | assign {n : Nat} (past : History n) (s : Fin n) (name : String) (v : Value) : History n

namespace History

def store : {n : Nat} → History n → Store
  | _, start => .empty
  | _, root past context _ => (context.newScope past.store).2
  | _, child past parent => (past.store.addChild ⟨parent⟩).2
  | _, declare past s name v => past.store.declare ⟨s⟩ name v
  | _, assign past s name v => (past.store.assign? ⟨s⟩ name v).getD past.store

def chain : {n : Nat} → History n → Scope → List Scope
  | _, start, _ => []
  | n + 1, root past _ _, s => if s.index = n then [s] else past.chain s
  | n + 1, child past parent, s => if s.index = n then s :: past.chain ⟨parent⟩ else past.chain s
  | _, declare past _ _ _, s => past.chain s
  | _, assign past _ _ _, s => past.chain s

def keywords : {n : Nat} → History n → Scope → Keywords
  | _, start, _ => .empty
  | n + 1, root past context _, s => if s.index = n then context.keywords else past.keywords s
  | n + 1, child past parent, s =>
    if s.index = n then past.keywords ⟨parent⟩ else past.keywords s
  | _, declare past _ _ _, s => past.keywords s
  | _, assign past _ _ _, s => past.keywords s

/-- What was written to names in the frame of a scope, in order of time: the values that a root
starts with, declarations there, and assignments for which it was the nearest scope with the name. -/
def writesTo : {n : Nat} → History n → Scope → List (String × Value)
  | _, start, _ => []
  | n + 1, root past context _, s =>
    if s.index = n then context.values.entries else past.writesTo s
  | n + 1, child past _, s => if s.index = n then [] else past.writesTo s
  | _, declare past t name v, s =>
    if ⟨t⟩ = s then past.writesTo s ++ [(name, v)] else past.writesTo s
  | _, assign past t name v, s =>
    if (past.chain ⟨t⟩).find? (fun u => (past.writesTo u).any (·.1 == name)) = some s then
      past.writesTo s ++ [(name, v)]
    else past.writesTo s

def nearest? {n : Nat} (h : History n) (s : Scope) (name : String) : Option Scope :=
  (h.chain s).find? fun t => (h.writesTo t).any (·.1 == name)

def lastWritten? {n : Nat} (h : History n) (s : Scope) (name : String) : Option Value :=
  Bindings.lastWrite? (h.writesTo s) name

variable {n : Nat}

theorem size_store (h : History n) : h.store.frames.size = n := by
  induction h with
  | start => rfl
  | root past context _ ih | child past parent ih =>
    simp [store, Context.newScope, Store.addRoot, Store.addChild, Store.addFrame, ih]
  | declare past s name v ih => rw [store, Store.size_declare, ih]
  | assign past s name v ih =>
    rw [store, Store.assign?]
    cases past.store.binder? ⟨s⟩ name with
    | none => exact ih
    | some t => exact (Store.size_declare _ _ _ _).trans ih

theorem outer_assign? {σ τ : Store} {s : Scope} {name : String} {v : Value}
    (h : σ.assign? s name v = some τ) (t : Scope) :
    (τ.frame? t).map (·.outer) = (σ.frame? t).map (·.outer) := by
  obtain ⟨u, -, rfl⟩ := Option.map_eq_some_iff.mp h
  exact σ.outer_declare u t name v

theorem chain_store (h : History n) (s : Scope) : h.store.chain s = h.chain s := by
  induction h generalizing s with
  | start => exact Store.chain_of_none rfl
  | @root n past context _ ih =>
    rw [store, chain, Context.newScope, Store.addRoot]
    by_cases hs : s.index = n
    · rw [if_pos hs]
      refine Store.chain_of_root (f := ⟨context.values, .root context.keywords⟩) ?_ rfl
      rw [Store.frame?_addFrame, if_pos (by rw [size_store, hs])]
    · rw [if_neg hs, Store.chain_addFrame (by rwa [size_store]), ih]
  | @child n past parent ih =>
    rw [store, chain, Store.addChild]
    by_cases hs : s.index = n
    · have hframe : (past.store.addFrame ⟨.empty, .child ⟨parent⟩⟩).2.frame? s =
          some ⟨.empty, .child ⟨parent⟩⟩ := by
        rw [Store.frame?_addFrame, if_pos (by rw [size_store, hs])]
      have hlt : (parent : Nat) < s.index := hs ▸ parent.isLt
      rw [if_pos hs, Store.chain_of_child hframe rfl, if_pos hlt, Store.chain_addFrame, ih]
      rw [size_store]
      exact Nat.ne_of_lt parent.isLt
    · rw [if_neg hs, Store.chain_addFrame (by rwa [size_store]), ih]
  | declare past t name v ih =>
    rw [store, chain, Store.chain_congr (past.store.outer_declare _ · name v), ih]
  | assign past t name v ih =>
    rw [store, chain]
    cases ha : past.store.assign? ⟨t⟩ name v with
    | none => exact ih s
    | some τ => exact (Store.chain_congr (outer_assign? ha) s).trans (ih s)

theorem keywords_store (h : History n) (s : Scope) : h.store.keywords s = h.keywords s := by
  induction h generalizing s with
  | start =>
    rw [Store.keywords_eq]
    rfl
  | @root n past context _ ih =>
    rw [store, keywords, Context.newScope, Store.addRoot]
    by_cases hs : s.index = n
    · rw [if_pos hs, Store.keywords_eq, Store.frame?_addFrame, if_pos (by rw [size_store, hs])]
    · rw [if_neg hs, Store.keywords_addFrame (by rwa [size_store]), ih]
  | @child n past parent ih =>
    rw [store, keywords, Store.addChild]
    by_cases hs : s.index = n
    · have hlt : (parent : Nat) < s.index := hs ▸ parent.isLt
      rw [if_pos hs, Store.keywords_eq, Store.frame?_addFrame, if_pos (by rw [size_store, hs])]
      simp only
      rw [if_pos hlt, Store.keywords_addFrame, ih]
      rw [size_store]
      exact Nat.ne_of_lt parent.isLt
    · rw [if_neg hs, Store.keywords_addFrame (by rwa [size_store]), ih]
  | declare past t name v ih =>
    rw [store, keywords, Store.keywords_congr (past.store.outer_declare _ · name v), ih]
  | assign past t name v ih =>
    rw [store, keywords]
    cases ha : past.store.assign? ⟨t⟩ name v with
    | none => exact ih s
    | some τ => exact (Store.keywords_congr (outer_assign? ha) s).trans (ih s)

theorem binder?_of_bindings {h : History n}
    (hb : ∀ t, h.store.bindings t = .ofWrites (h.writesTo t)) (s : Scope) (name : String) :
    h.store.binder? s name = h.nearest? s name := by
  rw [Store.binder?, nearest?, chain_store]
  congr 1
  funext t
  rw [Bool.eq_iff_iff, Bindings.contains, hb, Bindings.find?_ofWrites, Bindings.isSome_lastWrite?]
  simp

theorem bindings_store (h : History n) (s : Scope) :
    h.store.bindings s = .ofWrites (h.writesTo s) := by
  induction h generalizing s with
  | start => rfl
  | @root n past context distinct ih =>
    rw [store, writesTo, Context.newScope, Store.addRoot, Store.bindings_addFrame, size_store]
    split
    · exact (Bindings.ofWrites_entries distinct).symm
    · exact ih s
  | @child n past parent ih =>
    rw [store, writesTo, Store.addChild, Store.bindings_addFrame, size_store]
    split
    · rfl
    · exact ih s
  | declare past t name v ih =>
    rw [store, writesTo, Store.bindings_declare (by rw [size_store]; exact t.isLt), ih]
    split
    · exact (Bindings.ofWrites_concat _ _ _).symm
    · rfl
  | assign past t name v ih =>
    have hbinder := binder?_of_bindings ih ⟨t⟩ name
    rw [store, writesTo, ← nearest?, ← hbinder, Store.assign?]
    cases hb : past.store.binder? ⟨t⟩ name with
    | none => exact ih s
    | some u =>
      simp only [Option.map_some, Option.getD_some, Option.some.injEq]
      rw [Store.bindings_declare (Store.lt_size_of_binder? hb), ih]
      split
      · exact (Bindings.ofWrites_concat _ _ _).symm
      · rfl

theorem binder?_store (h : History n) (s : Scope) (name : String) :
    h.store.binder? s name = h.nearest? s name :=
  binder?_of_bindings h.bindings_store s name

theorem lookupLocal_store (h : History n) (s : Scope) (name : String) :
    h.store.lookupLocal s name = h.lastWritten? s name := by
  rw [Store.lookupLocal, bindings_store, Bindings.find?_ofWrites, lastWritten?]

theorem exists_lastWritten? {h : History n} {s t : Scope} {name : String}
    (ht : h.nearest? s name = some t) : ∃ v, h.lastWritten? t name = some v := by
  have hany : (h.writesTo t).any (·.1 == name) = true := by simpa using List.find?_some ht
  rw [← Option.isSome_iff_exists, lastWritten?, Bindings.isSome_lastWrite?]
  simpa using hany

theorem lastWritten?_of_nearest?_eq_none {h : History n} {s t : Scope} {name : String}
    (hnone : h.nearest? s name = none) (ht : t ∈ h.chain s) : h.lastWritten? t name = none := by
  have hany := List.find?_eq_none.mp hnone t ht
  rw [← Option.not_isSome_iff_eq_none, lastWritten?, Bindings.isSome_lastWrite?]
  simpa using hany

end History

structure Store.SetsSlot (σ : Store) (s : Scope) (name : String) (v : Value) (τ : Store) :
    Prop where
  slot : τ.lookupLocal s name = some v
  others : ∀ t m, t ≠ s ∨ m ≠ name → τ.lookupLocal t m = σ.lookupLocal t m
  names : ∀ t, (τ.bindings t).names = (σ.bindings t).names
  outer : ∀ t, (τ.frame? t).map (·.outer) = (σ.frame? t).map (·.outer)
  functions : τ.functions = σ.functions
  journal : τ.journal = σ.journal

theorem Store.setsSlot_declare {σ : Store} {s t : Scope} {name : String}
    (h : σ.binder? s name = some t) (v : Value) : σ.SetsSlot t name v (σ.declare t name v) := by
  have ht := lt_size_of_binder? h
  refine ⟨?_, ?_, ?_, fun u => σ.outer_declare t u name v, rfl, rfl⟩
  · rw [lookupLocal, bindings_declare ht, if_pos rfl, Bindings.find?_insert, if_pos rfl]
  · intro u m hne
    rw [lookupLocal, bindings_declare ht, lookupLocal]
    split
    · rename_i htu
      rw [Bindings.find?_insert, if_neg]
      exact fun hm => hne.elim (fun hu => hu htu.symm) fun hm' => hm' hm.symm
    · rfl
  · intro u
    rw [bindings_declare ht]
    split
    · rename_i htu
      rw [Bindings.names_insert, if_pos (htu ▸ mem_names_of_binder? h)]
    · rfl

/--
Looking a name up gives the value last written to it in the nearest scope where it was written, and
a keyword if there is none. Assigning changes that slot alone, or fails and changes nothing. A frame
lists its names once each, in the order in which they were first written.
-/
theorem History.store_follows {n : Nat} (h : History n) (s : Scope) (name : String) :
    (∀ t, h.nearest? s name = some t →
      ∃ v, h.lastWritten? t name = some v ∧ h.store.lookup s name = some v) ∧
    (h.nearest? s name = none →
      h.store.lookup s name = (h.store.keyword? s name).map .keyword) ∧
    h.store.keyword? s name = (h.keywords s).find? name ∧
    (∀ v, (∃ t τ, h.nearest? s name = some t ∧
        Eval.assign s name v h.store = (.value true, τ) ∧ h.store.SetsSlot t name v τ) ∨
      (∀ t ∈ h.chain s, h.lastWritten? t name = none) ∧
        Eval.assign s name v h.store = (.value false, h.store)) ∧
    (h.store.bindings s).names.Nodup ∧
    h.store.bindings s = .ofWrites (h.writesTo s) := by
  refine ⟨?_, ?_, ?_, ?_, ?_, h.bindings_store s⟩
  · intro t ht
    obtain ⟨v, hv⟩ := exists_lastWritten? ht
    refine ⟨v, hv, ?_⟩
    rw [Store.lookup, binder?_store, ht]
    exact (h.lookupLocal_store t name).trans hv
  · intro hnone
    rw [Store.lookup, binder?_store, hnone]
  · rw [Store.keyword?, keywords_store]
  · intro v
    rw [Eval.assign, Store.assign?]
    cases hb : h.store.binder? s name with
    | none =>
      rw [binder?_store] at hb
      exact .inr ⟨fun t => lastWritten?_of_nearest?_eq_none hb, rfl⟩
    | some t =>
      refine .inl ⟨t, _, ?_, rfl, Store.setsSlot_declare hb v⟩
      rwa [binder?_store] at hb
  · rw [bindings_store, Bindings.names_ofWrites]
    exact Bindings.nodup_eraseDups _

end Fexpr
