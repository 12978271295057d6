import Fexpr.Proofs.InvalidCallee
import Fexpr.Proofs.ScopeHistory
import Fexpr.Proofs.SharedTables
import Fexpr.Proofs.WellFormed
import Fexpr.Session

/-!
# Contexts and their history

An embedding program adds to contexts, copies them, and makes programs, scopes and sessions of them.
What each of these knows is read off the additions that were made to its context up to the moment
when it was made, and for a context up to now. It makes no difference to anyone that tables are
shared.
-/

namespace Fexpr

inductive Addition where
  | keyword (name : String) (k : Keyword)
  | value (name : String) (v : Value)

namespace Addition

def name : Addition → String
  | keyword name _ => name
  | value name _ => name

def tryOn (c : Context) : Addition → Except NameError Context
  | keyword name k => c.register name k
  | value name v => c.define name v

def accepted (a : Addition) : Bool := (checkName a.name).isOk

def onto (c : Context) : Addition → Context
  | keyword name k => { c with keywords := c.keywords.insert name k }
  | value name v => { c with values := c.values.insert name v }

theorem tryOn_eq (a : Addition) (c : Context) :
    a.tryOn c = checkName a.name >>= fun _ => .ok (a.onto c) := by
  cases a <;> rfl

theorem tryOn_of_accepted {a : Addition} (h : a.accepted = true) (c : Context) :
    a.tryOn c = .ok (a.onto c) := by
  rw [tryOn_eq]
  rw [accepted] at h
  cases hcheck : checkName a.name with
  | ok _ => rfl
  | error e =>
    rw [hcheck] at h
    cases h

theorem tryOn_of_refused {a : Addition} (h : a.accepted = false) (c : Context) :
    ∃ e, a.tryOn c = .error e := by
  rw [tryOn_eq]
  rw [accepted] at h
  cases hcheck : checkName a.name with
  | ok _ =>
    rw [hcheck] at h
    cases h
  | error e => exact ⟨e, rfl⟩

theorem not_isReserved_of_accepted {a : Addition} (h : a.accepted = true) :
    isReserved a.name = false := by
  rw [accepted, checkName] at h
  cases hreserved : isReserved a.name with
  | false => rfl
  | true =>
    rw [hreserved] at h
    cases hname : isName a.name <;> rw [hname] at h <;> cases h

def keyword? : Addition → Option (String × Keyword)
  | keyword name k => some (name, k)
  | value _ _ => none

def value? : Addition → Option (String × Value)
  | keyword _ _ => none
  | value name v => some (name, v)

theorem name_of_keyword? (a : Addition) (w : String × Keyword) (h : a.keyword? = some w) :
    a.name = w.1 := by
  cases a <;> cases h
  rfl

theorem name_of_value? (a : Addition) (w : String × Value) (h : a.value? = some w) :
    a.name = w.1 := by
  cases a <;> cases h
  rfl

end Addition

section

variable {α : Type}

def written (kind : Addition → Option (String × α)) (past : List Addition) : List (String × α) :=
  (past.filter Addition.accepted).filterMap kind

theorem written_concat (kind : Addition → Option (String × α)) (past : List Addition)
    (a : Addition) :
    written kind (past ++ [a]) =
      written kind past ++ if a.accepted then (kind a).toList else [] := by
  rw [written, List.filter_append, List.filterMap_append, List.filter_singleton]
  cases a.accepted with
  | true =>
    cases hkind : kind a with
    | none => rw [cond_true, List.filterMap_cons_none hkind]; rfl
    | some w => rw [cond_true, List.filterMap_cons_some hkind]; rfl
  | false => rfl

theorem not_mem_written {kind : Addition → Option (String × α)}
    (hkind : ∀ a w, kind a = some w → a.name = w.1) {name : String}
    (hname : isReserved name = true) (past : List Addition) :
    name ∉ (written kind past).map (·.1) := by
  intro hmem
  obtain ⟨w, hw, rfl⟩ := List.mem_map.mp hmem
  obtain ⟨a, ha, haw⟩ := List.mem_filterMap.mp hw
  have hfree := Addition.not_isReserved_of_accepted (List.mem_filter.mp ha).2
  rw [hkind a w haw, hname] at hfree
  cases hfree

end

abbrev registered (past : List Addition) : List (String × Keyword) :=
  written Addition.keyword? past

abbrev defined (past : List Addition) : List (String × Value) := written Addition.value? past

namespace Context

def add (c : Context) (a : Addition) : Context := (a.tryOn c).toOption.getD c

def addAll (c : Context) (past : List Addition) : Context := past.foldl add c

theorem addAll_concat (c : Context) (past : List Addition) (a : Addition) :
    c.addAll (past ++ [a]) = (c.addAll past).add a := by
  rw [addAll, List.foldl_append]
  rfl

theorem add_of_accepted {a : Addition} (h : a.accepted = true) (c : Context) :
    c.add a = a.onto c := by
  rw [add, Addition.tryOn_of_accepted h]
  rfl

theorem add_of_refused {a : Addition} (h : a.accepted = false) (c : Context) : c.add a = c := by
  obtain ⟨e, hrefused⟩ := Addition.tryOn_of_refused h c
  rw [add, hrefused]
  rfl

end Context

theorem Keywords.names_builtins (table : Nat) :
    (Keywords.builtins table).names = Builtin.every.map Builtin.name := rfl

theorem Context.addAll_builtin (table : Nat) (past : List Addition) :
    (Context.builtin table).addAll past =
      ⟨.ofWrites ((Keywords.builtins table).entries ++ written Addition.keyword? past),
        .ofWrites (constants.entries ++ written Addition.value? past)⟩ := by
  induction past using List.reverseRecOn with
  | nil =>
    have hkeywords : (Keywords.builtins table).names.Nodup := by
      rw [Keywords.names_builtins]
      decide
    have hvalues : constants.names.Nodup := by decide
    change builtin table = ⟨.ofWrites (_ ++ []), .ofWrites (_ ++ [])⟩
    rw [List.append_nil, List.append_nil, Bindings.ofWrites_entries hkeywords,
      Bindings.ofWrites_entries hvalues]
    rfl
  | append_singleton past a ih =>
    rw [addAll_concat, ih, written_concat, written_concat, ← List.append_assoc,
      ← List.append_assoc]
    cases haccepted : a.accepted with
    | false =>
      rw [add_of_refused haccepted, if_neg Bool.false_ne_true, if_neg Bool.false_ne_true,
        List.append_nil, List.append_nil]
    | true =>
      rw [add_of_accepted haccepted, if_pos rfl, if_pos rfl]
      cases a with
      | keyword name k =>
        change _ = Context.mk (.ofWrites (_ ++ [(name, k)])) (.ofWrites (_ ++ []))
        rw [Bindings.ofWrites_concat, List.append_nil]
        rfl
      | value name v =>
        change _ = Context.mk (.ofWrites (_ ++ [])) (.ofWrites (_ ++ [(name, v)]))
        rw [Bindings.ofWrites_concat, List.append_nil]
        rfl

theorem isReserved_builtin (b : Builtin) : isReserved b.name = true := by
  cases b <;> decide

theorem isReserved_of_mem_constantNames {name : String} (h : name ∈ constantNames) :
    isReserved name = true := by
  rw [isReserved, List.contains_iff_mem.mpr h, Bool.true_or]

structure Follows (table : Nat) (past : List Addition) (c : Context) : Prop where
  builtins : ∀ b : Builtin, c.keywords.find? b.name = some (.builtin table b)
  constants : ∀ e ∈ Context.constants.entries, c.values.find? e.1 = some e.2
  keywords : ∀ name, name ∉ Builtin.every.map Builtin.name →
    c.keywords.find? name = Bindings.lastWrite? (registered past) name
  values : ∀ name, name ∉ constantNames →
    c.values.find? name = Bindings.lastWrite? (defined past) name
  order : c.values.names = constantNames ++ ((defined past).map (·.1)).eraseDups

theorem follows_addAll (table : Nat) (past : List Addition) :
    Follows table past ((Context.builtin table).addAll past) := by
  rw [Context.addAll_builtin]
  -- reserved names are in the first writes and other names in the later ones, so each lookup
  -- needs one of the two parts
  have hkeywords {name : String} (h : isReserved name = true) :
      name ∉ (registered past).map (·.1) := not_mem_written Addition.name_of_keyword? h past
  have hvalues {name : String} (h : name ∈ constantNames) :
      name ∉ (defined past).map (·.1) :=
    not_mem_written Addition.name_of_value? (isReserved_of_mem_constantNames h) past
  constructor
  case builtins =>
    intro b
    rw [Bindings.find?_ofWrites, Bindings.lastWrite?_append,
      Bindings.lastWrite?_of_not_mem (hkeywords (isReserved_builtin b)), Option.none_or]
    cases b <;> rfl
  case constants =>
    intro e he
    have hname : e.1 ∈ constantNames := List.mem_map.mpr ⟨e, he, rfl⟩
    rw [Bindings.find?_ofWrites, Bindings.lastWrite?_append,
      Bindings.lastWrite?_of_not_mem (hvalues hname), Option.none_or]
    revert e
    decide
  case keywords =>
    intro name hname
    have hother : name ∉ (Keywords.builtins table).entries.map (·.1) := hname
    rw [Bindings.find?_ofWrites, Bindings.lastWrite?_append,
      Bindings.lastWrite?_of_not_mem hother, Option.or_none]
  case values =>
    intro name hname
    have hother : name ∉ Context.constants.entries.map (·.1) := hname
    rw [Bindings.find?_ofWrites, Bindings.lastWrite?_append,
      Bindings.lastWrite?_of_not_mem hother, Option.or_none]
  case order =>
    have hnew : ((defined past).map (·.1)).removeAll constantNames = (defined past).map (·.1) := by
      rw [List.removeAll, List.filter_eq_self]
      intro name hname
      have hother : name ∉ constantNames := fun h => hvalues h hname
      simpa using hother
    rw [Bindings.names_ofWrites, List.map_append, List.eraseDups_append]
    change _ ++ (((defined past).map (·.1)).removeAll constantNames).eraseDups = _
    rw [hnew]
    congr 1

inductive Use where
  | program (source : Source)
  | scope
  | session

inductive Derived where
  | program (p : Program)
  | scope (s : Scope)
  | session (s : Session)

namespace Derived

/--
Something has the keywords and the values of a context. Those of a scope lie in the store. A program
also has the code that belongs to the keywords.
-/
def Holds (σ : Store) (c : Context) : Derived → Prop
  | program p => p.context = c ∧ Program.compile p.source c = .ok p
  | scope s => σ.frame? s = some ⟨c.values, .root c.keywords⟩
  | session s => s.context = c ∧ σ.frame? s.scope = some ⟨c.values, .root c.keywords⟩

def keywords (σ : Store) : Derived → Keywords
  | program p => p.context.keywords
  | scope s => σ.keywords s
  | session s => σ.keywords s.scope

theorem keywords_of_holds {σ : Store} {c : Context} {d : Derived} (h : d.Holds σ c) :
    d.keywords σ = c.keywords := by
  cases d with
  | program p => exact congrArg Context.keywords h.1
  | scope s =>
    change σ.frame? s = _ at h
    rw [keywords, Store.keywords_eq, h]
  | session s => rw [keywords, Store.keywords_eq, h.2]

theorem holds_addFrame {σ : Store} {c : Context} {d : Derived} (h : d.Holds σ c) (f : Frame) :
    d.Holds (σ.addFrame f).2 c := by
  have hframe {s : Scope} {g : Frame} (hs : σ.frame? s = some g) :
      (σ.addFrame f).2.frame? s = some g := by
    rw [Store.frame?_addFrame, if_neg (Nat.ne_of_lt (Store.lt_size_of_frame? hs)), hs]
  cases d with
  | program p => exact h
  | scope s => exact hframe h
  | session s => exact ⟨h.1, hframe h.2⟩

end Derived

namespace Use

def make (c : Context) (σ : Store) : Use → Option Derived × Store
  | program source => ((Program.compile source c).toOption.map .program, σ)
  | scope => (some (.scope (c.newScope σ).1), (c.newScope σ).2)
  | session => (some (.session (Session.start c σ).1), (Session.start c σ).2)

def succeeds : Use → Bool
  | program source => (parse source.text).isOk
  | scope => true
  | session => true

theorem make_of_succeeds {use : Use} (h : use.succeeds = true) (c : Context) (σ : Store) :
    ∃ d, (use.make c σ).1 = some d ∧ d.Holds (use.make c σ).2 c := by
  have hroot := Store.frame?_addFrame_self σ ⟨c.values, .root c.keywords⟩
  cases use with
  | program source =>
    cases hcompile : Program.compile source c with
    | error e =>
      rw [succeeds, Program.compile_eq_error_iff.mp hcompile] at h
      cases h
    | ok p =>
      obtain ⟨tree, body, -, -, rfl⟩ := Program.compile_eq_ok_iff.mp hcompile
      refine ⟨.program ⟨source, c, body⟩, ?_, rfl, hcompile⟩
      rw [make, hcompile]
      rfl
  | scope => exact ⟨_, rfl, hroot⟩
  | session => exact ⟨_, rfl, rfl, hroot⟩

theorem make_of_fails {use : Use} (h : use.succeeds = false) (c : Context) (σ : Store) :
    use.make c σ = (none, σ) := by
  cases use with
  | program source =>
    cases hparse : parse source.text with
    | error e =>
      rw [make, Program.compile_eq_error_iff.mpr hparse]
      rfl
    | ok tree =>
      rw [succeeds, hparse] at h
      cases h
  | scope => cases h
  | session => cases h

theorem holds_make {σ : Store} {d : Derived} {c' : Context} (h : d.Holds σ c') (use : Use)
    (c : Context) : d.Holds (use.make c σ).2 c' := by
  cases use with
  | program source => exact h
  | scope => exact d.holds_addFrame h _
  | session => exact d.holds_addFrame h _

end Use

/-- What an embedding program does with its contexts, which are numbered as they come. -/
inductive Act where
  | add (i : Nat) (a : Addition)
  | clone (i : Nat)
  | make (i : Nat) (use : Use)

structure Holdings where
  contexts : List Context
  derived : List Derived
  store : Store

namespace Holdings

def step (h : Holdings) : Act → Holdings
  | .add i a => { h with contexts := h.contexts.modify i (·.add a) }
  | .clone i => { h with contexts := h.contexts ++ h.contexts[i]?.toList }
  | .make i use =>
    match h.contexts[i]? with
    | none => h
    | some c =>
      { h with
        derived := h.derived ++ (use.make c h.store).1.toList
        store := (use.make c h.store).2 }

theorem step_make_of_some {h : Holdings} {i : Nat} {c : Context} (hc : h.contexts[i]? = some c)
    (use : Use) :
    h.step (.make i use) =
      ⟨h.contexts, h.derived ++ (use.make c h.store).1.toList, (use.make c h.store).2⟩ := by
  rw [step, hc]

def after (table : Nat) (σ : Store) (acts : List Act) : Holdings :=
  acts.foldl step ⟨[.builtin table], [], σ⟩

end Holdings

/-- The additions up to now to each context, and to the context of each thing until it was made. -/
structure Past where
  contexts : List (List Addition)
  derived : List (List Addition)

namespace Past

def step (past : Past) : Act → Past
  | .add i a => { past with contexts := past.contexts.modify i (· ++ [a]) }
  | .clone i => { past with contexts := past.contexts ++ past.contexts[i]?.toList }
  | .make i use =>
    if use.succeeds then { past with derived := past.derived ++ past.contexts[i]?.toList } else past

def after (acts : List Act) : Past := acts.foldl step ⟨[[]], []⟩

end Past

structure Holdings.Recalls (table : Nat) (past : Past) (h : Holdings) : Prop where
  contexts : h.contexts = past.contexts.map (Context.builtin table).addAll
  derived : List.Forall₂ (fun p d => d.Holds h.store ((Context.builtin table).addAll p))
    past.derived h.derived

namespace Holdings

variable {table : Nat} {past : Past} {h : Holdings}

theorem map_modify {α β : Type} {f : α → β} {g : α → α} {g' : β → β}
    (h : ∀ x, f (g x) = g' (f x)) (l : List α) (i : Nat) :
    (l.modify i g).map f = (l.map f).modify i g' := by
  apply List.ext_getElem?
  intro j
  rw [List.getElem?_map, List.getElem?_modify, List.getElem?_modify, List.getElem?_map]
  cases l[j]? with
  | none => rfl
  | some x =>
    change some (f (if i = j then g x else x)) = some (if i = j then g' (f x) else f x)
    rw [apply_ite f, h]

theorem Recalls.add (hrecalls : h.Recalls table past) (i : Nat) (a : Addition) :
    (h.step (.add i a)).Recalls table (past.step (.add i a)) := by
  refine ⟨?_, hrecalls.derived⟩
  change h.contexts.modify i (·.add a) = (past.contexts.modify i (· ++ [a])).map _
  rw [hrecalls.contexts]
  exact (map_modify (fun p => Context.addAll_concat _ p a) _ i).symm

theorem Recalls.clone (hrecalls : h.Recalls table past) (i : Nat) :
    (h.step (.clone i)).Recalls table (past.step (.clone i)) := by
  refine ⟨?_, hrecalls.derived⟩
  change h.contexts ++ h.contexts[i]?.toList = (past.contexts ++ past.contexts[i]?.toList).map _
  rw [hrecalls.contexts, List.map_append, List.getElem?_map]
  cases past.contexts[i]? <;> rfl

theorem Recalls.make (hrecalls : h.Recalls table past) (i : Nat) (use : Use) :
    (h.step (.make i use)).Recalls table (past.step (.make i use)) := by
  have hcontext : h.contexts[i]? = past.contexts[i]?.map (Context.builtin table).addAll := by
    rw [hrecalls.contexts, List.getElem?_map]
  cases hp : past.contexts[i]? with
  | none =>
    rw [hp] at hcontext
    rw [step, Past.step, hcontext, hp, Option.toList_none, List.append_nil, ite_self]
    exact hrecalls
  | some p =>
    rw [hp] at hcontext
    rw [step_make_of_some hcontext, Past.step, hp]
    cases huse : use.succeeds with
    | false =>
      rw [Use.make_of_fails huse, Option.toList_none, List.append_nil, if_neg Bool.false_ne_true]
      exact hrecalls
    | true =>
      obtain ⟨d, hd, hholds⟩ := use.make_of_succeeds huse ((Context.builtin table).addAll p) h.store
      -- what was made before does not notice the new frame
      have hkept := hrecalls.derived.imp fun _ _ hother =>
        use.holds_make hother ((Context.builtin table).addAll p)
      rw [hd, if_pos rfl]
      exact ⟨hrecalls.contexts, List.rel_append hkept (.cons hholds .nil)⟩

theorem Recalls.step (hrecalls : h.Recalls table past) (act : Act) :
    (h.step act).Recalls table (past.step act) := by
  cases act with
  | add i a => exact hrecalls.add i a
  | clone i => exact hrecalls.clone i
  | make i use => exact hrecalls.make i use

theorem recalls_after (table : Nat) (σ : Store) (acts : List Act) :
    (Holdings.after table σ acts).Recalls table (Past.after acts) := by
  induction acts using List.reverseRecOn with
  | nil => exact ⟨rfl, .nil⟩
  | append_singleton acts act ih =>
    rw [Holdings.after, Past.after, List.foldl_append, List.foldl_append]
    exact ih.step act

structure Spares (h : Holdings) (act : Act) : Prop where
  contexts : ∀ j < h.contexts.length, (∀ a, act ≠ .add j a) →
    (h.step act).contexts[j]? = h.contexts[j]?
  derived : (∀ i use, act ≠ .make i use) → (h.step act).derived = h.derived
  store : (∀ i use, act ≠ .make i use) → (h.step act).store = h.store
  refused : ∀ i a c e, act = .add i a → h.contexts[i]? = some c → a.tryOn c = .error e →
    h.step act = h

theorem step_add_of_refused {h : Holdings} {i : Nat} {a : Addition} {c : Context} {e : NameError}
    (hc : h.contexts[i]? = some c) (he : a.tryOn c = .error e) : h.step (.add i a) = h := by
  have hadd : c.add a = c := by
    rw [Context.add, he]
    rfl
  have hcontexts : h.contexts.modify i (·.add a) = h.contexts := by
    apply List.ext_getElem?
    intro j
    by_cases hj : i = j
    · subst hj
      rw [List.getElem?_modify_eq, hc]
      exact congrArg some hadd
    · rw [List.getElem?_modify_ne _ _ hj]
  rw [step, hcontexts]

theorem spares_step (h : Holdings) (act : Act) : h.Spares act := by
  cases act with
  | add i a =>
    refine ⟨?_, fun _ => rfl, fun _ => rfl, ?_⟩
    · intro j _ hother
      exact List.getElem?_modify_ne _ _ fun hij => hother a (hij ▸ rfl)
    · intro i' a' c e hact hc he
      cases hact
      exact step_add_of_refused hc he
  | clone i =>
    refine ⟨?_, fun _ => rfl, fun _ => rfl, ?_⟩
    · intro j hj _
      exact List.getElem?_append_left hj
    · intro i' a c e hact
      cases hact
  | make i use =>
    refine ⟨?_, fun h => absurd rfl (h i use), fun h => absurd rfl (h i use), ?_⟩
    · intro j _ _
      cases hc : h.contexts[i]? with
      | none => rw [step, hc]
      | some c => rw [step_make_of_some hc]
    · intro i' a c e hact
      cases hact

end Holdings

/--
Keeps keywords in cells. A copy of a context and all that is made of it hold the cell of the
context; registering writes.
-/
def shelve (t : Cells Keywords) : Act → Cells Keywords
  | .add i (.keyword name k) =>
    if (Addition.keyword name k).accepted then t.write i (·.insert name k) else t
  | .add _ (.value _ _) => t
  | .clone i => t.copy i
  | .make i use => if use.succeeds then t.lend i else t

def shelf (table : Nat) (acts : List Act) : Cells Keywords :=
  acts.foldl shelve (.single (.builtins table))

def keywordsAfter (table : Nat) (past : List Addition) : Keywords :=
  ((Context.builtin table).addAll past).keywords

structure Shares (table : Nat) (past : Past) (t : Cells Keywords) : Prop where
  writers : t.writers.length = past.contexts.length
  readers : t.readers.length = past.derived.length
  seen : ∀ i, t.seen i = past.contexts[i]?.map (keywordsAfter table)
  read : ∀ j, t.read j = past.derived[j]?.map (keywordsAfter table)

namespace Shares

variable {table : Nat} {past : Past} {t : Cells Keywords}

theorem getElem?_step_add {a : Addition} {f : Keywords → Keywords}
    (hf : ∀ p, keywordsAfter table (p ++ [a]) = f (keywordsAfter table p)) (past : Past)
    (i j : Nat) :
    (past.step (.add i a)).contexts[j]?.map (keywordsAfter table) =
      (past.contexts[j]?.map (keywordsAfter table)).map (if i = j then f else id) := by
  change (past.contexts.modify i (· ++ [a]))[j]?.map _ = _
  by_cases hij : i = j
  · subst hij
    rw [List.getElem?_modify_eq, if_pos rfl]
    cases past.contexts[i]? with
    | none => rfl
    | some p => exact congrArg some (hf p)
  · rw [List.getElem?_modify_ne _ _ hij, if_neg hij, Option.map_id, id]

theorem write (hshares : Shares table past t) (i : Nat) {a : Addition} {f : Keywords → Keywords}
    (hf : ∀ p, keywordsAfter table (p ++ [a]) = f (keywordsAfter table p)) :
    Shares table (past.step (.add i a)) (t.write i f) := by
  constructor
  case writers =>
    rw [t.length_writers_write, hshares.writers]
    exact (List.length_modify ..).symm
  case readers =>
    rw [t.readers_write]
    exact hshares.readers
  case seen =>
    intro j
    rw [getElem?_step_add hf, ← hshares.seen]
    by_cases hij : i = j
    · subst hij
      rw [t.seen_write_self, if_pos rfl]
    · rw [t.seen_write_ne hij, if_neg hij, Option.map_id, id]
  case read =>
    intro j
    rw [t.read_write]
    exact hshares.read j

theorem unwritten (hshares : Shares table past t) (i : Nat) {a : Addition}
    (ha : ∀ p, keywordsAfter table (p ++ [a]) = keywordsAfter table p) :
    Shares table (past.step (.add i a)) t := by
  refine ⟨?_, hshares.readers, ?_, hshares.read⟩
  · rw [hshares.writers]
    exact (List.length_modify ..).symm
  · intro j
    have hid : ∀ p, keywordsAfter table (p ++ [a]) = id (keywordsAfter table p) := ha
    rw [getElem?_step_add hid, ← hshares.seen, ite_self, Option.map_id, id]

theorem add (hshares : Shares table past t) (i : Nat) (a : Addition) :
    Shares table (past.step (.add i a)) (shelve t (.add i a)) := by
  have hadd (p : List Addition) :
      keywordsAfter table (p ++ [a]) = (((Context.builtin table).addAll p).add a).keywords := by
    rw [keywordsAfter, Context.addAll_concat]
  cases haccepted : a.accepted with
  | false =>
    have hkept : shelve t (.add i a) = t := by
      cases a with
      | keyword name k => rw [shelve, haccepted, if_neg Bool.false_ne_true]
      | value name v => rfl
    rw [hkept]
    refine hshares.unwritten i fun p => ?_
    rw [hadd, Context.add_of_refused haccepted]
    rfl
  | true =>
    cases a with
    | keyword name k =>
      rw [shelve, if_pos haccepted]
      refine hshares.write i fun p => ?_
      rw [hadd, Context.add_of_accepted haccepted]
      rfl
    | value name v =>
      refine hshares.unwritten i fun p => ?_
      rw [hadd, Context.add_of_accepted haccepted]
      rfl

theorem clone (hshares : Shares table past t) (i : Nat) :
    Shares table (past.step (.clone i)) (shelve t (.clone i)) := by
  refine ⟨?_, hshares.readers, ?_, hshares.read⟩
  · change (t.writers ++ t.writers[i]?.toList).length =
      (past.contexts ++ past.contexts[i]?.toList).length
    rw [List.length_append, List.length_append, Cells.length_toList_getElem?,
      Cells.length_toList_getElem?, hshares.writers]
  · intro j
    change (t.copy i).seen j = (past.contexts ++ past.contexts[i]?.toList)[j]?.map _
    rw [t.seen_copy, Cells.getElem?_append_toList, hshares.writers, hshares.seen, hshares.seen,
      apply_ite (Option.map _)]

theorem lend (hshares : Shares table past t) (i : Nat) :
    Shares table ⟨past.contexts, past.derived ++ past.contexts[i]?.toList⟩ (t.lend i) := by
  refine ⟨hshares.writers, ?_, hshares.seen, ?_⟩
  · change (t.readers ++ t.writers[i]?.toList).length = _
    rw [List.length_append, List.length_append, Cells.length_toList_getElem?,
      Cells.length_toList_getElem?, hshares.writers, hshares.readers]
  · intro j
    rw [t.read_lend, Cells.getElem?_append_toList, hshares.readers, hshares.seen, hshares.read,
      apply_ite (Option.map _)]

theorem make (hshares : Shares table past t) (i : Nat) (use : Use) :
    Shares table (past.step (.make i use)) (shelve t (.make i use)) := by
  rw [Past.step, shelve]
  cases use.succeeds with
  | false => exact hshares
  | true => exact hshares.lend i

theorem step (hshares : Shares table past t) (act : Act) :
    Shares table (past.step act) (shelve t act) := by
  cases act with
  | add i a => exact hshares.add i a
  | clone i => exact hshares.clone i
  | make i use => exact hshares.make i use

end Shares

theorem shares_after (table : Nat) (acts : List Act) :
    Shares table (Past.after acts) (shelf table acts) := by
  induction acts using List.reverseRecOn with
  | nil =>
    refine ⟨rfl, rfl, ?_, fun _ => rfl⟩
    intro i
    cases i <;> rfl
  | append_singleton acts act ih =>
    rw [shelf, Past.after, List.foldl_append, List.foldl_append]
    exact ih.step act

theorem Addition.exists_tryOn_iff (a : Addition) (c : Context) :
    (∃ c', a.tryOn c = .ok c') ↔ a.accepted = true := by
  cases haccepted : a.accepted with
  | true => exact ⟨fun _ => rfl, fun _ => ⟨_, a.tryOn_of_accepted haccepted c⟩⟩
  | false =>
    obtain ⟨e, he⟩ := a.tryOn_of_refused haccepted c
    rw [he]
    constructor
    · rintro ⟨c', h⟩
      cases h
    · intro h
      cases h

/--
Whatever is done with contexts, each has what its own additions gave it, and what was made of one
has what the context had by then. Cells that are shared until they are written show everyone
the same keywords. An addition touches its own context only, and not even that if it is refused.
-/
theorem contexts_follow_history (table : Nat) (σ : Store) (acts : List Act) :
    List.Forall₂ (Follows table) (Past.after acts).contexts
      (Holdings.after table σ acts).contexts ∧
    List.Forall₂ (fun past d => ∃ c, Follows table past c ∧
        d.Holds (Holdings.after table σ acts).store c)
      (Past.after acts).derived (Holdings.after table σ acts).derived ∧
    (∀ i, (shelf table acts).seen i =
      (Holdings.after table σ acts).contexts[i]?.map Context.keywords) ∧
    (∀ j, (shelf table acts).read j = (Holdings.after table σ acts).derived[j]?.map
      (Derived.keywords (Holdings.after table σ acts).store)) ∧
    (∀ (a : Addition) c, (∃ c', a.tryOn c = .ok c') ↔ a.accepted = true) ∧
    ∀ (h : Holdings) act, h.Spares act := by
  have hrecalls := Holdings.recalls_after table σ acts
  have hshares := shares_after table acts
  refine ⟨?_, ?_, ?_, ?_, Addition.exists_tryOn_iff, Holdings.spares_step⟩
  · rw [hrecalls.contexts, List.forall₂_map_right_iff, List.forall₂_same]
    exact fun past _ => follows_addAll table past
  · exact hrecalls.derived.imp fun past d hd => ⟨_, follows_addAll table past, hd⟩
  · intro i
    rw [hshares.seen, hrecalls.contexts, List.getElem?_map, Option.map_map]
    rfl
  · intro j
    have hkeywords : (Past.after acts).derived.map (keywordsAfter table) =
        (Holdings.after table σ acts).derived.map
          (Derived.keywords (Holdings.after table σ acts).store) := by
      rw [← List.forall₂_eq_eq_eq, List.forall₂_map_left_iff, List.forall₂_map_right_iff]
      exact hrecalls.derived.imp fun past d hd => (Derived.keywords_of_holds hd).symm
    rw [hshares.read, ← List.getElem?_map, hkeywords, List.getElem?_map]

/-- A copy gets a keyword, a session is made of it, and it gets another keyword of that name. -/
def replacedKeyword : List Act :=
  [.clone 0, .add 1 (.keyword "f" (.host 0 "f")), .make 1 .session,
    .add 1 (.keyword "f" (.host 1 "f")), .add 1 (.value "if" .null)]

theorem contexts_follow_history_replaced :
    (shelf 0 replacedKeyword).read 0 =
      (Holdings.after 0 .empty replacedKeyword).derived[0]?.map
        (Derived.keywords (Holdings.after 0 .empty replacedKeyword).store) ∧
    ∃ original copy, (Holdings.after 0 .empty replacedKeyword).contexts = [original, copy] ∧
      original.keywords.find? "f" = none ∧ copy.keywords.find? "f" = some (.host 1 "f") ∧
      copy.values.find? "if" = none ∧
      ∃ d c, (Holdings.after 0 .empty replacedKeyword).derived = [d] ∧
        d.Holds (Holdings.after 0 .empty replacedKeyword).store c ∧
        c.keywords.find? "f" = some (.host 0 "f") := by
  obtain ⟨hcontexts, hderived, -, hread, -, -⟩ := contexts_follow_history 0 .empty replacedKeyword
  refine ⟨hread 0, ?_⟩
  generalize (Holdings.after 0 .empty replacedKeyword).contexts = contexts at hcontexts ⊢
  generalize (Holdings.after 0 .empty replacedKeyword).derived = derived at hderived ⊢
  cases hcontexts with
  | cons hfirst hrest =>
    cases hrest with
    | cons hcopy hnil =>
      cases hnil
      cases hderived with
      | cons hsession hnil =>
        cases hnil
        obtain ⟨c, hc, hholds⟩ := hsession
        refine ⟨_, _, rfl, ?_, ?_, ?_, _, c, rfl, hholds, ?_⟩
        · rw [hfirst.keywords "f" (by decide)]
          rfl
        · rw [hcopy.keywords "f" (by decide)]
          decide +kernel
        · rw [hcopy.values "if" (by decide)]
          decide +kernel
        · rw [hc.keywords "f" (by decide)]
          decide +kernel

end Fexpr
