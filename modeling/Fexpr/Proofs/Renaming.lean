import Mathlib.Data.Set.Function
import Mathlib.Logic.Equiv.Basic
import Fexpr.Proofs.Region

/-!
# Names mean nothing but themselves

If the names in a tree are replaced by others, one by one and without touching those of the language,
then the tree does what it did before, with the new names in place of the old ones: in errors, in the
parameters of functions, and in the frames that it makes.
-/

namespace Fexpr

mutual

def Expr.rename (r : String → String) : Expr → Expr
  | literal p l => .literal p l
  | lookup p n => .lookup p (r n)
  | reference p n => .reference p (r n)
  | invocation p callee args => .invocation p (callee.rename r) (renameAll r args)
  | block p items => .block p (renameAll r items)

def Expr.renameAll (r : String → String) : List Expr → List Expr
  | [] => []
  | e :: es => e.rename r :: renameAll r es

end

def Callee.rename (r : String → String) : Callee → Callee
  | keyword k => .keyword k
  | name n => .name (r n)

mutual

def Code.rename (r : String → String) : Code → Code
  | literal p l => .literal p l
  | lookup p n => .lookup p (r n)
  | reference p n => .reference p (r n)
  | call p callee args => .call p (callee.rename r) (renameAll r args)
  | block p items => .block p (renameAll r items)

def Code.renameAll (r : String → String) : List Code → List Code
  | [] => []
  | c :: cs => c.rename r :: renameAll r cs

end

def Body.rename (r : String → String) (b : Body) : Body := ⟨Code.renameAll r b.items, b.span⟩

def Function.rename (r : String → String) (f : Function) : Function :=
  ⟨f.params.map r, f.body.rename r, f.captured⟩

def Bindings.rename {α : Type} (r : String → String) (b : Bindings α) : Bindings α :=
  ⟨b.entries.map fun e => (r e.1, e.2)⟩

def Outer.rename (r : String → String) : Outer → Outer
  | root keywords => .root (keywords.rename r)
  | child parent => .child parent

def Frame.rename (r : String → String) (f : Frame) : Frame :=
  ⟨f.bindings.rename r, f.outer.rename r⟩

def RuntimeError.rename (r : String → String) : RuntimeError → RuntimeError
  | unresolved n p => .unresolved (r n) p
  | notCallable n found p => .notCallable (r n) found p
  | e => e

/-- Stores that hold the same, but that what was made since some time has its names replaced. -/
structure Store.Renamed (before : Store) (r : String → String) (σ τ : Store) : Prop where
  frame_of_lt : ∀ {t : Scope}, t.index < before.frames.size → τ.frame? t = σ.frame? t
  frame_of_le : ∀ {t : Scope}, before.frames.size ≤ t.index →
    τ.frame? t = (σ.frame? t).map (Frame.rename r)
  function_of_lt : ∀ {i : Nat}, i < before.functions.size → τ.function? i = σ.function? i
  function_of_le : ∀ {i : Nat}, before.functions.size ≤ i →
    τ.function? i = (σ.function? i).map (Function.rename r)

def Outcome.rename {α : Type} (r : String → String) : Outcome α → Outcome α
  | value a => .value a
  | error e => .error (e.rename r)
  | tooDeep => .tooDeep

namespace Expr

variable {kw : Keywords} {r : String → String}

theorem span_rename (e : Expr) : (e.rename r).span = e.span := by
  cases e <;> rfl

theorem topLevel_rename (e : Expr) : (e.rename r).topLevel = renameAll r e.topLevel := by
  cases e <;> rfl

theorem callee_rename (e : Expr) (h : ∀ n ∈ e.names, kw.find? (r n) = kw.find? n) :
    (e.rename r).callee kw = (e.callee kw).map (Callee.rename r) := by
  cases e with
  | lookup p n =>
    rw [rename, callee, callee, h n List.mem_cons_self]
    cases kw.find? n <;> rfl
  | literal | reference | invocation | block => rfl

mutual

theorem lower_rename : ∀ e : Expr, (∀ n ∈ e.names, kw.find? (r n) = kw.find? n) →
    (e.rename r).lower kw = (e.lower kw).map (Code.rename r)
  | .literal _ _, _ | .lookup _ _, _ | .reference _ _, _ => rfl
  | .invocation p e args, h => by
    rw [names, List.forall_mem_append] at h
    rw [rename, lower, lower, callee_rename e h.1, lowerAll_rename args h.2]
    cases e.callee kw with
    | error err => rfl
    | ok callee => cases lowerAll kw args <;> rfl
  | .block p items, h => by
    rw [rename, lower, lower, lowerAll_rename items h]
    cases lowerAll kw items <;> rfl

theorem lowerAll_rename : ∀ es : List Expr, (∀ n ∈ namesAll es, kw.find? (r n) = kw.find? n) →
    lowerAll kw (renameAll r es) = (lowerAll kw es).map (Code.renameAll r)
  | [], _ => rfl
  | e :: es, h => by
    rw [namesAll, List.forall_mem_append] at h
    rw [renameAll, lowerAll, lowerAll, lower_rename e h.1, lowerAll_rename es h.2]
    cases e.lower kw with
    | error err => rfl
    | ok c => cases lowerAll kw es <;> rfl

end

theorem lowerProgram_rename (e : Expr) (h : ∀ n ∈ e.names, kw.find? (r n) = kw.find? n) :
    (e.rename r).lowerProgram kw = (e.lowerProgram kw).map (Body.rename r) := by
  rw [← namesAll_topLevel] at h
  rw [lowerProgram_eq, lowerProgram_eq, topLevel_rename, span_rename, lowerAll_rename _ h]
  cases lowerAll kw e.topLevel <;> rfl

end Expr

/-- A renaming that tells the names of interest apart and leaves those of the language alone. -/
structure Renaming where
  apply : String → String
  names : Set String
  inj : Set.InjOn apply names
  reserved : ∀ {n : String}, isReserved n = true → n ∈ names ∧ apply n = n

namespace Renaming

variable (R : Renaming) (σ₀ : Store)

def region : Region where
  span := Eq
  name n n' := n ∈ R.names ∧ n' = R.apply n
  keyword k k' := k' = k ∧ ∃ table b, k = .builtin table b
  name_inj := by
    rintro m _ n _ ⟨hm, rfl⟩ ⟨hn, rfl⟩
    exact (R.inj.eq_iff hm hn).symm
  keyword_builtin := by
    rintro k _ ⟨rfl, table, b, rfl⟩
    exact ⟨table, table, b, rfl, rfl⟩
  keyword_inj := by
    rintro k _ l _ ⟨rfl, -⟩ ⟨rfl, -⟩
    rfl
  left := σ₀
  right := σ₀

variable {R σ₀} {w : Nat × Nat} {σ τ : Store}

theorem contexts (table : Nat) :
    (R.region σ₀).Contexts (.builtin table) (.builtin table) := by
  constructor
  · apply List.forall₂_same.mpr
    intro entry hentry
    obtain ⟨b, -, rfl⟩ := List.mem_map.mp hentry
    obtain ⟨hmem, hfix⟩ : b.name ∈ R.names ∧ R.apply b.name = b.name :=
      R.reserved (by cases b <;> rfl)
    exact ⟨⟨hmem, hfix.symm⟩, rfl, table, b, rfl⟩
  · have hconstant : ∀ n, isReserved n = true → (R.region σ₀).name n n := by
      intro n hn
      exact ⟨(R.reserved hn).1, (R.reserved hn).2.symm⟩
    refine .cons ⟨hconstant _ rfl, .null⟩ ?_
    refine .cons ⟨hconstant _ rfl, .boolean true⟩ ?_
    exact .cons ⟨hconstant _ rfl, .boolean false⟩ .nil

mutual

theorem trees : ∀ e : Expr, (∀ n ∈ e.names, n ∈ R.names) →
    (R.region σ₀).matching.Trees e (e.rename R.apply)
  | .literal _ l, _ => .literal rfl l
  | .lookup _ n, h => .lookup rfl ⟨h n List.mem_cons_self, rfl⟩
  | .reference _ n, h => .reference rfl ⟨h n List.mem_cons_self, rfl⟩
  | .invocation _ e args, h => by
    rw [Expr.names, List.forall_mem_append] at h
    exact .invocation rfl (trees e h.1) (treesAll args h.2)
  | .block _ items, h => .block rfl (treesAll items h)

theorem treesAll : ∀ es : List Expr, (∀ n ∈ Expr.namesAll es, n ∈ R.names) →
    List.Forall₂ (R.region σ₀).matching.Trees es (Expr.renameAll R.apply es)
  | [], _ => .nil
  | e :: es, h => by
    rw [Expr.namesAll, List.forall_mem_append] at h
    exact .cons (trees e h.1) (treesAll es h.2)

end

theorem find?_builtins (R : Renaming) (table : Nat) {n : String} (hn : n ∈ R.names) :
    (Keywords.builtins table).find? (R.apply n) = (Keywords.builtins table).find? n := by
  have hcontexts : (R.region .empty).Contexts (.builtin table) (.builtin table) := contexts table
  have hrel := hcontexts.tables n _ ⟨hn, rfl⟩
  change Option.Rel _ ((Keywords.builtins table).find? n)
    ((Keywords.builtins table).find? (R.apply n)) at hrel
  generalize (Keywords.builtins table).find? n = k at hrel
  generalize (Keywords.builtins table).find? (R.apply n) = k' at hrel
  cases hrel with
  | none => rfl
  | some hk => exact congrArg some hk.1

theorem callee_eq {c c' : Callee} (h : (R.region σ₀).matching.Callees c c') :
    c' = c.rename R.apply := by
  cases h with
  | keyword hk => exact congrArg Callee.keyword hk.1
  | name hn => exact congrArg Callee.name hn.2

mutual

theorem code_eq : ∀ {c c' : Code}, (R.region σ₀).matching.Codes c c' → c' = c.rename R.apply
  | .literal _ _, _, .literal hp _ => congrArg (Code.literal · _) hp.symm
  | .lookup _ _, _, .lookup hp hn => congrArg₂ Code.lookup hp.symm hn.2
  | .reference _ _, _, .reference hp hn => congrArg₂ Code.reference hp.symm hn.2
  | .call _ _ args, _, .call hp hc hargs => by
    rw [Code.rename, ← codes_eq args hargs, ← callee_eq hc, hp]
  | .block _ items, _, .block hp hitems => by
    rw [Code.rename, ← codes_eq items hitems, hp]

theorem codes_eq : ∀ (cs : List Code) {cs' : List Code},
    List.Forall₂ (R.region σ₀).matching.Codes cs cs' → cs' = Code.renameAll R.apply cs
  | [], _, .nil => rfl
  | _ :: cs, _, .cons hc hcs => congrArg₂ List.cons (code_eq hc) (codes_eq cs hcs)

end

theorem value_eq {v v' : Value} (h : (R.region σ₀).matching.Values w v v') : v' = v := by
  cases h with
  | function hi =>
    obtain ⟨j, -, rfl, rfl⟩ := hi
    rfl
  | keyword hk => exact congrArg Value.keyword hk.1
  | null | number | string | boolean | host => rfl

theorem error_eq {e e' : RuntimeError} (h : (R.region σ₀).matching.Errors e e') :
    e' = e.rename R.apply := by
  cases h with
  | unresolved hn hp => exact congrArg₂ RuntimeError.unresolved hn.2 hp.symm
  | notCallable hn found hp => exact congrArg₂ (RuntimeError.notCallable · found) hn.2 hp.symm
  | arity keyword expected got hp => exact congrArg (RuntimeError.arity keyword expected got) hp.symm
  | mismatch keyword position expected found hp =>
    exact congrArg (RuntimeError.mismatch keyword position expected found) hp.symm

theorem outcome_eq {o o' : Outcome Value}
    (h : (R.region σ₀).matching.Outcomes ((R.region σ₀).matching.Values w) o o') :
    o' = o.rename R.apply := by
  cases h with
  | value hv => exact congrArg Outcome.value (value_eq hv)
  | error he => exact congrArg Outcome.error (error_eq he)
  | tooDeep => rfl

theorem bindings_eq {α : Type} {V : α → α → Prop} (hV : ∀ a a', V a a' → a' = a)
    {b b' : Bindings α} (h : (R.region σ₀).Entries V b b') : b' = b.rename R.apply := by
  obtain ⟨es⟩ := b
  obtain ⟨es'⟩ := b'
  simp only [Region.Entries] at h
  simp only [Bindings.rename, Bindings.mk.injEq]
  induction h with
  | nil => rfl
  | cons he _ ih => rw [List.map_cons, ih, ← he.1.2, ← hV _ _ he.2]

theorem frame_eq {f f' : Frame} (h : (R.region σ₀).Frames w f f') : f' = f.rename R.apply := by
  obtain ⟨bindings, outer⟩ := f
  obtain ⟨bindings', outer'⟩ := f'
  obtain ⟨hbindings, houter⟩ := h
  rw [Frame.rename, ← bindings_eq (fun _ _ => value_eq) hbindings, Frame.mk.injEq]
  refine ⟨rfl, ?_⟩
  cases houter with
  | root hkeywords => exact congrArg Outer.root (bindings_eq (fun _ _ hk => hk.1) hkeywords)
  | child hs =>
    obtain ⟨i, -, rfl, rfl⟩ := hs
    rfl

theorem names_eq {ns ns' : List String} (h : List.Forall₂ (R.region σ₀).matching.name ns ns') :
    ns' = ns.map R.apply := by
  induction h with
  | nil => rfl
  | cons hn _ ih => rw [List.map_cons, ih, hn.2]

theorem function_eq {f f' : Function} (h : (R.region σ₀).matching.Functions w f f') :
    f' = f.rename R.apply := by
  obtain ⟨params, ⟨items, span⟩, captured⟩ := f
  obtain ⟨params', ⟨items', span'⟩, captured'⟩ := f'
  obtain ⟨hparams, ⟨hitems, hspan⟩, i, -, hs, hs'⟩ := h
  simp only at hparams hitems hspan hs hs'
  obtain rfl : span = span' := hspan
  obtain rfl : captured = captured' := hs.trans hs'.symm
  rw [Function.rename, Body.rename, names_eq hparams, codes_eq items hitems]

theorem eq_map_of_rel {α : Type} {V : α → α → Prop} {g : α → α} {o o' : Option α}
    (h : Option.Rel V o o') (hV : ∀ a a', V a a' → a' = g a) : o' = o.map g := by
  cases h with
  | none => rfl
  | some h => exact congrArg some (hV _ _ h)

theorem frame?_of_le (h : (R.region σ₀).Stores w σ τ) {t : Scope}
    (ht : σ₀.frames.size ≤ t.index) : τ.frame? t = (σ.frame? t).map (Frame.rename R.apply) := by
  obtain ⟨i, hi⟩ := Nat.exists_eq_add_of_le ht
  obtain ⟨index⟩ := t
  obtain rfl : index = σ₀.frames.size + i := hi
  by_cases hw : i < w.1
  · exact eq_map_of_rel (h.frame i hw) fun _ _ => frame_eq
  · -- the runs have made equally many frames, and this is none of them
    have hσ : σ.frames.size = σ₀.frames.size + w.1 := h.frames_left
    have hτ : τ.frames.size = σ₀.frames.size + w.1 := h.frames_right
    have hnone : τ.frames[σ₀.frames.size + i]? = none ∧ σ.frames[σ₀.frames.size + i]? = none :=
      ⟨Array.getElem?_eq_none (by omega), Array.getElem?_eq_none (by omega)⟩
    rw [Store.frame?, Store.frame?, hnone.1, hnone.2]
    rfl

theorem function?_of_le (h : (R.region σ₀).Stores w σ τ) {i : Nat}
    (hi : σ₀.functions.size ≤ i) :
    τ.function? i = (σ.function? i).map (Function.rename R.apply) := by
  obtain ⟨j, rfl⟩ := Nat.exists_eq_add_of_le hi
  by_cases hw : j < w.2
  · exact eq_map_of_rel (h.function j hw) fun _ _ => function_eq
  · have hσ : σ.functions.size = σ₀.functions.size + w.2 := h.functions_left
    have hτ : τ.functions.size = σ₀.functions.size + w.2 := h.functions_right
    rw [Store.function?, Store.function?, Array.getElem?_eq_none (by omega),
      Array.getElem?_eq_none (by omega)]
    rfl

theorem renamed (h : (R.region σ₀).Stores w σ τ) : σ₀.Renamed R.apply σ τ where
  frame_of_lt ht := (h.kept_right _ ht).trans (h.kept_left _ ht).symm
  frame_of_le := frame?_of_le h
  function_of_lt hi := (h.kept_functions_right _ hi).trans (h.kept_functions_left _ hi).symm
  function_of_le := function?_of_le h

end Renaming

/-- If the names of a tree are replaced by others, each name by its own and those of the language by
themselves, then the tree is refused as before or runs as before, in the new names. -/
theorem Expr.run_rename (e : Expr) (r : String → String) (table : Nat) (σ : Store)
    (hinj : Set.InjOn r {n | n ∈ e.names ∨ isReserved n = true})
    (hfix : ∀ n, isReserved n = true → r n = n) :
    (∃ err, e.lowerProgram (.builtins table) = .error err ∧
      (e.rename r).lowerProgram (.builtins table) = .error err) ∨
    ∃ body, e.lowerProgram (.builtins table) = .ok body ∧
      (e.rename r).lowerProgram (.builtins table) = .ok (body.rename r) ∧
      ∀ source host host' limit,
        let run := Program.run ⟨source, .builtin table, body⟩ host limit σ
        let run' := Program.run ⟨source, .builtin table, body.rename r⟩ host' limit σ
        run'.1 = run.1.rename r ∧ σ.Renamed r run.2 run'.2 := by
  let R : Renaming := ⟨r, _, hinj, fun hn => ⟨.inr hn, hfix _ hn⟩⟩
  have hlower : (e.rename r).lowerProgram (.builtins table) =
      (e.lowerProgram (.builtins table)).map (Body.rename r) :=
    lowerProgram_rename e fun n hn => R.find?_builtins table (.inl hn)
  cases he : e.lowerProgram (.builtins table) with
  | error err =>
    rw [he] at hlower
    exact .inl ⟨err, rfl, hlower⟩
  | ok body =>
    rw [he] at hlower
    refine .inr ⟨body, rfl, hlower, fun source host host' limit => ?_⟩
    have htrees : List.Forall₂ (R.region σ).matching.Trees e.topLevel (e.rename r).topLevel := by
      rw [topLevel_rename]
      apply R.treesAll
      rw [namesAll_topLevel]
      exact fun n hn => .inl hn
    obtain ⟨body', hbody', hbodies⟩ := Matching.Trees.lowerProgram
      (R.contexts table).tables (span_rename e).symm htrees he
    obtain rfl : body' = body.rename r := Except.ok.inj (hbody'.symm.trans hlower)
    have hrun := @Region.related_run (R.region σ) (0, 0) ⟨source, .builtin table, body⟩
      ⟨source, .builtin table, body.rename r⟩ (R.contexts table) hbodies host host' limit
    obtain ⟨w, -, hstores, houtcomes⟩ := hrun _ _ (R.region σ).stores_start
    exact ⟨R.outcome_eq houtcomes, R.renamed hstores⟩

/-- `f` and `x` exchanged: the function that `x` then stands for has the parameter `f`. -/
theorem Expr.run_rename_swap :
    ∃ e body, parse "var(@f, function({ not(x) }, @x)) f(true)" = .ok e ∧
      e.lowerProgram (.builtins 0) = .ok body ∧
      (Program.run ⟨⟨"swap", ""⟩, .builtin 0, body.rename (Equiv.swap "f" "x")⟩ Host.absent 9
        .empty).1 =
        (Program.run ⟨⟨"swap", ""⟩, .builtin 0, body⟩ Host.absent 9 .empty).1.rename
          (Equiv.swap "f" "x") := by
  have hok : (parse "var(@f, function({ not(x) }, @x)) f(true)").map (fun e =>
      (e.lowerProgram (.builtins 0)).isOk) = .ok true := by decide +kernel
  obtain ⟨e, hparse, hok⟩ := Except.map_eq_ok_iff.mp hok
  have hfix : ∀ n, isReserved n = true → Equiv.swap "f" "x" n = n := by
    intro n hn
    apply Equiv.swap_apply_of_ne_of_ne <;> rintro rfl <;> cases hn
  rcases Expr.run_rename e (Equiv.swap "f" "x") 0 .empty (Equiv.injective _).injOn hfix with
    ⟨err, herr, -⟩ | ⟨body, hbody, -, hrun⟩
  · rw [herr] at hok
    cases hok
  · exact ⟨e, body, hparse, hbody, (hrun _ _ _ _).1⟩

end Fexpr
