import Fexpr.Proofs.ErrorPlaces

/-!
# What lowering refuses and what it makes

Lowering refuses a tree only for a callee that is neither a name nor a reference, and reports the
first one in preorder. All other trees are lowered to code that follows them node by node. The
parser makes no such callee, so a source that parses can be compiled.
-/

namespace Fexpr

namespace Expr

def badCallee? : Expr → Option Expr
  | invocation _ callee _ => if callee.isCallable then none else some callee
  | _ => none

def firstBadCallee? (e : Expr) : Option Expr := (e.preorder 0).findSome? (·.2.badCallee?)

/-- Code that has the spans, the shapes and the names of a tree. A callee is a keyword if it is a
bare name which the table knows, and a name otherwise. -/
inductive Mirrors (kw : Keywords) : Expr → Code → Prop where
  | literal (p : Span) (l : Literal) : Mirrors kw (.literal p l) (.literal p l)
  | lookup (p : Span) (n : String) : Mirrors kw (.lookup p n) (.lookup p n)
  | reference (p : Span) (n : String) : Mirrors kw (.reference p n) (.reference p n)
  | keyword {p q : Span} {n : String} {k : Keyword} {args : List Expr} {codes : List Code}
    (hk : kw.find? n = some k) (hargs : List.Forall₂ (Mirrors kw) args codes) :
    Mirrors kw (.invocation p (.lookup q n) args) (.call p (.keyword k) codes)
  | name {p q : Span} {n : String} {args : List Expr} {codes : List Code}
    (hk : kw.find? n = none) (hargs : List.Forall₂ (Mirrors kw) args codes) :
    Mirrors kw (.invocation p (.lookup q n) args) (.call p (.name n) codes)
  | referenced {p q : Span} {n : String} {args : List Expr} {codes : List Code}
    (hargs : List.Forall₂ (Mirrors kw) args codes) :
    Mirrors kw (.invocation p (.reference q n) args) (.call p (.name n) codes)
  | block {p : Span} {items : List Expr} {codes : List Code}
    (hitems : List.Forall₂ (Mirrors kw) items codes) :
    Mirrors kw (.block p items) (.block p codes)

variable {kw : Keywords}

def verdict (nodes : List (Nat × Expr)) : Except CompileError Unit :=
  ((nodes.findSome? (·.2.badCallee?)).map fun callee => .error (.invalidCallee callee.span)).getD
    (.ok ())

theorem verdict_append (xs ys : List (Nat × Expr)) :
    verdict (xs ++ ys) = verdict xs >>= fun _ => verdict ys := by
  simp only [verdict, List.findSome?_append]
  cases xs.findSome? (·.2.badCallee?) <;> rfl

theorem verdict_singleton (depth : Nat) (e : Expr) (he : e.badCallee? = none) :
    verdict [(depth, e)] = .ok () := by
  simp [verdict, he]

theorem callee_of_not_isCallable {e : Expr} (h : e.isCallable = false) :
    e.callee kw = .error (.invalidCallee e.span) := by
  cases e with
  | lookup | reference => cases h
  | literal | invocation | block => rfl

theorem exists_callee_of_isCallable {e : Expr} (h : e.isCallable = true) :
    ∃ c, e.callee kw = .ok c := by
  cases e with
  | lookup p n =>
    rw [callee]
    cases kw.find? n with
    | none => exact ⟨_, rfl⟩
    | some k => exact ⟨_, rfl⟩
  | reference p n => exact ⟨_, rfl⟩
  | literal | invocation | block => cases h

theorem preorder_of_isCallable {e : Expr} (h : e.isCallable = true) (depth : Nat) :
    verdict (preorder depth e) = .ok () := by
  cases e with
  | lookup | reference => rfl
  | literal | invocation | block => cases h

mutual

theorem map_lower : ∀ (depth : Nat) (e : Expr),
    (lower kw e).map (fun _ => ()) = verdict (preorder depth e)
  | _, .literal _ _ | _, .lookup _ _ | _, .reference _ _ => rfl
  | depth, .invocation p callee args => by
    rw [lower, preorder, List.cons_append]
    cases hcallee : callee.isCallable with
    | false =>
      rw [callee_of_not_isCallable hcallee]
      simp only [verdict, List.findSome?_cons, badCallee?, hcallee]
      rfl
    | true =>
      obtain ⟨c, hc⟩ : ∃ c, callee.callee kw = .ok c := exists_callee_of_isCallable hcallee
      have hself : verdict [(depth, invocation p callee args)] = .ok () :=
        verdict_singleton _ _ (by rw [badCallee?, if_pos hcallee])
      rw [← List.singleton_append, verdict_append, hself, verdict_append,
        preorder_of_isCallable hcallee, hc]
      change _ = verdict (preorderAll (depth + 1) args)
      rw [← map_lowerAll (depth + 1) args]
      cases lowerAll kw args <;> rfl
  | depth, .block p items => by
    have hself : verdict [(depth, block p items)] = .ok () := verdict_singleton _ _ rfl
    rw [lower, preorder, ← List.singleton_append, verdict_append, hself]
    change _ = verdict (preorderAll (depth + 1) items)
    rw [← map_lowerAll (depth + 1) items]
    cases lowerAll kw items <;> rfl

theorem map_lowerAll : ∀ (depth : Nat) (es : List Expr),
    (lowerAll kw es).map (fun _ => ()) = verdict (preorderAll depth es)
  | _, [] => rfl
  | depth, e :: es => by
    rw [lowerAll, preorderAll, verdict_append, ← map_lower depth e, ← map_lowerAll depth es]
    cases lower kw e with
    | error err => rfl
    | ok code => cases lowerAll kw es <;> rfl

end

theorem map_lowerProgram (e : Expr) :
    (e.lowerProgram kw).map (fun _ => ()) = verdict (e.preorder 0) := by
  have hmap : (e.lowerProgram kw).map (fun _ => ()) =
      (lowerAll kw e.topLevel).map (fun _ => ()) := by
    rw [lowerProgram_eq]
    cases lowerAll kw e.topLevel <;> rfl
  rw [hmap]
  cases e with
  | block p items => exact map_lowerAll 1 items
  | literal | lookup | reference => rfl
  | invocation p callee args =>
    rw [topLevel, map_lowerAll 0, preorderAll, preorderAll, List.append_nil]
    simp

theorem lowerProgram_eq_error_iff {e : Expr} {err : CompileError} :
    e.lowerProgram kw = .error err ↔
      ∃ callee, e.firstBadCallee? = some callee ∧ err = .invalidCallee callee.span := by
  have hverdict : (e.lowerProgram kw).map (fun _ => ()) = _ := map_lowerProgram e
  rw [verdict] at hverdict
  rw [firstBadCallee?]
  cases hfirst : (e.preorder 0).findSome? (·.2.badCallee?) with
  | none =>
    rw [hfirst] at hverdict
    cases hlower : e.lowerProgram kw with
    | ok body => simp
    | error err' =>
      rw [hlower] at hverdict
      cases hverdict
  | some callee =>
    rw [hfirst] at hverdict
    cases hlower : e.lowerProgram kw with
    | ok body =>
      rw [hlower] at hverdict
      cases hverdict
    | error err' =>
      rw [hlower] at hverdict
      cases hverdict
      simp [eq_comm]

mutual

theorem isNode_of_mem_preorder : ∀ {depth k : Nat} {e node : Expr}, (k, node) ∈ preorder depth e →
    e.IsNode node
  | _, _, .literal _ _, _, h | _, _, .lookup _ _, _, h | _, _, .reference _ _, _, h => by
    cases List.mem_singleton.mp h
    exact .root
  | _, _, .invocation _ callee args, _, h => by
    rw [preorder, List.cons_append, List.mem_cons, List.mem_append] at h
    rcases h with h | h | h
    · cases h
      exact .root
    · exact (isNode_of_mem_preorder h).of_child List.mem_cons_self
    · obtain ⟨arg, harg, hnode⟩ := exists_isNode_of_mem_preorderAll args h
      exact hnode.of_child (List.mem_cons_of_mem callee harg)
  | _, _, .block _ items, _, h => by
    rw [preorder, List.mem_cons] at h
    rcases h with h | h
    · cases h
      exact .root
    · obtain ⟨item, hitem, hnode⟩ := exists_isNode_of_mem_preorderAll items h
      exact hnode.of_child hitem

theorem exists_isNode_of_mem_preorderAll : ∀ {depth k : Nat} {node : Expr} (es : List Expr),
    (k, node) ∈ preorderAll depth es → ∃ e ∈ es, e.IsNode node
  | _, _, _, [], h => by cases h
  | _, _, _, e :: es, h => by
    rw [preorderAll, List.mem_append] at h
    rcases h with h | h
    · exact ⟨e, List.mem_cons_self, isNode_of_mem_preorder h⟩
    · obtain ⟨e', he', hnode⟩ := exists_isNode_of_mem_preorderAll es h
      exact ⟨e', List.mem_cons_of_mem e he', hnode⟩

end

theorem mem_preorder_self (depth : Nat) (e : Expr) : (depth, e) ∈ preorder depth e := by
  cases e <;> simp [preorder]

theorem mem_preorderAll {depth k : Nat} {node : Expr} {es : List Expr} :
    (k, node) ∈ preorderAll depth es ↔ ∃ e ∈ es, (k, node) ∈ preorder depth e := by
  induction es with
  | nil => simp [preorderAll]
  | cons e es ih => simp [preorderAll, ih]

mutual

theorem mem_preorder_of_child : ∀ {depth k : Nat} {e node part : Expr},
    (k, node) ∈ preorder depth e → part ∈ node.children → (k + 1, part) ∈ preorder depth e
  | _, _, .literal _ _, _, _, h, hpart | _, _, .lookup _ _, _, _, h, hpart
  | _, _, .reference _ _, _, _, h, hpart => by
    cases List.mem_singleton.mp h
    cases hpart
  | depth, _, .invocation p callee args, _, part, h, hpart => by
    rw [preorder, List.cons_append, List.mem_cons, List.mem_append] at h ⊢
    right
    rcases h with h | h | h
    · cases h
      rcases List.mem_cons.mp hpart with rfl | harg
      · exact .inl (mem_preorder_self _ _)
      · exact .inr (mem_preorderAll.mpr ⟨part, harg, mem_preorder_self _ _⟩)
    · exact .inl (mem_preorder_of_child h hpart)
    · exact .inr (mem_preorderAll_of_child args h hpart)
  | depth, _, .block p items, _, part, h, hpart => by
    rw [preorder, List.mem_cons] at h ⊢
    right
    rcases h with h | h
    · cases h
      exact mem_preorderAll.mpr ⟨part, hpart, mem_preorder_self _ _⟩
    · exact mem_preorderAll_of_child items h hpart

theorem mem_preorderAll_of_child : ∀ {depth k : Nat} {node part : Expr} (es : List Expr),
    (k, node) ∈ preorderAll depth es → part ∈ node.children →
    (k + 1, part) ∈ preorderAll depth es
  | _, _, _, _, [], h, _ => by cases h
  | _, _, _, _, e :: es, h, hpart => by
    rw [preorderAll, List.mem_append] at h ⊢
    rcases h with h | h
    · exact .inl (mem_preorder_of_child h hpart)
    · exact .inr (mem_preorderAll_of_child es h hpart)

end

theorem exists_mem_preorder {depth : Nat} {e node : Expr} (h : e.IsNode node) :
    ∃ k, (k, node) ∈ preorder depth e := by
  induction h with
  | root => exact ⟨depth, mem_preorder_self depth e⟩
  | child _ hpart ih =>
    obtain ⟨k, hk⟩ := ih
    exact ⟨k + 1, mem_preorder_of_child hk hpart⟩

theorem badCallee?_eq_some_iff {e callee : Expr} :
    e.badCallee? = some callee ↔
      ∃ p args, e = .invocation p callee args ∧ callee.isCallable = false := by
  constructor
  · intro h
    cases e with
    | invocation p callee' args =>
      rw [badCallee?] at h
      cases hcallee : callee'.isCallable with
      | true => simp [hcallee] at h
      | false =>
        obtain rfl : callee' = callee := by simpa [hcallee] using h
        exact ⟨p, args, rfl, hcallee⟩
    | literal | lookup | reference | block => cases h
  · rintro ⟨p, args, rfl, hcallee⟩
    simp [badCallee?, hcallee]

theorem exists_firstBadCallee?_iff {e : Expr} :
    (∃ callee, e.firstBadCallee? = some callee) ↔
      ∃ p callee args, e.IsNode (.invocation p callee args) ∧ callee.isCallable = false := by
  constructor
  · rintro ⟨callee, h⟩
    obtain ⟨⟨k, node⟩, hmem, hbad⟩ := List.exists_of_findSome?_eq_some h
    obtain ⟨p, args, rfl, hcallee⟩ := badCallee?_eq_some_iff.mp hbad
    exact ⟨p, callee, args, isNode_of_mem_preorder hmem, hcallee⟩
  · rintro ⟨p, callee, args, hnode, hcallee⟩
    obtain ⟨k, hk⟩ : ∃ k, _ ∈ e.preorder 0 := exists_mem_preorder hnode
    have hbad := badCallee?_eq_some_iff.mpr ⟨p, args, rfl, hcallee⟩
    rw [← Option.isSome_iff_exists, firstBadCallee?, List.findSome?_isSome_iff]
    exact ⟨_, hk, by rw [hbad]; rfl⟩

theorem mirrors_invocation {p : Span} {e : Expr} {c : Callee} {args : List Expr}
    {codes : List Code} (hc : e.callee kw = .ok c) (hargs : List.Forall₂ (Mirrors kw) args codes) :
    Mirrors kw (.invocation p e args) (.call p c codes) := by
  cases e with
  | lookup q n =>
    rw [callee] at hc
    cases hk : kw.find? n with
    | none =>
      rw [hk] at hc
      cases hc
      exact .name hk hargs
    | some k =>
      rw [hk] at hc
      cases hc
      exact .keyword hk hargs
  | reference q n =>
    cases hc
    exact .referenced hargs
  | literal | invocation | block => cases hc

mutual

theorem mirrors_of_lower : ∀ {e : Expr} {code : Code}, lower kw e = .ok code → Mirrors kw e code
  | .literal p l, _, h => by
    cases h
    exact .literal p l
  | .lookup p n, _, h => by
    cases h
    exact .lookup p n
  | .reference p n, _, h => by
    cases h
    exact .reference p n
  | .invocation _ _ args, _, h => by
    obtain ⟨c, codes, hc, hcodes, rfl⟩ := lower_invocation_eq_ok_iff.mp h
    exact mirrors_invocation hc (mirrors_of_lowerAll args hcodes)
  | .block _ items, _, h => by
    obtain ⟨codes, hcodes, rfl⟩ := lower_block_eq_ok_iff.mp h
    exact .block (mirrors_of_lowerAll items hcodes)

theorem mirrors_of_lowerAll : ∀ (es : List Expr) {codes : List Code},
    lowerAll kw es = .ok codes → List.Forall₂ (Mirrors kw) es codes
  | [], _, h => by
    cases h
    exact .nil
  | e :: es, _, h => by
    obtain ⟨code, codes, hcode, hcodes, rfl⟩ :=
      List.forall₂_cons_left_iff.mp (lowerAll_eq_ok_iff.mp h)
    exact .cons (mirrors_of_lower hcode) (mirrors_of_lowerAll es (lowerAll_eq_ok_iff.mpr hcodes))

end

end Expr

open Grammar in
theorem isCallable_of_parse {source : String} {root : Expr} (h : parse source = .ok root)
    {p : Span} {callee : Expr} {args : List Expr} (hnode : root.IsNode (.invocation p callee args)) :
    callee.isCallable = true := by
  cases hnode with
  | root =>
    obtain ⟨_, es, _, _, heq⟩ := spells_of_parse h
    cases heq
  | child hparent hpart =>
    obtain ⟨_, ts, _, d, _, hspells⟩ := (placed_of_parse h hparent).spelled hpart
    cases hspells with
    | head h => cases h
    | call hcallee => cases hcallee <;> rfl

theorem Program.compile_eq_error_iff {source : Source} {context : Context} {err : CompileError} :
    Program.compile source context = .error err ↔ parse source.text = .error err := by
  rw [compile]
  cases hparse : parse source.text with
  | error e => simp [bind, Except.bind]
  | ok root =>
    have hlower : ∀ e, root.lowerProgram context.keywords ≠ .error e := by
      intro e he
      obtain ⟨callee, hfirst, -⟩ := Expr.lowerProgram_eq_error_iff.mp he
      obtain ⟨p, callee, args, hnode, hbad⟩ := Expr.exists_firstBadCallee?_iff.mp ⟨_, hfirst⟩
      rw [isCallable_of_parse hparse hnode] at hbad
      cases hbad
    cases hbody : root.lowerProgram context.keywords with
    | error e => exact absurd hbody (hlower e)
    | ok body => simp [hbody, bind, Except.bind, pure, Except.pure]

/--
A tree is refused if and only if some callee in it is neither a name nor a reference; the error is
at the first one. Any other tree is lowered to code that follows it, and a root that is no block to
a single item. Compiling a source fails exactly as parsing it does.
-/
theorem Expr.lowerProgram_iff :
    (∀ (kw : Keywords) (e : Expr),
      ((∃ err, e.lowerProgram kw = .error err) ↔
        ∃ p callee args, e.IsNode (.invocation p callee args) ∧ callee.isCallable = false) ∧
      (∀ err, e.lowerProgram kw = .error err ↔
        ∃ callee, e.firstBadCallee? = some callee ∧ err = .invalidCallee callee.span) ∧
      ∀ body, e.lowerProgram kw = .ok body →
        body.span = e.span ∧ List.Forall₂ (Mirrors kw) e.topLevel body.items) ∧
    ∀ (source : Source) (context : Context) (err : CompileError),
      Program.compile source context = .error err ↔ parse source.text = .error err := by
  refine ⟨fun kw e => ⟨?_, fun err => lowerProgram_eq_error_iff, ?_⟩,
    fun source context err => Program.compile_eq_error_iff⟩
  · rw [← exists_firstBadCallee?_iff]
    constructor
    · rintro ⟨err, h⟩
      obtain ⟨callee, hfirst, -⟩ := lowerProgram_eq_error_iff.mp h
      exact ⟨callee, hfirst⟩
    · rintro ⟨callee, hfirst⟩
      exact ⟨_, lowerProgram_eq_error_iff.mpr ⟨callee, hfirst, rfl⟩⟩
  · intro body h
    obtain ⟨hitems, hspan⟩ := lowerProgram_eq_ok_iff.mp h
    exact ⟨hspan, mirrors_of_lowerAll _ hitems⟩

/-- Of three bad callees, the one of the outer call is reported: not the one inside it, and not that
of the argument. -/
theorem Expr.lowerProgram_iff_nested :
    lowerProgram (.builtins 0) (.invocation ⟨0, 9⟩
      (.invocation ⟨0, 5⟩ (.literal ⟨0, 3⟩ (.string "x")) [])
      [.invocation ⟨6, 8⟩ (.block ⟨6, 7⟩ []) []]) = .error (.invalidCallee ⟨0, 5⟩) :=
  ((lowerProgram_iff.1 (.builtins 0) _).2.1 _).mpr ⟨_, rfl, rfl⟩

end Fexpr
