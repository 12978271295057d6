import Fexpr.Proofs.ErrorPlaces

/-!
# Evaluation that takes notes

The nodes of a tree are numbered in the order in which they stand, and an evaluation in all other
respects the same notes the number of each node when it comes to it.
-/

namespace Fexpr

namespace Expr

mutual

def size : Expr → Nat
  | literal _ _ | lookup _ _ | reference _ _ => 1
  | invocation _ callee args => 1 + (callee.size + sizeAll args)
  | block _ items => 1 + sizeAll items

def sizeAll : List Expr → Nat
  | [] => 0
  | e :: es => e.size + sizeAll es

end

mutual

def numberFrom (i : Nat) : Expr → Expr
  | literal _ l => .literal (.point i) l
  | lookup _ n => .lookup (.point i) n
  | reference _ n => .reference (.point i) n
  | invocation _ callee args =>
    .invocation (.point i) (callee.numberFrom (i + 1)) (numberAllFrom (i + 1 + callee.size) args)
  | block _ items => .block (.point i) (numberAllFrom (i + 1) items)

def numberAllFrom (i : Nat) : List Expr → List Expr
  | [] => []
  | e :: es => e.numberFrom i :: numberAllFrom (i + e.size) es

end

def numbered (e : Expr) : Expr := e.numberFrom 0

mutual

theorem trees_numberFrom {σ : Store} (i : Nat) :
    ∀ e : Expr, (Region.plain (fun _ _ => True) σ σ).matching.Trees e (e.numberFrom i)
  | .literal _ l => .literal trivial l
  | .lookup _ _ => .lookup trivial rfl
  | .reference _ _ => .reference trivial rfl
  | .invocation _ callee args =>
    .invocation trivial (trees_numberFrom (i + 1) callee) (treesAll_numberFrom _ args)
  | .block _ items => .block trivial (treesAll_numberFrom (i + 1) items)

theorem treesAll_numberFrom {σ : Store} (i : Nat) :
    ∀ es : List Expr, List.Forall₂ (Region.plain (fun _ _ => True) σ σ).matching.Trees es
      (numberAllFrom i es)
  | [] => .nil
  | e :: es => .cons (trees_numberFrom i e) (treesAll_numberFrom (i + e.size) es)

end

theorem topLevel_numberFrom (i : Nat) (e : Expr) :
    ∃ j, i + e.size = j + sizeAll e.topLevel ∧
      (e.numberFrom i).topLevel = numberAllFrom j e.topLevel := by
  cases e with
  | block p items => exact ⟨i + 1, by rw [size, topLevel, Nat.add_assoc], rfl⟩
  | literal | lookup | reference | invocation =>
    exact ⟨i, by simp only [topLevel, sizeAll, Nat.add_zero], rfl⟩

variable {kw : Keywords}

mutual

/-- Code comes with the numbers of nodes in their order, though not of all of them. -/
theorem spans_lower : ∀ (i : Nat) (e : Expr) (c : Code), (e.numberFrom i).lower kw = .ok c →
    (c.spans.map (·.start)).Sublist (List.range' i e.size)
  | i, .literal _ _, _, h | i, .lookup _ _, _, h | i, .reference _ _, _, h => by
    cases h
    exact List.Sublist.refl _
  | i, .invocation _ callee args, _, h => by
    obtain ⟨k, cs, -, hcs, rfl⟩ := lower_invocation_eq_ok_iff.mp h
    rw [Code.spans, List.map_cons, size, Nat.add_comm 1, List.range'_succ, ← List.range'_append_1]
    apply List.Sublist.cons_cons
    exact (spans_lowerAll _ args cs hcs).trans (List.sublist_append_right _ _)
  | i, .block _ items, _, h => by
    obtain ⟨cs, hcs, rfl⟩ := lower_block_eq_ok_iff.mp h
    rw [Code.spans, List.map_cons, size, Nat.add_comm 1, List.range'_succ]
    exact (spans_lowerAll _ items cs hcs).cons_cons _

theorem spans_lowerAll : ∀ (i : Nat) (es : List Expr) (cs : List Code),
    lowerAll kw (numberAllFrom i es) = .ok cs →
      ((Code.spansAll cs).map (·.start)).Sublist (List.range' i (sizeAll es))
  | i, [], _, h => by
    cases h
    exact List.Sublist.refl _
  | i, e :: es, _, h => by
    obtain ⟨c, cs, hc, hcs, rfl⟩ := List.forall₂_cons_left_iff.mp (lowerAll_eq_ok_iff.mp h)
    rw [Code.spansAll, List.map_append, sizeAll, ← List.range'_append_1]
    exact (spans_lower i e c hc).append (spans_lowerAll _ es cs (lowerAll_eq_ok_iff.mpr hcs))

end

theorem spans_lowerProgram {e : Expr} {body : Body} (h : e.numbered.lowerProgram kw = .ok body) :
    ((Code.spansAll body.items).map (·.start)).Sublist (List.range e.size) := by
  obtain ⟨hitems, -⟩ := lowerProgram_eq_ok_iff.mp h
  obtain ⟨j, hj, htop⟩ := e.topLevel_numberFrom 0
  rw [numbered, htop] at hitems
  have hrange : List.range e.size = List.range' 0 j ++ List.range' j (sizeAll e.topLevel) := by
    rw [List.range_eq_range', ← Nat.zero_add e.size, hj, ← List.range'_append_1, Nat.zero_add]
  rw [hrange]
  exact (spans_lowerAll j _ _ hitems).trans (List.sublist_append_right _ _)

end Expr

def Eval.note (line : String) : Eval Unit := Eval.update fun σ => ((), σ.note line)

mutual

/-- Evaluates code like `Code.eval`, and notes first where the code begins. -/
def Code.evalNoting (host : Host) : Nat → Code → Scope → Eval Value
  | 0, _, _ => Eval.tooDeep
  | n + 1, code, s => do
    Eval.note (toString code.span.start)
    Interpreter.evalStep ⟨Code.evalNoting host n, Value.invokeNoting host n⟩ host code s

def Value.invokeNoting (host : Host) : Nat → Value → Call → Eval Value
  | 0, _, _ => Eval.tooDeep
  | n + 1, v, c =>
    Interpreter.invokeStep ⟨Code.evalNoting host n, Value.invokeNoting host n⟩ host v c

end

def Program.runNoting (p : Program) (host : Host) (limit : Nat) : Eval Value := do
  let s ← Eval.update p.context.newScope
  runItems (Code.evalNoting host limit) s p.body.items

namespace Region

variable {ρ : Region} {w : Nat × Nat} {σ τ : Store}

theorem Stores.note (h : ρ.Stores w σ τ) (line : String) : ρ.Stores w σ (τ.note line) :=
  ⟨h.frames_left, h.frames_right, h.functions_left, h.functions_right, h.frame, h.function,
    h.kept_left, h.kept_right, h.kept_functions_left, h.kept_functions_right⟩

theorem evaluators_evalNoting (host host' : Host) (n : Nat) :
    ρ.simulation.Evaluators (Code.eval host n) (Code.evalNoting host' n) := by
  induction n with
  | zero => exact fun _ _ _ _ _ _ _ => .tooDeep
  | succ n ih =>
    intro w code code' s s' hcode hs σ τ hστ
    have hstep := Zoning.related_evalStep (R := ρ.simulation.zoning) (z := ())
      ⟨_, Value.invoke host n⟩ ⟨_, Value.invokeNoting host' n⟩ ih.zoned host host' hcode hs
    rw [Code.eval, Code.evalNoting]
    -- the step starts in the store with the note, which is matched all the same
    exact hstep σ _ (hστ.note _)

theorem related_runNoting {p p' : Program} (hc : ρ.Contexts p.context p'.context)
    (hbody : ρ.matching.Bodies p.body p'.body) (host host' : Host) (limit : Nat) :
    ρ.simulation.Related ρ.matching.Values w (p.run host limit) (p'.runNoting host' limit) :=
  .bind (related_newScope hc) fun _ _ _ _ hs =>
    (evaluators_evalNoting host host' limit).runItems hs hbody.items

end Region

end Fexpr
