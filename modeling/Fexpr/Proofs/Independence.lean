import Fexpr.Proofs.Region
import Fexpr.Store.Display

/-!
# Runs of a program are independent

A program that knows only the built-in keywords sees nothing of what earlier runs left in the store,
and changes nothing of it.
-/

namespace Fexpr

namespace Region

variable {P : Span → Span → Prop} {σ₀ τ₀ σ τ : Store} {w : Nat × Nat} {v v' : Value}

theorem plain_params {i i' : Nat} (hστ : (plain P σ₀ τ₀).Stores w σ τ)
    (hi : (plain P σ₀ τ₀).matching.function w i i') : σ.params i = τ.params i' := by
  obtain ⟨j, hj, rfl, rfl⟩ := hi
  have hf := hστ.function j hj
  rw [Store.params, Store.params]
  generalize σ.function? _ = o at hf
  generalize τ.function? _ = o' at hf
  cases hf with
  | none => rfl
  | some hf => exact List.forall₂_eq_eq_eq ▸ hf.params

theorem plain_display (hστ : (plain P σ₀ τ₀).Stores w σ τ)
    (hv : (plain P σ₀ τ₀).matching.Values w v v') : σ.display v = τ.display v' := by
  cases hv with
  | function hi => rw [Store.display, Store.display, plain_params hστ hi]
  | keyword hk => rw [hk.1]; rfl
  | null | number | string | boolean | host => rfl

theorem plain_debug (hστ : (plain P σ₀ τ₀).Stores w σ τ)
    (hv : (plain P σ₀ τ₀).matching.Values w v v') : σ.debug v = τ.debug v' := by
  cases hv with
  | string s => rfl
  | function hi => exact plain_display hστ (.function hi)
  | keyword hk => exact plain_display hστ (.keyword hk)
  | null | number | boolean | host => rfl

theorem plain_errors {e e' : RuntimeError} (h : (plain Eq σ₀ τ₀).matching.Errors e e') :
    e = e' :=
  h.eq (fun _ _ hp => hp) fun _ _ hn => hn

end Region

/-- The same error, values that look the same, or no end on either side. -/
def LooksLike (r r' : Outcome Value × Store) : Prop :=
  match r.1, r'.1 with
  | .value v, .value v' => v.typeName = v'.typeName ∧ r.2.display v = r'.2.display v' ∧
    r.2.debug v = r'.2.debug v' ∧ v.isTruthy = v'.isTruthy
  | .error e, .error e' => e = e'
  | .tooDeep, .tooDeep => True
  | _, _ => False

theorem Region.looksLike {σ₀ τ₀ : Store} {w : Nat × Nat} {r r' : Outcome Value × Store}
    (hστ : (plain Eq σ₀ τ₀).Stores w r.2 r'.2)
    (ho : (plain Eq σ₀ τ₀).matching.Outcomes ((plain Eq σ₀ τ₀).matching.Values w) r.1 r'.1) :
    LooksLike r r' := by
  obtain ⟨o, σ⟩ := r
  obtain ⟨o', τ⟩ := r'
  cases ho with
  | value hv => exact ⟨hv.typeName, plain_display hστ hv, plain_debug hστ hv, hv.isTruthy⟩
  | error he => exact plain_errors he
  | tooDeep => trivial

namespace Program

variable {source : Source} {c : Context} {p : Program}

theorem bodies_self (hp : compile source c = .ok p) (hc : c.SelfContained) (σ₀ τ₀ : Store) :
    (Region.plain Eq σ₀ τ₀).matching.Bodies p.body p.body := by
  obtain ⟨tree, body, -, hbody, rfl⟩ := compile_eq_ok_iff.mp hp
  have hcontexts : (Region.plain Eq σ₀ τ₀).Contexts c c := Region.plain_contexts hc
  obtain ⟨body', hbody', hbb⟩ := Matching.Trees.lowerProgram hcontexts.tables rfl
    (Matching.Trees.refl_list (fun _ => rfl) (fun _ => rfl) tree.topLevel) hbody
  rw [hbody] at hbody'
  cases hbody'
  exact hbb

/-- A run looks the same in every store as in the initial one, makes the same frames and functions
up to their identities, and leaves the frames that were there before as they were. -/
theorem run_independent (hp : compile source c = .ok p) (hc : c.SelfContained) (host : Host)
    (limit : Nat) (σ : Store) :
    LooksLike (p.run host limit .empty) (p.run host limit σ) ∧
    (∃ made, (Region.plain Eq .empty σ).Stores made (p.run host limit .empty).2
      (p.run host limit σ).2) ∧
    ∀ s : Scope, s.index < σ.frames.size → (p.run host limit σ).2.frame? s = σ.frame? s := by
  have hcontext : p.context = c := by
    obtain ⟨tree, body, -, -, rfl⟩ := compile_eq_ok_iff.mp hp
    rfl
  have hcontexts : (Region.plain Eq .empty σ).Contexts p.context p.context :=
    Region.plain_contexts (hcontext ▸ hc)
  obtain ⟨made, -, hstores, houtcomes⟩ := Region.related_run hcontexts
    (bodies_self hp hc .empty σ) host host limit .empty σ
    (Region.stores_start (Region.plain Eq .empty σ))
  exact ⟨Region.looksLike hstores houtcomes, ⟨made, hstores⟩, hstores.kept_right⟩

theorem exists_of_isOk {x : Except CompileError Program} (h : x.isOk = true) : ∃ p, x = .ok p := by
  cases x with
  | ok p => exact ⟨p, rfl⟩
  | error e => cases h

/-- Giving the constant `true` another value does so in the program's own frame only. -/
theorem run_independent_set :
    ∃ p, compile ⟨"constants", "set(@true, false) function({ true }, @x)"⟩ (.builtin 0) = .ok p ∧
      (Context.builtin 0).SelfContained ∧
      LooksLike (p.run Host.absent 2 .empty)
        (p.run Host.absent 2 ⟨#[⟨Context.constants, .root (.builtins 0)⟩], #[], #[]⟩) ∧
      (p.run Host.absent 2 ⟨#[⟨Context.constants, .root (.builtins 0)⟩], #[], #[]⟩).2.frame? ⟨0⟩ =
        some ⟨Context.constants, .root (.builtins 0)⟩ := by
  have hok : (compile ⟨"constants", "set(@true, false) function({ true }, @x)"⟩
      (.builtin 0)).isOk = true := by decide +kernel
  obtain ⟨p, hp⟩ := exists_of_isOk hok
  have hc := Context.selfContained_builtin 0
  obtain ⟨hlooks, -, hkept⟩ := run_independent hp hc Host.absent 2
    ⟨#[⟨Context.constants, .root (.builtins 0)⟩], #[], #[]⟩
  exact ⟨p, hp, hc, hlooks, hkept ⟨0⟩ Nat.one_pos⟩

end Program

end Fexpr
