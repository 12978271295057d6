import Mathlib.Data.Nat.Find
import Fexpr.Context
import Fexpr.Proofs.ErrorOrigin

/-!
# Signatures of the built-in keywords

A signature says how many arguments a keyword takes and what they have to look like. A call that goes
against the signature fails before anything is evaluated, with an error that its text alone decides.
Other calls pass on errors about the number or the kind of arguments, but raise none.
-/

namespace Fexpr

inductive Shape where
  | expression
  | reference
  | block
deriving DecidableEq, Repr

namespace Shape

def fits : Shape → Code → Bool
  | expression, _ | reference, .reference _ _ | block, .block _ _ => true
  | _, _ => false

def describe : Shape → String
  | expression => "an expression"
  | reference => "an @reference"
  | block => "a block"

end Shape

structure Signature where
  least : Nat
  most : Option Nat
  first : Shape
  others : Shape
deriving DecidableEq, Repr

namespace Signature

def shape (g : Signature) : Nat → Shape
  | 0 => g.first
  | _ + 1 => g.others

def Counts (g : Signature) (n : Nat) : Prop := g.least ≤ n ∧ ∀ most ∈ g.most, n ≤ most

def FitsAt (g : Signature) (args : List Code) (i : Nat) : Prop :=
  ∀ arg ∈ args[i]?, (g.shape i).fits arg

structure Accepts (g : Signature) (args : List Code) : Prop where
  count : g.Counts args.length
  shapes : ∀ i, g.FitsAt args i

/-- The error for a call that goes against a signature. The number of arguments comes first, and of
the arguments that do not fit the leftmost. -/
inductive Reports (g : Signature) (c : Call) : RuntimeError → Prop where
  | count (h : ¬ g.Counts c.args.length) :
    Reports g c (.arity c.name ⟨g.least, g.most⟩ c.args.length c.span)
  | shape {i : Nat} {arg : Code} (hcount : g.Counts c.args.length)
    (hbefore : ∀ j < i, g.FitsAt c.args j) (harg : c.args[i]? = some arg)
    (h : (g.shape i).fits arg = false) :
    Reports g c (.mismatch c.name (i + 1) (g.shape i).describe arg.describe arg.span)

theorem exists_reports_iff {g : Signature} {c : Call} :
    (∃ e, g.Reports c e) ↔ ¬ g.Accepts c.args := by
  constructor
  · rintro ⟨e, hreports⟩ ⟨hcount, hshapes⟩
    cases hreports with
    | count h => exact h hcount
    | shape _ _ harg h =>
      rw [hshapes _ _ harg] at h
      cases h
  · intro hnot
    by_cases hcount : g.Counts c.args.length
    · have hexists : ∃ i, ¬ g.FitsAt c.args i := by
        by_contra hall
        exact hnot ⟨hcount, fun i => not_not.mp fun hi => hall ⟨i, hi⟩⟩
      classical
      obtain ⟨i, hfirst, hbefore⟩ : ∃ i, ¬ g.FitsAt c.args i ∧ ∀ j < i, g.FitsAt c.args j :=
        ⟨Nat.find hexists, Nat.find_spec hexists,
          fun j hj => not_not.mp (Nat.find_min hexists hj)⟩
      simp only [FitsAt, Option.mem_def, not_forall, Bool.not_eq_true] at hfirst
      obtain ⟨arg, harg, hfits⟩ := hfirst
      exact ⟨_, .shape hcount hbefore harg hfits⟩
    · exact ⟨_, .count hcount⟩

end Signature

namespace Builtin

def signature : Builtin → Signature
  | var => ⟨1, some 2, .reference, .expression⟩
  | set => ⟨2, some 2, .reference, .expression⟩
  | cond => ⟨2, some 3, .expression, .expression⟩
  | function => ⟨1, none, .block, .reference⟩
  | eq => ⟨2, some 2, .expression, .expression⟩
  | not => ⟨1, some 1, .expression, .expression⟩
  | any | all => ⟨0, none, .expression, .expression⟩

theorem arity_eq (b : Builtin) : b.arity = ⟨b.signature.least, b.signature.most⟩ := by
  cases b <;> rfl

theorem accepts_iff_counts (b : Builtin) (n : Nat) :
    b.arity.accepts n = true ↔ b.signature.Counts n := by
  rw [arity_eq, Arity.accepts, Bool.and_eq_true, decide_eq_true_eq, Signature.Counts]
  cases b.signature.most <;> simp

theorem fits_reference_iff {code : Code} :
    Shape.reference.fits code = true ↔ ∃ p m, code = .reference p m := by
  cases code <;> simp [Shape.fits]

theorem fits_reference_eq_false_iff {code : Code} :
    Shape.reference.fits code = false ↔ code.referenceName? = none := by
  cases code <;> simp [Shape.fits, Code.referenceName?]

theorem fits_block_eq (code : Code) : Shape.block.fits code = code.body?.isSome := by
  cases code <;> rfl

variable {b : Builtin} {c : Call} {e : RuntimeError} {i : Nat} {arg : Code} {expected : String}

theorem Rejects.leftmost (h : b.Rejects c.args i expected arg) :
    (∀ j < i, b.signature.FitsAt c.args j) ∧ c.args[i]? = some arg ∧
      (b.signature.shape i).fits arg = false ∧ expected = (b.signature.shape i).describe := by
  cases h with
  | var harg h | set harg h =>
    exact ⟨fun j hj => absurd hj (Nat.not_lt_zero j), harg, fits_reference_eq_false_iff.mpr h, rfl⟩
  | body harg h =>
    refine ⟨fun j hj => absurd hj (Nat.not_lt_zero j), harg, ?_, rfl⟩
    exact (fits_block_eq arg).trans (by rw [h]; rfl)
  | @param body arg i hbody hblock hbefore harg h =>
    refine ⟨?_, harg, fits_reference_eq_false_iff.mpr h, rfl⟩
    intro j hj a ha
    cases j with
    | zero =>
      obtain rfl : body = a := Option.some.inj (hbody.symm.trans ha)
      exact (fits_block_eq body).trans hblock
    | succ j =>
      obtain ⟨p, m, hj⟩ := hbefore j (Nat.lt_of_succ_lt_succ hj)
      obtain rfl : .reference p m = a := Option.some.inj (hj.symm.trans ha)
      rfl

theorem rejects_param (hbefore : ∀ j < i + 1, function.signature.FitsAt c.args j)
    (harg : c.args[i + 1]? = some arg) (hfits : Shape.reference.fits arg = false) :
    function.Rejects c.args (i + 1) Shape.reference.describe arg := by
  have hlt : i + 1 < c.args.length := (List.getElem?_eq_some_iff.mp harg).1
  have hthere : ∀ j ≤ i, ∃ a, c.args[j]? = some a :=
    fun j hj => ⟨_, List.getElem?_eq_getElem (by omega)⟩
  obtain ⟨body, hbody⟩ := hthere 0 (Nat.zero_le i)
  have hblock := hbefore 0 (Nat.zero_lt_succ i) body hbody
  refine .param hbody ((fits_block_eq body).symm.trans hblock) ?_ harg
    (fits_reference_eq_false_iff.mp hfits)
  intro j hj
  obtain ⟨a, ha⟩ := hthere (j + 1) hj
  obtain ⟨p, m, rfl⟩ := fits_reference_iff.mp (hbefore (j + 1) (by omega) a ha)
  exact ⟨p, m, ha⟩

/-- What a keyword rejects is the leftmost argument that does not fit its signature. -/
theorem rejects_iff :
    b.Rejects c.args i expected arg ↔
      (∀ j < i, b.signature.FitsAt c.args j) ∧ c.args[i]? = some arg ∧
        (b.signature.shape i).fits arg = false ∧ expected = (b.signature.shape i).describe := by
  refine ⟨Rejects.leftmost, ?_⟩
  rintro ⟨hbefore, harg, hfits, rfl⟩
  cases b with
  | var =>
    cases i with
    | zero => exact .var harg (fits_reference_eq_false_iff.mp hfits)
    | succ i => cases hfits
  | set =>
    cases i with
    | zero => exact .set harg (fits_reference_eq_false_iff.mp hfits)
    | succ i => cases hfits
  | function =>
    cases i with
    | zero =>
      refine .body harg ?_
      rwa [signature, Signature.shape, fits_block_eq, Option.isSome_eq_false_iff,
        Option.isNone_iff_eq_none] at hfits
    | succ i => exact rejects_param hbefore harg hfits
  | cond | eq | not | any | all => cases i <;> cases hfits

theorem reports_iff :
    b.signature.Reports c e ↔
      b.arity.accepts c.args.length = false ∧ e = .arity c.name b.arity c.args.length c.span ∨
      b.arity.accepts c.args.length = true ∧ ∃ i expected arg, b.Rejects c.args i expected arg ∧
        e = .mismatch c.name (i + 1) expected arg.describe arg.span := by
  rw [← Bool.not_eq_true, accepts_iff_counts]
  constructor
  · intro h
    cases h with
    | count h => exact .inl ⟨h, by rw [arity_eq]⟩
    | shape hcount hbefore harg h =>
      exact .inr ⟨hcount, _, _, _, rejects_iff.mpr ⟨hbefore, harg, h, rfl⟩, rfl⟩
  · rintro (⟨h, rfl⟩ | ⟨hcount, i, expected, arg, hrejects, rfl⟩)
    · rw [arity_eq]
      exact .count h
    · obtain ⟨hbefore, harg, hfits, rfl⟩ := rejects_iff.mp hrejects
      exact .shape hcount hbefore harg hfits

end Builtin

namespace Builtin

variable {ev : Evaluator} {b : Builtin} {c : Call} {σ τ : Store} {e : RuntimeError} {i j : Nat}
  {arg : Code} {expected : String}

theorem Rejects.not_reads (h : b.Rejects c.args i expected arg) : ¬ b.Reads ev c σ j τ := by
  intro hreads
  cases h with
  | var harg hnone =>
    cases hreads with
    | var hname =>
      cases hname.symm.trans harg
      cases hnone
  | set harg hnone =>
    cases hreads with
    | set hname =>
      cases hname.symm.trans harg
      cases hnone
  | body | param => cases hreads

theorem run_of_reports (h : b.signature.Reports c e) : b.run ev c σ = (.error e, σ) := by
  rcases reports_iff.mp h with ⟨hcount, rfl⟩ | ⟨hcount, i, expected, arg, hrejects, rfl⟩
  · exact Visit.run_of_not_accepts hcount
  · rw [Visit.run_of_accepts hcount, hrejects.apply_eq]

end Builtin

def RuntimeError.isShape : RuntimeError → Bool
  | arity _ _ _ _ | mismatch _ _ _ _ _ => true
  | _ => false

namespace Visit

variable {v w : Visit} {table : Nat} {b : Builtin} {c : Call} {e : RuntimeError} {ev : Evaluator}

/-- Evaluation fails with an error that no part fails with which it evaluates on the way. -/
structure FailsItself (host : Host) (n : Nat) (v : Visit) (e : RuntimeError) : Prop where
  fails : (v.code.eval host (n + 1) v.scope v.store).1 = .error e
  parts : ∀ w, v.Leads (Code.eval host n) w → (w.code.eval host n w.scope w.store).1 ≠ .error e

theorem Runs.unique {k k' : Keyword} {c' : Call} (h : v.Runs k c) (h' : v.Runs k' c') :
    k' = k ∧ c' = c := by
  cases h with
  | keyword =>
    cases h'
    exact ⟨rfl, rfl⟩
  | name h =>
    cases h' with
    | name h' =>
      cases h.symm.trans h'
      exact ⟨rfl, rfl⟩

theorem Runs.not_leads (hv : v.Runs (.builtin table b) c) (h : b.signature.Reports c e) :
    ¬ v.Leads ev w := by
  intro hleads
  cases hleads with
  | item => cases hv
  | argument hv' haccepts _ hreads =>
    obtain ⟨hk, rfl⟩ := hv.unique hv'
    cases hk
    rcases Builtin.reports_iff.mp h with ⟨hcount, -⟩ | ⟨-, i, expected, arg, hrejects, -⟩
    · rw [haccepts] at hcount
      cases hcount
    · exact hrejects.not_reads hreads
  | param hv' | body hv' =>
    cases hv' with
    | name hfunction =>
      cases hv with
      | name hkeyword => cases hfunction.symm.trans hkeyword

theorem Runs.reports_of_raises {I : Interpreter} {host : Host} (hv : v.Runs (.builtin table b) c)
    (hshape : e.isShape) (h : v.Raises I host e) : b.signature.Reports c e := by
  have hname : c.name = b.name := hv.name_eq
  cases h with
  | lookup | reference | callee | notCallable | set => cases hshape
  | arity hv' haccepts =>
    obtain ⟨hk, rfl⟩ := hv.unique hv'
    cases hk
    exact Builtin.reports_iff.mpr (.inl ⟨haccepts, by rw [hname]⟩)
  | mismatch hv' haccepts hrejects =>
    obtain ⟨hk, rfl⟩ := hv.unique hv'
    cases hk
    exact Builtin.reports_iff.mpr (.inr ⟨haccepts, _, _, _, hrejects, by rw [hname]⟩)
  | host hv' =>
    obtain ⟨hk, -⟩ := hv.unique hv'
    cases hk

theorem Runs.failsItself_iff (hv : v.Runs (.builtin table b) c) (host : Host) (n : Nat) :
    e.isShape ∧ v.FailsItself host n e ↔ b.signature.Reports c e := by
  constructor
  · rintro ⟨hshape, hfails, hparts⟩
    rw [Code.eval] at hfails
    rcases hv.raises_or_leads hfails with hraises | ⟨w, hw, hfails⟩
    · exact hv.reports_of_raises hshape hraises
    · exact absurd hfails (hparts w hw)
  · intro h
    refine ⟨?_, ?_, fun w hw => absurd hw (hv.not_leads h)⟩
    · cases h <;> rfl
    · rw [Code.eval, hv.evalStep_builtin, Builtin.run_of_reports h]

theorem Runs.invokeStep_eq (hv : v.Runs (.builtin table b) c) (I : Interpreter) (host : Host)
    (name : String) :
    I.invokeStep host (.keyword (.builtin table b)) { c with name } v.store =
      I.evalStep host v.code v.scope v.store := by
  rw [hv.evalStep_builtin]
  cases hv <;> rfl

/--
A call of a built-in keyword, whatever name or value it goes through, raises an error about the
number or the kind of its arguments if and only if they go against the signature of the keyword. The
error is the one that the signature reports: that of the number comes before those of the kinds, and
of these the leftmost. Then no argument is evaluated, so that it does not matter what evaluation of
arguments would do, and the store stays as it is.
-/
theorem Runs.shape_errors_static (hv : v.Runs (.builtin table b) c) (host : Host) (n : Nat) :
    (∀ e, e.isShape ∧ v.FailsItself host n e ↔ b.signature.Reports c e) ∧
    ((∃ e, e.isShape ∧ v.FailsItself host n e) ↔ ¬ b.signature.Accepts c.args) ∧
    (∀ e, b.signature.Reports c e →
      (∀ w, ¬ v.Leads (Code.eval host n) w) ∧
      ∀ I : Interpreter, I.evalStep host v.code v.scope v.store = (.error e, v.store)) ∧
    ∀ (I : Interpreter) (name : String),
      I.invokeStep host (.keyword (.builtin table b)) { c with name } v.store =
        I.evalStep host v.code v.scope v.store := by
  refine ⟨fun e => hv.failsItself_iff host n, ?_, ?_, fun I name => hv.invokeStep_eq I host name⟩
  · rw [← Signature.exists_reports_iff]
    exact exists_congr fun e => hv.failsItself_iff host n
  · intro e h
    refine ⟨fun w => hv.not_leads h, fun I => ?_⟩
    rw [hv.evalStep_builtin, Builtin.run_of_reports h]

def misshapen : List Code :=
  [.block ⟨2, 5⟩ [], .call ⟨7, 20⟩ (.keyword (.builtin 0 .set)) [.reference ⟨11, 13⟩ "x",
    .lookup ⟨15, 19⟩ "true"], .literal ⟨22, 25⟩ (.string "p")]

def misshapenCall : Visit where
  code := .call ⟨0, 26⟩ (.name "k") misshapen
  scope := ⟨0⟩
  store := ⟨#[⟨(Context.constants.insert "x" .null).insert "k" (.keyword (.builtin 0 .function)),
    .root (.builtins 0)⟩], #[], #[]⟩

/-- Two of the arguments are no references. The first of them is reported, and `x` is not set. -/
theorem Runs.shape_errors_static_misshapen :
    misshapenCall.Runs (.builtin 0 .function) ⟨"function", ⟨0⟩, misshapen, ⟨0, 26⟩⟩ ∧
    misshapenCall.FailsItself Host.absent 5
      (.mismatch "function" 2 "an @reference" "an invocation" ⟨7, 20⟩) ∧
    misshapenCall.code.eval Host.absent 6 ⟨0⟩ misshapenCall.store =
      (.error (.mismatch "function" 2 "an @reference" "an invocation" ⟨7, 20⟩),
        misshapenCall.store) := by
  have hruns : misshapenCall.Runs (.builtin 0 .function) ⟨"function", ⟨0⟩, misshapen, ⟨0, 26⟩⟩ :=
    .name (by decide +kernel)
  have hcount : Builtin.function.signature.Counts misshapen.length :=
    ⟨by decide, fun most hmost => by cases hmost⟩
  have hbefore : ∀ j < 1, Builtin.function.signature.FitsAt misshapen j := by
    rintro j hj arg harg
    obtain rfl : j = 0 := by omega
    cases harg
    rfl
  have hsecond : misshapen[1]? = some (.call ⟨7, 20⟩ (.keyword (.builtin 0 .set))
      [.reference ⟨11, 13⟩ "x", .lookup ⟨15, 19⟩ "true"]) := rfl
  have hreports := Signature.Reports.shape (c := ⟨"function", ⟨0⟩, misshapen, ⟨0, 26⟩⟩) hcount
    hbefore hsecond rfl
  obtain ⟨hiff, -, hatomic, -⟩ := hruns.shape_errors_static Host.absent 5
  exact ⟨hruns, ((hiff _).mpr hreports).2, (hatomic _ hreports).2 _⟩

end Visit

end Fexpr
