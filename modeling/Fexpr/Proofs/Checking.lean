import Fexpr.Cli.Run
import Fexpr.Proofs.Coverage
import Fexpr.Proofs.ErrorOrigin
import Fexpr.Proofs.InvalidCallee
import Fexpr.Proofs.Reachability

/-!
# Checking a file

Checking reads a source up to three times: for the listing of its tokens, for its tree, and to
compile it. All three accept the same sources, and what they accept can only fail when it is run:
with an error of the program, or because the program is nested too deeply for any stack.
-/

namespace Fexpr

theorem exists_parse_error_of_call {source : String} {k : Nat} {e : CompileError}
    (h : (Reader.start source).call k = .error e) : ∃ e', parse source = .error e' := by
  cases hparse : parse source with
  | error e' => exact ⟨e', rfl⟩
  | ok tree =>
    obtain ⟨s, es, hclean, -⟩ := parse_eq_ok_iff.mp hparse
    rw [Reader.call_eq, Reader.map_result_visits] at h
    change (pieces source)[k]?.getD _ = _ at h
    rw [Scan.eq_map_ok hclean, List.getElem?_map] at h
    cases hk : (Scan.ofPieces (pieces source)).tokens[k]? with
    | none =>
      rw [hk] at h
      cases h
    | some t =>
      rw [hk] at h
      cases h

namespace Cli

variable {source : Source} {p : Program} {limit : Nat}

def Blank (s : String) : Prop := ∀ c ∈ s.toList, c = ' '

/-- A cell of a column in which texts stand on the right. A text that is too wide is not cut. -/
def AlignsRight (width : Nat) (s cell : String) : Prop :=
  ∃ blanks, Blank blanks ∧ cell = blanks ++ s ∧ cell.length = max width s.length

def AlignsLeft (width : Nat) (s cell : String) : Prop :=
  ∃ blanks, Blank blanks ∧ cell = s ++ blanks ∧ cell.length = max width s.length

def Shows (t : Token) (row : String) : Prop :=
  ∃ start stop kind, AlignsRight 4 (toString t.span.start) start ∧
    AlignsLeft 4 (toString t.span.stop) stop ∧ AlignsLeft 8 t.kind.text kind ∧
    row = "  " ++ start ++ ".." ++ stop ++ " " ++ kind ++ " " ++ t.text ++ "\n"

theorem blank_replicate (n : Nat) : Blank (String.ofList (List.replicate n ' ')) := by
  intro c hc
  rw [String.toList_ofList] at hc
  exact List.eq_of_mem_replicate hc

theorem alignsRight_padLeft (width : Nat) (s : String) :
    AlignsRight width s (Text.padLeft width s) := by
  refine ⟨_, blank_replicate _, rfl, ?_⟩
  rw [Text.padLeft, String.length_append, String.length_ofList, List.length_replicate]
  omega

theorem alignsLeft_padRight (width : Nat) (s : String) :
    AlignsLeft width s (Text.padRight width s) := by
  refine ⟨_, blank_replicate _, rfl, ?_⟩
  rw [Text.padRight, String.length_append, String.length_ofList, List.length_replicate]
  omega

theorem shows_tokenLine (t : Token) : Shows t (tokenLine t) :=
  ⟨_, _, _, alignsRight_padLeft _ _, alignsLeft_padRight _ _, alignsLeft_padRight _ _, rfl⟩

theorem tokenListing_of_lex {text : String} {tokens : List Token} (h : lex text = .ok tokens) :
    tokenListing text =
      ("=== Tokens ===\n" ++ String.join (tokens.map tokenLine) ++ "\n", none) := by
  obtain ⟨hclean, rfl⟩ := lex_eq_ok_iff.mp h
  rw [tokenListing, hclean]

theorem exists_lex_of_compile {context : Context} (h : Program.compile source context = .ok p) :
    ∃ tokens, lex source.text = .ok tokens := by
  obtain ⟨tree, body, hparse, -⟩ := Program.compile_eq_ok_iff.mp h
  obtain ⟨s, es, hclean, -⟩ := parse_eq_ok_iff.mp hparse
  exact ⟨_, lex_eq_ok_iff.mpr ⟨hclean, rfl⟩⟩

theorem checkSource_of_compile (h : Program.compile source (.builtin 0) = .ok p)
    (showTokens showTree : Bool) :
    ∃ rest, checkSource source showTokens showTree =
      success ((if showTokens then (tokenListing source.text).1 else "") ++ rest) := by
  obtain ⟨tokens, htokens⟩ := exists_lex_of_compile h
  obtain ⟨tree, body, hparse, -⟩ := Program.compile_eq_ok_iff.mp h
  have hlisting : (if showTokens then tokenListing source.text else ("", none)) =
      (if showTokens then (tokenListing source.text).1 else "", none) := by
    cases showTokens with
    | false => rfl
    | true =>
      rw [tokenListing_of_lex htokens]
      rfl
  rw [checkSource, hlisting, hparse]
  simp only [h, String.append_assoc]
  exact ⟨_, rfl⟩

theorem listing_of_compile (h : Program.compile source (.builtin 0) = .ok p) (showTree : Bool) :
    ∃ tokens rows rest, lex source.text = .ok tokens ∧
      tokens.getLast? = some (Token.endOf source.text) ∧ List.Forall₂ Shows tokens rows ∧
      (checkSource source true showTree).output.out =
        "=== Tokens ===\n" ++ String.join rows ++ "\n" ++ rest := by
  obtain ⟨tokens, htokens⟩ := exists_lex_of_compile h
  obtain ⟨rest, hreport⟩ := checkSource_of_compile h true showTree
  refine ⟨tokens, tokens.map tokenLine, rest, htokens, ?_, ?_, ?_⟩
  · obtain ⟨-, rfl⟩ := lex_eq_ok_iff.mp htokens
    exact List.getLast?_concat
  · exact List.forall₂_map_right_iff.mpr (List.forall₂_same.mpr fun t _ => shows_tokenLine t)
  · rw [hreport, if_pos rfl, tokenListing_of_lex htokens]
    rfl

theorem exit_checkSource_of_error {e : CompileError}
    (h : Program.compile source (.builtin 0) = .error e) (showTokens showTree : Bool) :
    (checkSource source showTokens showTree).exit = .code 1 := by
  have hparse := Program.compile_eq_error_iff.mp h
  rw [checkSource, hparse]
  generalize (if showTokens then tokenListing source.text else ("", none)) = listing
  obtain ⟨tokens, lexical⟩ := listing
  cases lexical <;> rfl

theorem runSource_of_tooDeep (h : Program.compile source (.builtin 0) = .ok p)
    (hrun : (p.run Host.absent limit .empty).1 = .tooDeep) : runSource limit source = overflow := by
  rw [runSource, evaluate, h]
  simp only [hrun]
  rfl

theorem run_of_exit_runSource (h : Program.compile source (.builtin 0) = .ok p)
    (hexit : (runSource limit source).exit ≠ .code 0) :
    (∃ e σ, p.run Host.absent limit .empty = (.error e, σ) ∧
      runSource limit source = failure "" e.diagnostic.message) ∨
    ∃ σ, p.run Host.absent limit .empty = (.tooDeep, σ) ∧ runSource limit source = overflow := by
  obtain ⟨⟨outcome, σ⟩, hrun⟩ : ∃ r, p.run Host.absent limit .empty = r := ⟨_, rfl⟩
  have hevaluate : evaluate limit source = (outcome.toExcept, σ) := by
    rw [evaluate, h]
    simp only [hrun]
  cases outcome with
  | value v =>
    rw [runSource, hevaluate] at hexit
    cases v <;> exact absurd rfl hexit
  | error e =>
    left
    refine ⟨e, σ, hrun, ?_⟩
    rw [runSource, hevaluate]
    rfl
  | tooDeep => exact .inr ⟨σ, hrun, runSource_of_tooDeep h (by rw [hrun])⟩

/--
Whatever is listed, checking a file that can be read ends with one and the same code, which is zero
if and only if the file compiles. Then the listing shows all tokens with the end marker, and running
the file fails only when its program does, with a runtime error or by overflowing the stack, however
large that is. A lexical error anywhere in a file is an error of parsing as well.
-/
theorem check_agrees {files : Files} {path text : String} (hread : readText files path = some text)
    (input : String) (limit : Nat) :
    (∃ code, (∀ showTokens showTree,
        ((Command.check path showTokens showTree).report limit files input).exit = .code code) ∧
      (code = 0 ↔ ∃ p, Program.compile ⟨path, text⟩ (.builtin 0) = .ok p)) ∧
    (∀ p, Program.compile ⟨path, text⟩ (.builtin 0) = .ok p →
      (∀ showTree, ∃ tokens rows rest, lex text = .ok tokens ∧
        tokens.getLast? = some (Token.endOf text) ∧ List.Forall₂ Shows tokens rows ∧
        ((Command.check path true showTree).report limit files input).output.out =
          "=== Tokens ===\n" ++ String.join rows ++ "\n" ++ rest) ∧
      (((Command.run path).report limit files input).exit ≠ .code 0 →
        (∃ e σ, p.run Host.absent limit .empty = (.error e, σ) ∧
          (Command.run path).report limit files input = failure "" e.diagnostic.message) ∨
        ∃ σ, p.run Host.absent limit .empty = (.tooDeep, σ) ∧
          (Command.run path).report limit files input = overflow)) ∧
    ∀ k e, (Reader.start text).call k = .error e → ∃ e', parse text = .error e' := by
  have hcheck : ∀ showTokens showTree,
      (Command.check path showTokens showTree).report limit files input =
        checkSource ⟨path, text⟩ showTokens showTree := by
    intro showTokens showTree
    rw [Command.report, hread]
  have hrun : (Command.run path).report limit files input = runSource limit ⟨path, text⟩ := by
    rw [Command.report, hread]
  simp only [hcheck, hrun]
  refine ⟨?_, ?_, fun k e => exists_parse_error_of_call⟩
  · cases hcompile : Program.compile ⟨path, text⟩ (.builtin 0) with
    | error e => exact ⟨1, exit_checkSource_of_error hcompile, by simp⟩
    | ok p =>
      refine ⟨0, fun showTokens showTree => ?_, by simp⟩
      obtain ⟨rest, hreport⟩ := checkSource_of_compile hcompile showTokens showTree
      rw [hreport]
      rfl
  · intro p hcompile
    have hlisting := listing_of_compile hcompile
    exact ⟨hlisting, run_of_exit_runSource hcompile⟩

def missingFile : Files := fun _ => some "not(missing)".toUTF8

theorem check_agrees_missing :
    readText missingFile "a" = some "not(missing)" ∧
    (∀ showTokens showTree,
      ((Command.check "a" showTokens showTree).report 9 missingFile "").exit = .code 0) ∧
    ∃ e : RuntimeError,
      (Command.run "a").report 9 missingFile "" = failure "" e.diagnostic.message := by
  have hread : readText missingFile "a" = some "not(missing)" := by decide +kernel
  obtain ⟨⟨code, hcode, hzero⟩, haccepted, -⟩ := check_agrees hread "" 9
  have hrun : (Program.compile ⟨"a", "not(missing)"⟩ (.builtin 0)).map
      (fun p => (p.run Host.absent 9 .empty).1) =
        .ok (.error (.unresolved "missing" ⟨4, 11⟩)) := by
    decide +kernel
  obtain ⟨p, hcompile, hrun⟩ := Except.map_eq_ok_iff.mp hrun
  have hexit : ((Command.run "a").report 9 missingFile "").exit ≠ .code 0 := by decide +kernel
  refine ⟨hread, fun showTokens showTree => ?_, ?_⟩
  · rw [hcode, hzero.mpr ⟨p, hcompile⟩]
  · rcases (haccepted p hcompile).2 hexit with ⟨e, σ, -, hreport⟩ | ⟨σ, hdeep, -⟩
    · exact ⟨e, hreport⟩
    · rw [hdeep] at hrun
      cases hrun

end Cli

theorem foldlM_tooDeep {ev : Evaluator} {s : Scope} {code : Code} {σ : Store}
    (h : (ev code s σ).1 = .tooDeep) {v : Value} {rest : List Code} :
    ((code :: rest).foldlM (fun _ code => ev code s) v σ).1 = .tooDeep := by
  rw [List.foldlM_cons, Eval.bind_apply]
  generalize ev code s σ = r at h
  obtain ⟨o, τ⟩ := r
  cases h
  rfl

namespace Store

/-- A function without parameters that does nothing but to call itself by its name. -/
structure Recurses (σ : Store) (name : String) (i : Nat) (t : Scope) : Prop where
  bound : ∃ f, σ.frame? t = some f ∧ f.bindings.find? name = some (.function i)
  made : ∃ p q, σ.function? i = some ⟨[], ⟨[.call p (.name name) []], q⟩, t⟩

variable {σ : Store} {name : String} {i : Nat} {s t : Scope}

theorem Recurses.addChild (h : σ.Recurses name i t) : (σ.addChild t).2.Recurses name i t where
  bound := by
    obtain ⟨f, hf, hbound⟩ := h.bound
    refine ⟨f, ?_, hbound⟩
    rw [Store.addChild, frame?_addFrame, if_neg (Nat.ne_of_lt (lt_size_of_frame? hf)), hf]
  made := h.made

theorem Recurses.lookup (h : σ.Recurses name i t) : σ.lookup t name = some (.function i) := by
  obtain ⟨f, hf, hbound⟩ := h.bound
  rw [lookup_eq_ascend, ascend, hf]
  simp only [hbound]

theorem Recurses.lookup_child (h : σ.Recurses name i t) :
    (σ.addChild t).2.lookup ⟨σ.frames.size⟩ name = some (.function i) := by
  obtain ⟨f, hf, -⟩ := h.bound
  have hchild : (σ.addChild t).2.frame? ⟨σ.frames.size⟩ = some ⟨.empty, .child t⟩ := by
    rw [Store.addChild, frame?_addFrame, if_pos rfl]
  rw [lookup_eq_ascend, ascend, hchild]
  change (if t.index < σ.frames.size then ascend _ name _ _ t else none) = _
  rw [if_pos (lt_size_of_frame? hf), ← lookup_eq_ascend, h.addChild.lookup]

/-- However deeply evaluation may be nested, a call of such a function is nested more deeply. -/
theorem Recurses.eval (h : σ.Recurses name i t) (hs : σ.lookup s name = some (.function i))
    (host : Host) (n : Nat) (p : Span) :
    (Code.eval host n (.call p (.name name) []) s σ).1 = .tooDeep := by
  induction n generalizing σ s p with
  | zero => rfl
  | succ n ih =>
    obtain ⟨q, r, hmade⟩ := h.made
    have hbody := ih h.addChild h.lookup_child q
    have henters : Visit.Enters ⟨.call p (.name name) [], s, σ⟩ _ [] := .name hs hmade
    rw [Code.eval, henters.evalStep, Function.bindParams, pure_bind]
    exact foldlM_tooDeep hbody

end Store

namespace Cli

def recursingFile : Files := fun _ => some "var(@f, function({ f() })) f()".toUTF8

/-- The code of that file, wherever its parts stand. -/
def recurses : List Code → Bool
  | [.call _ (.keyword (.builtin 0 .var)) [.reference _ "f",
      .call _ (.keyword (.builtin 0 .function)) [.block _ [.call _ (.name "f") []]]],
      .call _ (.name "f") []] => true
  | _ => false

theorem run_of_recurses {items : List Code} (h : recurses items = true) (source : Source)
    (span : Span) (limit : Nat) :
    (Program.run ⟨source, .builtin 0, ⟨items, span⟩⟩ Host.absent limit .empty).1 = .tooDeep := by
  unfold recurses at h
  split at h
  · rename_i p p₁ p₂ p₃ q q'
    let σ : Store := ⟨#[⟨Context.constants.insert "f" (.function 0), .root (.builtins 0)⟩],
      #[⟨[], ⟨[.call q (.name "f") []], p₃⟩, ⟨0⟩⟩], #[]⟩
    have hσ : σ.Recurses "f" 0 ⟨0⟩ := ⟨⟨_, rfl, rfl⟩, q, p₃, rfl⟩
    cases limit with
    | zero => rfl
    | succ limit =>
      cases limit with
      | zero => rfl
      | succ n =>
        have hfirst : Code.eval Host.absent (n + 2) (.call p (.keyword (.builtin 0 .var))
            [.reference p₁ "f", .call p₂ (.keyword (.builtin 0 .function))
              [.block p₃ [.call q (.name "f") []]]]) ⟨0⟩ ((Context.builtin 0).newScope .empty).2 =
            (.value (.function 0), σ) := rfl
        change (runItems (Code.eval Host.absent (n + 2)) ⟨0⟩ _
          ((Context.builtin 0).newScope .empty).2).1 = _
        rw [runItems, List.foldlM_cons, Eval.bind_of_value hfirst]
        exact foldlM_tooDeep (hσ.eval hσ.lookup Host.absent (n + 2) q')
  · cases h

/-- The stack overflows, however large it is, and that is no runtime error. -/
theorem overflow_of_recursingFile :
    readText recursingFile "a" = some "var(@f, function({ f() })) f()" ∧
    ∀ limit, (∀ showTokens showTree,
        ((Command.check "a" showTokens showTree).report limit recursingFile "").exit = .code 0) ∧
      (Command.run "a").report limit recursingFile "" = overflow ∧
      ∀ e : RuntimeError,
        (Command.run "a").report limit recursingFile "" ≠ failure "" e.diagnostic.message := by
  have hread : readText recursingFile "a" = some "var(@f, function({ f() })) f()" := by
    decide +kernel
  have hitems : (Program.compile ⟨"a", "var(@f, function({ f() })) f()"⟩ (.builtin 0)).map
      (recurses ·.body.items) = .ok true := by decide +kernel
  obtain ⟨p, hcompile, hitems⟩ := Except.map_eq_ok_iff.mp hitems
  refine ⟨hread, fun limit => ?_⟩
  have hrun : (Command.run "a").report limit recursingFile "" = overflow := by
    rw [Command.report, hread]
    apply runSource_of_tooDeep hcompile
    obtain ⟨tree, body, -, -, rfl⟩ := Program.compile_eq_ok_iff.mp hcompile
    exact run_of_recurses hitems _ _ limit
  refine ⟨fun showTokens showTree => ?_, hrun, fun e heq => ?_⟩
  · obtain ⟨rest, hreport⟩ := checkSource_of_compile hcompile showTokens showTree
    rw [Command.report, hread]
    exact congrArg Report.exit hreport
  · rw [hrun] at heq
    cases congrArg Report.exit heq

end Cli

end Fexpr
