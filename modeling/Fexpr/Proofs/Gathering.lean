import Fexpr.Proofs.Continuation
import Fexpr.Proofs.Sessions

/-!
# How the loop divides its lines

Lines fall into blank ones, commands and groups, and there is only one way to divide them so. The
loop finds it while it goes, and gives the text of each complete group to its session, one after
another.
-/

namespace Fexpr.Repl

def Item.lines : Item → List String
  | .blank line => [line]
  | .command line _ => [line]
  | .entry lines => lines

def StartsEntry (line : String) : Prop :=
  Text.trim line ≠ "" ∧ (Text.trim line).toList.head? ≠ some ':'

structure Open (lines : List String) : Prop where
  starts : ∀ line ∈ lines.head?, StartsEntry line
  goesOn : ∀ front, front ≠ [] → front <+: lines → isIncomplete (entryText front) = true

structure Complete (lines : List String) : Prop where
  ne_nil : lines ≠ []
  starts : ∀ line ∈ lines.head?, StartsEntry line
  goesOn : ∀ front, front ≠ [] → front <+: lines → front ≠ lines →
    isIncomplete (entryText front) = true
  ends : isIncomplete (entryText lines) = false

inductive Item.Recognised : Item → Prop
  | blank {line : String} (h : Text.trim line = "") : Recognised (.blank line)
  | command {line : String} (h : (Text.trim line).toList.head? = some ':') :
    Recognised (.command line (.ofText (Text.trim line)))
  | entry {lines : List String} (h : Complete lines) : Recognised (.entry lines)

/-- Items, the lines of an entry that is left open, and lines that are never read make up all lines
in order. Nothing comes after a command to quit, and only then are lines not read. -/
structure Divides (lines : List String) (all : List Item) (left : List String) : Prop where
  recognised : ∀ item ∈ all, item.Recognised
  remains : Open left
  stops : ∀ before line after, all = before ++ .command line .quit :: after →
    after = [] ∧ left = []
  consumed : ∃ unread, lines = all.flatMap Item.lines ++ left ++ unread ∧
    (unread ≠ [] → ∃ line, .command line .quit ∈ all)

theorem Open.nil : Open [] where
  starts line h := by cases h
  goesOn front hne h := absurd (List.prefix_nil.mp h) hne

theorem starts_concat {pending : List String} {line : String}
    (h : ∀ first ∈ pending.head?, StartsEntry first) (hline : pending = [] → StartsEntry line) :
    ∀ first ∈ (pending ++ [line]).head?, StartsEntry first := by
  intro first hfirst
  cases pending with
  | nil =>
    cases hfirst
    exact hline rfl
  | cons head rest => exact h first hfirst

theorem Open.concat {pending : List String} {line : String} (h : Open pending)
    (hline : pending = [] → StartsEntry line)
    (hmore : isIncomplete (entryText (pending ++ [line])) = true) : Open (pending ++ [line]) where
  starts := starts_concat h.starts hline
  goesOn front hne hfront := by
    rcases List.prefix_concat_iff.mp hfront with rfl | hfront
    · exact hmore
    · exact h.goesOn front hne hfront

theorem Open.complete {pending : List String} {line : String} (h : Open pending)
    (hline : pending = [] → StartsEntry line)
    (hends : isIncomplete (entryText (pending ++ [line])) = false) :
    Complete (pending ++ [line]) where
  ne_nil := List.append_ne_nil_of_right_ne_nil pending (List.cons_ne_nil line [])
  starts := starts_concat h.starts hline
  goesOn front hne hfront hproper := by
    rcases List.prefix_concat_iff.mp hfront with heq | hfront
    · exact absurd heq hproper
    · exact h.goesOn front hne hfront
  ends := hends

theorem items_cons_of_waits {pending pending' : List String} {line : String}
    (h : absorb pending line = (pending', none)) (rest : List String) :
    items pending (line :: rest) = items pending' rest := by
  rw [items, h]

theorem items_cons_of_item {pending pending' : List String} {line : String} {item : Item}
    (h : absorb pending line = (pending', some item)) (hquit : ∀ l, item ≠ .command l .quit)
    (rest : List String) :
    items pending (line :: rest) = (item :: (items pending' rest).1, (items pending' rest).2) := by
  rw [items, h]
  split
  · rename_i heq
    cases heq
  · rename_i l heq
    cases heq
    exact absurd rfl (hquit l)
  · rename_i pending' item' hne heq
    cases heq
    rfl

theorem items_cons_of_quit {pending pending' : List String} {line l : String}
    (h : absorb pending line = (pending', some (.command l .quit))) (rest : List String) :
    items pending (line :: rest) = ([.command l .quit], []) := by
  rw [items, h]

theorem Divides.nil {left : List String} (h : Open left) : Divides left [] left where
  recognised item hitem := by cases hitem
  remains := h
  stops before line after heq := by simp at heq
  consumed := ⟨[], by simp, by simp⟩

theorem Divides.quit {line : String} (h : Item.Recognised (.command line .quit))
    (rest : List String) : Divides (line :: rest) [.command line .quit] [] where
  recognised item hitem := by
    rw [List.mem_singleton.mp hitem]
    exact h
  remains := .nil
  stops before l after heq := by
    cases before with
    | nil =>
      cases heq
      exact ⟨rfl, rfl⟩
    | cons item before => simp at heq
  consumed := ⟨rest, by simp [Item.lines], fun _ => ⟨line, List.mem_singleton_self _⟩⟩

theorem Divides.cons {lines left : List String} {all : List Item} {item : Item}
    (hitem : item.Recognised) (hquit : ∀ line, item ≠ .command line .quit)
    (h : Divides lines all left) : Divides (item.lines ++ lines) (item :: all) left where
  recognised other hother := by
    rcases List.mem_cons.mp hother with rfl | hother
    · exact hitem
    · exact h.recognised other hother
  remains := h.remains
  stops before line after heq := by
    cases before with
    | nil =>
      cases heq
      exact absurd rfl (hquit line)
    | cons first before =>
      obtain ⟨-, htail⟩ := List.cons.inj heq
      exact h.stops before line after htail
  consumed := by
    obtain ⟨unread, hlines, hunread⟩ := h.consumed
    refine ⟨unread, by simp [hlines], fun hne => ?_⟩
    obtain ⟨line, hline⟩ := hunread hne
    exact ⟨line, List.mem_cons_of_mem item hline⟩

theorem Divides.tail {lines left : List String} {all : List Item} {item : Item}
    (h : Divides lines (item :: all) left) (hquit : ∀ line, item ≠ .command line .quit) :
    ∃ rest, lines = item.lines ++ rest ∧ Divides rest all left := by
  obtain ⟨unread, hlines, hunread⟩ := h.consumed
  refine ⟨all.flatMap Item.lines ++ left ++ unread, by simp [hlines], ?_⟩
  constructor
  · exact fun other hother => h.recognised other (List.mem_cons_of_mem item hother)
  · exact h.remains
  · intro before line after heq
    exact h.stops (item :: before) line after (by rw [heq, List.cons_append])
  · refine ⟨unread, rfl, fun hne => ?_⟩
    obtain ⟨line, hline⟩ := hunread hne
    rcases List.mem_cons.mp hline with heq | hline
    · exact absurd heq.symm (hquit line)
    · exact ⟨line, hline⟩

def Item.text? : Item → Option String
  | .entry lines => some (entryText lines)
  | _ => none

def texts (all : List Item) : List String := all.filterMap Item.text?

variable {host : Host} {limit : Nat}

theorem Output.nil_append (a : Output) : Output.append ⟨"", ""⟩ a = a := by
  simp [Output.append]

theorem Output.append_assoc (a b c : Output) : (a.append b).append c = a.append (b.append c) := by
  simp [Output.append, String.append_assoc]

def respondAll (host : Host) (limit : Nat) (state : State) : List Item → Output
  | [] => ⟨"", ""⟩
  | item :: rest =>
    let (output, state) := respond host limit state item
    output.append (respondAll host limit state rest)

def endsLoop (all : List Item) : Bool :=
  all.any fun
    | .command _ .quit => true
    | _ => false

theorem endsLoop_cons {item : Item} (h : ∀ l, item ≠ .command l .quit) (all : List Item) :
    endsLoop (item :: all) = endsLoop all := by
  cases item with
  | blank | entry => rfl
  | command l command =>
    cases command with
    | quit => exact absurd rfl (h l)
    | help | scope | tree | unknown => rfl

theorem Loop.turn_of_item {loop : Loop} {typed line : String} {pending : List String} {item : Item}
    (hline : Line.ofTyped? typed = some line) (h : absorb loop.pending line = (pending, some item))
    (hquit : ∀ l, item ≠ .command l .quit) :
    loop.turn host limit typed =
      .next (respond host limit loop.state item).1 ⟨pending, (respond host limit loop.state item).2⟩ := by
  rw [Loop.turn, hline]
  dsimp only
  rw [h]
  split
  · rename_i heq
    cases heq
  · rename_i l heq
    cases heq
    exact absurd rfl (hquit l)
  · rename_i heq
    cases heq
    rfl

/-- Line by line, the loop gives the answers to the items that its lines add up to. -/
theorem Loop.run_eq (loop : Loop) {typed lines : List String} {complete : Bool}
    (h : Line.ofAllTyped typed = (lines, complete)) :
    loop.run host limit typed =
      (respondAll host limit loop.state (items loop.pending lines).1,
        complete || endsLoop (items loop.pending lines).1) := by
  induction typed generalizing loop lines complete with
  | nil =>
    cases h
    rfl
  | cons next typed ih =>
    rw [Line.ofAllTyped] at h
    cases hline : Line.ofTyped? next with
    | none =>
      rw [hline] at h
      cases h
      rw [Loop.run, Loop.turn, hline]
      rfl
    | some line =>
      obtain ⟨⟨rest, more⟩, hrest⟩ : ∃ read, Line.ofAllTyped typed = read := ⟨_, rfl⟩
      rw [hline, hrest] at h
      cases h
      obtain ⟨⟨pending, item?⟩, habsorb⟩ : ∃ step, absorb loop.pending line = step := ⟨_, rfl⟩
      cases item? with
      | none =>
        rw [Loop.run, Loop.turn, hline, items_cons_of_waits habsorb]
        simp only [habsorb, ih _ hrest, Output.nil_append]
      | some item =>
        by_cases hquit : ∃ l, item = .command l .quit
        · obtain ⟨l, rfl⟩ := hquit
          rw [Loop.run, Loop.turn, hline, items_cons_of_quit habsorb]
          simp [habsorb, respondAll, respond, Output.append, endsLoop]
        · have hquit : ∀ l, item ≠ .command l .quit := fun l heq => hquit ⟨l, heq⟩
          rw [Loop.run, Loop.turn_of_item hline habsorb hquit, items_cons_of_item habsorb hquit]
          simp only [ih _ hrest, respondAll]
          rw [endsLoop_cons hquit]

end Fexpr.Repl
