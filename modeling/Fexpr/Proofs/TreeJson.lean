import Fexpr.Expr.Json
import Fexpr.Proofs.JsonNumber

/-!
# Trees as JSON

A tree is read back from its text up to the rounding of its numbers.
-/

namespace Fexpr

namespace Json

mutual

def nesting : Json → Nat
  | .array items => nestingItems items + 1
  | .object fields => nestingFields fields + 1
  | _ => 0

def nestingItems : List Json → Nat
  | [] => 0
  | item :: items => max (nesting item) (nestingItems items)

def nestingFields : List (Option String × Json) → Nat
  | [] => 0
  | (_, value) :: fields => max (nesting value) (nestingFields fields)

end

theorem fields?_record_pair {a b : String} (h : a ≠ b) (x y : Json) :
    (record [(a, x), (b, y)]).fields? [a, b] = some [x, y] := by
  simp [record, fields?, h, h.symm]

theorem wellFormed_record {fields : List (String × Json)} (h : ∀ f ∈ fields, f.2.WellFormed) :
    (record fields).WellFormed := by
  refine .object ?_ ?_
  · intro f hf
    obtain ⟨x, -, rfl⟩ := List.mem_map.1 hf
    rfl
  · intro f hf
    obtain ⟨x, hx, rfl⟩ := List.mem_map.1 hf
    exact h x hx

theorem wellFormed_ofNumber (n : Number) : (ofNumber n).WellFormed := by
  cases n with
  | nan => exact .null
  | infinity negative => exact .null
  | finite negative rank => exact .number (Numeral.ofFinite_spec negative rank.isLt).1

theorem wellFormed_ofNat (n : Nat) : (ofNat n).WellFormed := by
  refine .number ⟨Digits.isDigits_toDigits n, ?_, rfl, by simp [Numeral.ofNat]⟩
  intro c cs hcs
  rcases Nat.eq_zero_or_pos n with rfl | hpos
  · have hzero : ['0'] = '0' :: c :: cs := hcs
    injection hzero with _ hnil
    cases hnil
  · exact Digits.toDigits_ne_zero_cons hpos _ hcs

end Json

namespace Number

def reread? (n : Number) : Option Number :=
  match Json.ofNumber n with
  | .number m => m.toNumber?
  | _ => none

def isShort : Number → Bool
  | finite negative rank => decide (Json.Numeral.ofFinite negative rank).IsShort
  | _ => false

/-- Finite numbers of the same sign that have at most seven others between them. -/
inductive Near : Number → Number → Prop
  | finite {negative : Bool} {r s : Fin finiteCount} (hs : s.val ≤ r + 8) (hr : r.val ≤ s + 8) :
    Near (.finite negative r) (.finite negative s)

theorem reread?_of_isShort {n : Number} (h : n.isShort) : n.reread? = some n := by
  cases n with
  | nan => cases h
  | infinity negative => cases h
  | finite negative rank =>
    exact Json.Numeral.toNumber?_ofFinite_of_isShort rank.isLt (of_decide_eq_true h)

theorem near_of_reread? {n m : Number} (h : n.reread? = some m) : n.Near m := by
  cases n with
  | nan => cases h
  | infinity negative => cases h
  | finite negative rank =>
    obtain ⟨s, hread, hs, hr⟩ := Json.Numeral.toNumber?_ofFinite negative rank.isLt
    have hm : some (Number.finite negative s) = some m := hread.symm.trans h
    injection hm with hm
    subst hm
    exact .finite hs hr

theorem isSome_reread? (n : Number) : n.reread?.isSome ↔ n.isFinite := by
  cases n with
  | nan => exact Iff.rfl
  | infinity negative => exact Iff.rfl
  | finite negative rank =>
    obtain ⟨s, hread, -⟩ := Json.Numeral.toNumber?_ofFinite negative rank.isLt
    have hread' : reread? (.finite negative rank) = some (.finite negative s) := hread
    rw [hread']
    exact Iff.rfl

end Number

namespace Span

def FitsWords (s : Span) : Prop := s.start < 2 ^ 64 ∧ s.stop < 2 ^ 64

instance (s : Span) : Decidable s.FitsWords := inferInstanceAs (Decidable (_ ∧ _))

theorem ofJson?_toJson {s : Span} (h : s.FitsWords) : ofJson? s.toJson = some s := by
  have hread : ∀ n < 2 ^ 64, (Json.Numeral.ofNat n).toNat? = some n := by
    intro n hn
    simp only [Json.Numeral.toNat?, Json.Numeral.ofNat, Decimal.digitsValue_toDigits, Nat.pow_eq]
    simpa using hn
  rw [ofJson?, toJson, Json.fields?_record_pair (by decide)]
  simp only [Json.ofNat, hread _ h.1, hread _ h.2]
  rfl

end Span

namespace Literal

theorem ofJson?_toJson_number (n : Number) :
    ofJson? (toJson (.number n)) = n.reread?.map .number := by
  cases n <;> rfl

theorem ofJson?_toJson_string (s : String) : ofJson? (toJson (.string s)) = some (.string s) := rfl

theorem nesting_toJson (value : Literal) : value.toJson.nesting = 1 := by
  cases value with
  | number n =>
    cases n <;> simp [toJson, Json.record, Json.ofNumber, Json.nesting, Json.nestingFields]
  | string s => simp [toJson, Json.record, Json.text, Json.nesting, Json.nestingFields]

theorem wellFormed_toJson (value : Literal) : value.toJson.WellFormed := by
  cases value with
  | number n => exact Json.wellFormed_record (by simpa using Json.wellFormed_ofNumber n)
  | string s => exact Json.wellFormed_record (by simpa using .string s)

end Literal

namespace Expr

def number? : Expr → Option Number
  | literal _ (.number n) => some n
  | _ => none

def numbers (e : Expr) : List Number := (e.preorder 0).filterMap (·.2.number?)

mutual

def mapNumbers? (f : Number → Option Number) : Expr → Option Expr
  | literal span (.number n) => (f n).map fun m => .literal span (.number m)
  | e@(literal _ (.string _)) | e@(lookup _ _) | e@(reference _ _) => some e
  | invocation span callee args => do
    return .invocation span (← mapNumbers? f callee) (← mapNumbersAll? f args)
  | block span items => (mapNumbersAll? f items).map (.block span)

def mapNumbersAll? (f : Number → Option Number) : List Expr → Option (List Expr)
  | [] => some []
  | e :: es => do return (← mapNumbers? f e) :: (← mapNumbersAll? f es)

end

variable {f : Number → Option Number}

mutual

theorem mapNumbers?_eq_self {e : Expr} (depth : Nat) :
    mapNumbers? f e = some e ↔ ∀ x ∈ preorder depth e, ∀ n ∈ x.2.number?, f n = some n := by
  cases e with
  | literal span value => cases value <;> simp [mapNumbers?, preorder, number?]
  | lookup span name => simp [mapNumbers?, preorder, number?]
  | reference span name => simp [mapNumbers?, preorder, number?]
  | invocation span callee args =>
    have hcallee := @mapNumbers?_eq_self callee (depth + 1)
    have hargs := @mapNumbersAll?_eq_self args (depth + 1)
    rw [mapNumbers?, preorder, List.cons_append, List.forall_mem_cons, List.forall_mem_append,
      ← hcallee, ← hargs]
    simp [number?, Option.bind_eq_some_iff]
  | block span items =>
    have hitems := @mapNumbersAll?_eq_self items (depth + 1)
    rw [mapNumbers?, preorder, List.forall_mem_cons, ← hitems]
    simp [number?]
termination_by sizeOf e

theorem mapNumbersAll?_eq_self {es : List Expr} (depth : Nat) :
    mapNumbersAll? f es = some es ↔
      ∀ x ∈ preorderAll depth es, ∀ n ∈ x.2.number?, f n = some n := by
  cases es with
  | nil => simp [mapNumbersAll?, preorderAll]
  | cons e es =>
    have he := @mapNumbers?_eq_self e depth
    have hes := @mapNumbersAll?_eq_self es depth
    rw [mapNumbersAll?, preorderAll, List.forall_mem_append, ← he, ← hes]
    simp [Option.bind_eq_some_iff]
termination_by sizeOf es

end

theorem isSome_both {α β γ : Type} (g : α → β → γ) (x : Option α) (y : Option β) :
    (do return g (← x) (← y) : Option γ).isSome ↔ x.isSome ∧ y.isSome := by
  cases x <;> cases y <;> simp

mutual

theorem isSome_mapNumbers? (e : Expr) (depth : Nat) :
    (mapNumbers? f e).isSome ↔ ∀ x ∈ preorder depth e, ∀ n ∈ x.2.number?, (f n).isSome := by
  cases e with
  | literal span value => cases value <;> simp [mapNumbers?, preorder, number?]
  | lookup span name => simp [mapNumbers?, preorder, number?]
  | reference span name => simp [mapNumbers?, preorder, number?]
  | invocation span callee args =>
    have hcallee := isSome_mapNumbers? callee (depth + 1)
    have hargs := isSome_mapNumbersAll? args (depth + 1)
    rw [mapNumbers?, isSome_both, hcallee, hargs, preorder, List.cons_append, List.forall_mem_cons,
      List.forall_mem_append]
    simp [number?]
  | block span items =>
    have hitems := isSome_mapNumbersAll? items (depth + 1)
    rw [mapNumbers?, Option.isSome_map, hitems, preorder, List.forall_mem_cons]
    simp [number?]
termination_by sizeOf e

theorem isSome_mapNumbersAll? (es : List Expr) (depth : Nat) :
    (mapNumbersAll? f es).isSome ↔ ∀ x ∈ preorderAll depth es, ∀ n ∈ x.2.number?, (f n).isSome := by
  cases es with
  | nil => simp [mapNumbersAll?, preorderAll]
  | cons e es =>
    have he := isSome_mapNumbers? e depth
    have hes := isSome_mapNumbersAll? es depth
    rw [mapNumbersAll?, isSome_both, he, hes, preorderAll, List.forall_mem_append]
termination_by sizeOf es

end

section Nodes

variable {span : Span} (h : span.FitsWords)

include h

theorem ofJsonWithin?_lookup (n : Nat) (name : String) :
    ofJsonWithin? (n + 2) (toJson (.lookup span name)) = some (.lookup span name) := by
  rw [toJson, ofJsonWithin?, nodeJson, Json.fields?_record_pair (by decide)]
  simp only [Json.record, List.map_cons, List.map_nil, Span.ofJson?_toJson h]
  rfl

theorem ofJsonWithin?_reference (n : Nat) (name : String) :
    ofJsonWithin? (n + 2) (toJson (.reference span name)) = some (.reference span name) := by
  rw [toJson, ofJsonWithin?, nodeJson, Json.fields?_record_pair (by decide)]
  simp only [Json.record, List.map_cons, List.map_nil, Span.ofJson?_toJson h]
  rfl

theorem ofJsonWithin?_literal (n : Nat) (value : Literal) :
    ofJsonWithin? (n + 3) (toJson (.literal span value)) =
      (Literal.ofJson? value.toJson).map (.literal span) := by
  rw [toJson, ofJsonWithin?, nodeJson, Json.fields?_record_pair (by decide)]
  simp only [Json.record, List.map_cons, List.map_nil, Span.ofJson?_toJson h]
  rfl

theorem ofJsonWithin?_block (n : Nat) (items : List Expr) :
    ofJsonWithin? (n + 3) (toJson (.block span items)) =
      ((toJsonAll items).mapM (ofJsonWithin? n)).map (.block span) := by
  rw [toJson, ofJsonWithin?, nodeJson, Json.fields?_record_pair (by decide)]
  simp only [Json.record, List.map_cons, List.map_nil, Span.ofJson?_toJson h]
  rfl

theorem ofJsonWithin?_invocation (n : Nat) (callee : Expr) (args : List Expr) :
    ofJsonWithin? (n + 4) (toJson (.invocation span callee args)) = do
      return .invocation span (← ofJsonWithin? (n + 1) callee.toJson)
        (← (toJsonAll args).mapM (ofJsonWithin? n)) := by
  have hfields := Json.fields?_record_pair (show "callee" ≠ "args" by decide) callee.toJson
    (.array (toJsonAll args))
  rw [toJson]
  generalize Json.record [("callee", callee.toJson), ("args", .array (toJsonAll args))] = content
    at hfields ⊢
  rw [ofJsonWithin?, nodeJson, Json.fields?_record_pair (by decide)]
  simp only [Json.record, List.map_cons, List.map_nil, Span.ofJson?_toJson h, Option.bind_eq_bind,
    Option.bind_some, hfields]

end Nodes

theorem nesting_nodeJson (kind : String) (content : Json) (span : Span) :
    (nodeJson kind content span).nesting = content.nesting + 2 := by
  have hspan : span.toJson.nesting = 1 := by
    simp [Span.toJson, Json.record, Json.ofNat, Json.nesting, Json.nestingFields]
  simp only [nodeJson, Json.record, List.map_cons, List.map_nil, Json.nesting, Json.nestingFields,
    hspan]
  omega

mutual

theorem ofJsonWithin?_toJson {e : Expr} {limit depth : Nat}
    (hspans : ∀ x ∈ preorder depth e, x.2.span.FitsWords) (hnesting : e.toJson.nesting ≤ limit) :
    ofJsonWithin? limit e.toJson = e.mapNumbers? Number.reread? := by
  cases e with
  | literal span value =>
    have hspan : span.FitsWords := hspans (depth, .literal span value) (by simp [preorder])
    have hvalue := value.nesting_toJson
    rw [toJson, nesting_nodeJson, hvalue] at hnesting
    obtain ⟨k, rfl⟩ := Nat.exists_eq_add_of_le' hnesting
    rw [ofJsonWithin?_literal hspan]
    cases value with
    | number n =>
      rw [Literal.ofJson?_toJson_number, mapNumbers?, Option.map_map]
      rfl
    | string s =>
      rw [Literal.ofJson?_toJson_string, mapNumbers?]
      rfl
  | lookup span name =>
    have hspan : span.FitsWords := hspans (depth, .lookup span name) (by simp [preorder])
    rw [toJson, nesting_nodeJson] at hnesting
    obtain ⟨k, rfl⟩ := Nat.exists_eq_add_of_le' (Nat.le_of_add_left_le hnesting)
    rw [ofJsonWithin?_lookup hspan, mapNumbers?]
  | reference span name =>
    have hspan : span.FitsWords := hspans (depth, .reference span name) (by simp [preorder])
    rw [toJson, nesting_nodeJson] at hnesting
    obtain ⟨k, rfl⟩ := Nat.exists_eq_add_of_le' (Nat.le_of_add_left_le hnesting)
    rw [ofJsonWithin?_reference hspan, mapNumbers?]
  | invocation span callee args =>
    have hspan : span.FitsWords := hspans (depth, .invocation span callee args) (by simp [preorder])
    rw [toJson, nesting_nodeJson] at hnesting
    simp only [Json.record, List.map_cons, List.map_nil, Json.nesting, Json.nestingFields]
      at hnesting
    -- the callee lies inside three objects, and the arguments in an array besides
    obtain ⟨k, rfl⟩ : ∃ k, limit = k + 4 := ⟨limit - 4, by omega⟩
    have hcallee := @ofJsonWithin?_toJson callee (k + 1) (depth + 1)
      (fun x hx => hspans x (by simp [preorder, hx])) (by omega)
    have hargs := @mapM_ofJsonWithin?_toJsonAll args k (depth + 1)
      (fun x hx => hspans x (by simp [preorder, hx])) (by omega)
    rw [ofJsonWithin?_invocation hspan, hcallee, hargs, mapNumbers?]
  | block span items =>
    have hspan : span.FitsWords := hspans (depth, .block span items) (by simp [preorder])
    rw [toJson, nesting_nodeJson, Json.nesting] at hnesting
    obtain ⟨k, rfl⟩ : ∃ k, limit = k + 3 := ⟨limit - 3, by omega⟩
    have hitems := @mapM_ofJsonWithin?_toJsonAll items k (depth + 1)
      (fun x hx => hspans x (by simp [preorder, hx])) (by omega)
    rw [ofJsonWithin?_block hspan, hitems, mapNumbers?]
termination_by sizeOf e

theorem mapM_ofJsonWithin?_toJsonAll {es : List Expr} {limit depth : Nat}
    (hspans : ∀ x ∈ preorderAll depth es, x.2.span.FitsWords)
    (hnesting : Json.nestingItems (toJsonAll es) ≤ limit) :
    (toJsonAll es).mapM (ofJsonWithin? limit) = mapNumbersAll? Number.reread? es := by
  cases es with
  | nil => rw [toJsonAll, mapNumbersAll?, List.mapM_nil]; rfl
  | cons e es =>
    rw [toJsonAll, Json.nestingItems] at hnesting
    have he := @ofJsonWithin?_toJson e limit depth
      (fun x hx => hspans x (by simp [preorderAll, hx])) (by omega)
    have hes := @mapM_ofJsonWithin?_toJsonAll es limit depth
      (fun x hx => hspans x (by simp [preorderAll, hx])) (by omega)
    rw [toJsonAll, List.mapM_cons, he, hes, mapNumbersAll?]
termination_by sizeOf es

end

theorem wellFormed_nodeJson {kind : String} {content : Json} {span : Span}
    (h : content.WellFormed) : (nodeJson kind content span).WellFormed := by
  have hspan : span.toJson.WellFormed := Json.wellFormed_record
    (by simpa using ⟨Json.wellFormed_ofNat span.start, Json.wellFormed_ofNat span.stop⟩)
  have hkind : (Json.record [(kind, content)]).WellFormed :=
    Json.wellFormed_record (by simpa using h)
  exact Json.wellFormed_record (by simpa using ⟨hkind, hspan⟩)

mutual

theorem wellFormed_toJson (e : Expr) : e.toJson.WellFormed := by
  cases e with
  | literal span value =>
    rw [toJson]
    exact wellFormed_nodeJson value.wellFormed_toJson
  | lookup span name =>
    rw [toJson]
    exact wellFormed_nodeJson (.string name)
  | reference span name =>
    rw [toJson]
    exact wellFormed_nodeJson (.string name)
  | invocation span callee args =>
    rw [toJson]
    have hcallee := wellFormed_toJson callee
    have hargs : (Json.array (toJsonAll args)).WellFormed := .array (wellFormed_toJsonAll args)
    exact wellFormed_nodeJson (Json.wellFormed_record (by simpa using ⟨hcallee, hargs⟩))
  | block span items =>
    rw [toJson]
    exact wellFormed_nodeJson (.array (wellFormed_toJsonAll items))
termination_by sizeOf e

theorem wellFormed_toJsonAll (es : List Expr) : ∀ j ∈ toJsonAll es, j.WellFormed := by
  cases es with
  | nil => simp [toJsonAll]
  | cons e es =>
    rw [toJsonAll, List.forall_mem_cons]
    exact ⟨wellFormed_toJson e, wellFormed_toJsonAll es⟩
termination_by sizeOf es

end

theorem forall_numbers {e : Expr} {p : Number → Prop} :
    (∀ n ∈ e.numbers, p n) ↔ ∀ x ∈ preorder 0 e, ∀ n ∈ x.2.number?, p n := by
  simp only [numbers, List.mem_filterMap]
  constructor
  · intro h x hx n hn
    exact h n ⟨x, hx, hn⟩
  · rintro h n ⟨x, hx, hn⟩
    exact h x hx n hn

theorem ofJson?_of_text {e : Expr} {text : String}
    (hspans : ∀ x ∈ e.preorder 0, x.2.span.FitsWords) (hnesting : e.toJson.nesting < 128)
    (htext : text = e.toJson.compact ∨ text = e.toJson.pretty) :
    (Json.ofText? text).bind ofJson? = e.mapNumbers? Number.reread? := by
  have hread : Json.ofText? text = some e.toJson := by
    rcases htext with rfl | rfl
    · exact Json.ofText?_write e.wellFormed_toJson .compact
    · exact Json.ofText?_write e.wellFormed_toJson (.pretty 0)
  rw [hread, Option.bind_some]
  exact ofJsonWithin?_toJson hspans (Nat.lt_succ_iff.1 hnesting)

/-- A tree is read back from its text, compact or pretty, with its spans, its names and its strings,
unless one of its numbers is not finite. Its numbers come back near what they were, and short ones
as they were. -/
theorem ofJson?_written {e : Expr} {text : String}
    (hspans : ∀ x ∈ e.preorder 0, x.2.span.FitsWords) (hnesting : e.toJson.nesting < 128)
    (htext : text = e.toJson.compact ∨ text = e.toJson.pretty) :
    (Json.ofText? text).bind ofJson? = e.mapNumbers? Number.reread? ∧
    (((Json.ofText? text).bind ofJson?).isSome ↔ ∀ n ∈ e.numbers, n.isFinite) ∧
    ((Json.ofText? text).bind ofJson? = some e ↔ ∀ n ∈ e.numbers, n.reread? = some n) ∧
    (∀ n m : Number, n.reread? = some m → n.Near m) ∧
    ∀ n : Number, n.isShort → n.reread? = some n := by
  rw [ofJson?_of_text hspans hnesting htext, isSome_mapNumbers? e 0, mapNumbers?_eq_self 0,
    forall_numbers, forall_numbers]
  refine ⟨rfl, ?_, Iff.rfl, fun _ _ => Number.near_of_reread?, fun _ => Number.reread?_of_isShort⟩
  simp only [Number.isSome_reread?]

theorem ofJson?_written_call : ∃ e : Expr, e.numbers = [.ofNat 3] ∧
    (∀ x ∈ e.preorder 0, x.2.span.FitsWords) ∧ e.toJson.nesting < 128 ∧
    (Json.ofText? e.toJson.pretty).bind ofJson? = some e := by
  let e : Expr := .block ⟨0, 14⟩ [.invocation ⟨0, 11⟩ (.reference ⟨0, 2⟩ "f")
    [.literal ⟨3, 4⟩ (.number (.ofNat 3)), .literal ⟨6, 10⟩ (.string "é\n\x01\"")],
    .block ⟨12, 14⟩ []]
  have hnumbers : e.numbers = [.ofNat 3] := by decide +kernel
  have hspans : ∀ x ∈ e.preorder 0, x.2.span.FitsWords := by decide +kernel
  have hnesting : e.toJson.nesting < 128 := by decide +kernel
  have hshort : (Number.ofNat 3).isShort := by decide +kernel
  obtain ⟨-, -, hiff, -, hreread⟩ := ofJson?_written hspans hnesting (.inr rfl)
  refine ⟨e, hnumbers, hspans, hnesting, hiff.2 ?_⟩
  rw [hnumbers]
  exact List.forall_mem_singleton.2 (hreread _ hshort)

/-- The largest number below 2^53 is not read back: it is written with a zero behind the point, and
ten times as much takes more than 53 bits. -/
theorem ofJson?_written_misread :
    (Json.ofText? (toJson (.literal ⟨0, 16⟩ (.number (.ofNat 9007199254740991)))).compact).bind
        ofJson? =
      some (.literal ⟨0, 16⟩ (.number (.ofNat 9007199254740990))) ∧
    (Number.ofNat 9007199254740991).isFinite ∧
    Number.ofNat 9007199254740991 ≠ Number.ofNat 9007199254740990 := by
  have hrank : Number.nearestRank 9007199254740991 1 < Number.finiteCount := by decide +kernel
  have hfinite : Number.ofNat 9007199254740991 = .finite false ⟨_, hrank⟩ :=
    Json.Numeral.ofRank_of_lt false hrank
  have hwritten : Json.Numeral.ofFinite false (Number.nearestRank 9007199254740991 1) =
      ⟨false, "9007199254740991".toList, ['0'], none⟩ := by decide +kernel
  have hquot : Number.divRank (Number.nearestRank 90071992547409910 1) (Json.Numeral.powerRank 1) =
      Number.nearestRank 9007199254740990 1 := by decide +kernel
  have hscaled : Json.Numeral.scaled (Number.nearestRank 90071992547409910 1) (-1) =
      some (Number.nearestRank 9007199254740990 1) := by
    rw [← hquot]
    exact Json.Numeral.scaled_div (by decide +kernel) (by decide) (by decide)
  have hread : Json.Numeral.toNumber? ⟨false, "9007199254740991".toList, ['0'], none⟩ =
      some (.ofNat 9007199254740990) :=
    congrArg (Option.map (Number.ofRank false)) hscaled
  refine ⟨?_, by decide +kernel, by decide +kernel⟩
  rw [ofJson?_of_text (by decide +kernel) (by decide +kernel) (.inl rfl), mapNumbers?, hfinite,
    Number.reread?]
  simp only [Json.ofNumber, hwritten, hread]
  rfl

end Expr

end Fexpr
