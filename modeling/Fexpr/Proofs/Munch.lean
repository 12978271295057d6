import Fexpr.Proofs.LineBreaks
import Fexpr.Proofs.Patterns

/-!
# What is measured at the front of a text

The length of a lexeme is found by looking at one character after the other. Here it is compared
with the patterns: what is taken matches a pattern of its class, and no other match goes on further.
-/

namespace Fexpr

namespace Text

theorem le_run_append {p : Char → Bool} {cs : List Char} (h : ∀ c ∈ cs, p c = true)
    (rest : List Char) : cs.length ≤ run p (cs ++ rest) := by
  induction cs with
  | nil => exact Nat.zero_le _
  | cons c cs ih =>
    have hc : p c = true := h c List.mem_cons_self
    have hcs := ih fun d hd => h d (List.mem_cons_of_mem c hd)
    simp only [run, List.cons_append, List.takeWhile_cons, hc, if_true, List.length_cons] at hcs ⊢
    omega

theorem run_append_of_all {p : Char → Bool} {cs rest : List Char} (h : cs.all p)
    (hrest : ∀ c ∈ rest.head?, ¬ p c) : run p (cs ++ rest) = cs.length := by
  rw [run, (takeWhile_append_of_all h hrest).1]

end Text

namespace Lexeme

open Computability Pattern Text

theorem le_exponentLength {cs : List Char} (h : Numeral.IsExponent cs) (rest : List Char) :
    cs.length ≤ exponentLength (cs ++ rest) := by
  cases h with
  | absent => exact Nat.zero_le _
  | @marked mark sign ds hm hs hds =>
    obtain ⟨hne, hall⟩ := hds
    have hdigits : ds.length ≤ run Char.isDigit (ds ++ rest) :=
      le_run_append (List.all_eq_true.mp hall) rest
    have hpos : 0 < ds.length := List.length_pos_iff.mpr hne
    have hsign : signLength (sign ++ ds ++ rest) = sign.length := by
      rcases hs with rfl | rfl | rfl
      · obtain ⟨d, ds, rfl⟩ := List.exists_cons_of_ne_nil hne
        have hd : d.isDigit := (List.all_eq_true.mp hall) d List.mem_cons_self
        rw [List.nil_append, List.cons_append, signLength, if_neg]
        · rfl
        · rintro (rfl | rfl) <;> exact absurd hd (by decide)
      · rfl
      · rfl
    rw [List.cons_append, exponentLength, if_pos hm, hsign, List.append_assoc, List.drop_left]
    simp only [List.length_cons, List.length_append]
    rw [if_neg (by omega)]
    omega

theorem le_fraction_exponentLength {fraction exponent : List Char}
    (hf : Numeral.IsFraction fraction) (he : Numeral.IsExponent exponent) (rest : List Char) :
    let cs := fraction ++ exponent ++ rest
    fraction.length + exponent.length ≤
      fractionLength cs + exponentLength (cs.drop (fractionLength cs)) := by
  intro cs
  cases hf with
  | absent =>
    have hcs : cs = exponent ++ rest := rfl
    cases he with
    | absent => exact Nat.zero_le _
    | @marked mark sign ds hm hs hds =>
      have hzero : fractionLength cs = 0 := by
        rw [hcs, List.cons_append, fractionLength]
        intro w heq
        obtain ⟨rfl, -⟩ := List.cons.inj heq
        rcases hm with h | h <;> exact absurd h (by decide)
      have hle := le_exponentLength (.marked hm hs hds) rest
      rw [hzero, List.drop_zero, hcs]
      simpa using hle
  | @point ds hds =>
    obtain ⟨hne, hall⟩ := hds
    have hpos : 0 < ds.length := List.length_pos_iff.mpr hne
    have hle := le_run_append (List.all_eq_true.mp hall) (exponent ++ rest)
    have hlength : fractionLength cs = 1 + run Char.isDigit (ds ++ (exponent ++ rest)) := by
      change fractionLength ('.' :: (ds ++ exponent ++ rest)) = _
      rw [fractionLength, List.append_assoc, if_neg (by omega)]
    cases he with
    | absent =>
      simp only [List.nil_append, List.length_nil, List.length_cons] at hle hlength ⊢
      omega
    | @marked mark sign es hm hs hes =>
      -- the digits end at the mark, so the exponent is measured from there
      have hexponent : Numeral.IsExponent (mark :: (sign ++ es)) := .marked hm hs hes
      have hrun : run Char.isDigit (ds ++ (mark :: (sign ++ es) ++ rest)) = ds.length := by
        refine run_append_of_all hall ?_
        intro c hc
        obtain rfl : mark = c := by simpa using hc
        rcases hm with rfl | rfl <;> decide
      have hdrop : cs.drop (1 + ds.length) = mark :: (sign ++ es) ++ rest := by
        change ('.' :: (ds ++ (mark :: (sign ++ es)) ++ rest)).drop (1 + ds.length) = _
        rw [Nat.add_comm, List.drop_succ_cons, List.append_assoc, List.drop_left]
      have hle := le_exponentLength hexponent rest
      rw [hlength, hrun, hdrop]
      simp only [List.length_cons] at hle ⊢
      omega

theorem le_numberLength {c : Char} {w : List Char} (h : Numeral.IsUnsigned (c :: w))
    (rest : List Char) : c.isDigit ∧ w.length ≤ numberLength (w ++ rest) := by
  generalize hcs : c :: w = cs at h
  cases h with
  | @parts whole fraction exponent hw hf he =>
    obtain ⟨hne, hall⟩ := hw
    obtain ⟨d, ds, rfl⟩ := List.exists_cons_of_ne_nil hne
    obtain ⟨rfl, rfl⟩ := List.cons.inj hcs
    rw [List.all_cons, Bool.and_eq_true] at hall
    refine ⟨hall.1, ?_⟩
    have hle := le_run_append (List.all_eq_true.mp hall.2) (fraction ++ exponent ++ rest)
    have hassoc : ds ++ (fraction ++ exponent) ++ rest = ds ++ (fraction ++ exponent ++ rest) :=
      List.append_assoc _ _ _
    simp only [numberLength, hassoc, List.append_eq]
    -- without a fraction and an exponent, the digits may go on in the rest
    by_cases hempty : fraction ++ exponent = []
    · rw [hempty, List.append_nil]
      rw [hempty] at hle
      omega
    · have hrun : run Char.isDigit (ds ++ (fraction ++ exponent ++ rest)) = ds.length := by
        refine run_append_of_all hall.2 ?_
        intro x hx
        rw [List.head?_append_of_ne_nil _ hempty] at hx
        exact hf.head he x hx
      have hrest := le_fraction_exponentLength hf he rest
      simp only at hrest
      rw [hrun, List.drop_left, List.drop_append, List.length_append, List.length_append]
      simp only [Nat.add_sub_cancel_left, List.drop_eq_nil_of_le (Nat.le_add_right _ _),
        List.nil_append]
      omega

theorem stringLength_append_of_mem {quote : Char} {w : List Char} (h : w ∈ body quote)
    (rest : List Char) : stringLength quote (w ++ rest) =
      ((stringLength quote rest).1, (stringLength quote rest).2 + w.length) := by
  refine kstar_induction (motive := fun w => stringLength quote (w ++ rest) =
    ((stringLength quote rest).1, (stringLength quote rest).2 + w.length)) rfl ?_ h
  intro u hu v _ ih
  rcases (Language.mem_add _ _ _).mp hu with ⟨c, ⟨hquote, hslash⟩, rfl⟩ | hu
  · rw [List.append_assoc, List.singleton_append, stringLength_cons hslash, if_neg hquote, ih,
      List.length_append, List.length_singleton]
    simp only [Prod.mk.injEq, true_and]
    omega
  · obtain ⟨b, _, rfl, ⟨c, hc, rfl⟩, rfl⟩ := mem_one_mul.mp hu
    simp only [List.cons_append, List.nil_append, stringLength, if_neg hc, ih, List.length_cons,
      Prod.mk.injEq, true_and]
    omega

theorem cons_mem_body {quote c : Char} {w : List Char} (hquote : c ≠ quote) (hslash : c ≠ '\\')
    (h : w ∈ body quote) : c :: w ∈ body quote := by
  have hc : [c] ∈ one (fun c => c ≠ quote ∧ c ≠ '\\') := singleton_mem_one.mpr ⟨hquote, hslash⟩
  exact append_mem_kstar ((Language.mem_add _ _ _).mpr (.inl hc)) h

theorem escape_mem_body {quote c : Char} {w : List Char} (hc : c ≠ '\n') (h : w ∈ body quote) :
    '\\' :: c :: w ∈ body quote := by
  have hpair : ['\\', c] ∈ one (· = '\\') * one (· ≠ '\n') :=
    cons_mem_one_mul.mpr ⟨rfl, singleton_mem_one.mpr hc⟩
  exact append_mem_kstar ((Language.mem_add _ _ _).mpr (.inr hpair)) h

def IsStringEnd (quote : Char) (closed : Bool) (tail : List Char) : Prop :=
  if closed then tail = [quote] else tail = [] ∨ tail = ['\\']

theorem take_stringLength (quote : Char) (cs : List Char) :
    ∃ w ∈ body quote, ∃ tail, IsStringEnd quote (stringLength quote cs).1 tail ∧
      cs.take (stringLength quote cs).2 = w ++ tail := by
  have hnil : [] ∈ body quote := Language.nil_mem_kstar _
  fun_induction stringLength quote cs with
  | case1 => exact ⟨[], hnil, [], .inl rfl, rfl⟩
  | case2 => exact ⟨[], hnil, ['\\'], .inr rfl, rfl⟩
  | case3 cs => exact ⟨[], hnil, ['\\'], .inr rfl, rfl⟩
  | case4 c cs hc closed n hs ih =>
    obtain ⟨w, hw, tail, htail, htake⟩ := ih
    rw [hs] at htail htake
    refine ⟨'\\' :: c :: w, escape_mem_body hc hw, tail, htail, ?_⟩
    rw [List.take_succ_cons, List.take_succ_cons, htake]
    rfl
  | case5 cs => exact ⟨[], hnil, [quote], rfl, rfl⟩
  | case6 c cs h₁ h₂ hc closed n hs ih =>
    obtain ⟨w, hw, tail, htail, htake⟩ := ih
    rw [hs] at htail htake
    refine ⟨c :: w, cons_mem_body hc (ne_backslash h₁ h₂) hw, tail, htail, ?_⟩
    rw [List.take_succ_cons, htake]
    rfl

theorem stringLength_of_closed {quote : Char} (hslash : quote ≠ '\\') {w : List Char}
    (h : w ∈ body quote) (rest : List Char) :
    stringLength quote (w ++ [quote] ++ rest) = (true, w.length + 1) := by
  rw [List.append_assoc, stringLength_append_of_mem h, List.singleton_append,
    stringLength_cons hslash, if_pos rfl, Nat.add_comm]

theorem le_stringLength {quote : Char} {w tail : List Char} (h : w ∈ body quote)
    (htail : tail = [] ∨ tail = ['\\']) (rest : List Char) :
    (w ++ tail).length ≤ (stringLength quote (w ++ tail ++ rest)).2 ∧
      ((w ++ tail).length = (stringLength quote (w ++ tail ++ rest)).2 →
        (stringLength quote (w ++ tail ++ rest)).1 = false) := by
  have hmore : tail.length ≤ (stringLength quote (tail ++ rest)).2 ∧
      (tail.length = (stringLength quote (tail ++ rest)).2 →
        (stringLength quote (tail ++ rest)).1 = false) := by
    rcases htail with rfl | rfl
    · refine ⟨Nat.zero_le _, ?_⟩
      rw [List.nil_append]
      fun_cases stringLength quote rest <;> simp_all
    · rw [List.singleton_append]
      cases rest with
      | nil => simp [stringLength]
      | cons c rest =>
        rw [stringLength]
        split <;> simp
  rw [List.append_assoc, stringLength_append_of_mem h, List.length_append]
  simp only
  constructor
  · omega
  · intro heq
    exact hmore.2 (by omega)

theorem commentLength?_cons {c : Char} (hc : c ≠ '*') (cs : List Char) :
    commentLength? (c :: cs) = (commentLength? cs).map (· + 1) := by
  rw [commentLength?]
  rintro cs' rfl
  exact absurd rfl hc

theorem commentLength?_star {d : Char} (hd : d ≠ '/') (cs : List Char) :
    commentLength? ('*' :: d :: cs) = (commentLength? (d :: cs)).map (· + 1) := by
  rw [commentLength?]
  rintro cs' - heq
  exact absurd (List.cons.inj heq).1 hd

theorem commentLength?_stars {stars : List Char} (h : ∀ c ∈ stars, c = '*') {d : Char}
    (hd : d ≠ '/') (rest : List Char) :
    commentLength? (stars ++ d :: rest) =
      (commentLength? (d :: rest)).map (· + stars.length) := by
  induction stars with
  | nil => simp
  | cons c stars ih =>
    obtain rfl : c = '*' := h c List.mem_cons_self
    have hstars : ∀ c ∈ stars, c = '*' := fun c hc => h c (List.mem_cons_of_mem _ hc)
    have hstep : commentLength? ('*' :: (stars ++ d :: rest)) =
        (commentLength? (stars ++ d :: rest)).map (· + 1) := by
      cases stars with
      | nil => exact commentLength?_star hd rest
      | cons c' stars =>
        obtain rfl : c' = '*' := hstars c' List.mem_cons_self
        exact commentLength?_star (by decide) _
    rw [List.cons_append, hstep, ih hstars, Option.map_map]
    rfl

theorem commentLength?_of_mem {w : List Char} (h : w ∈ commentRest) (rest : List Char) :
    commentLength? (w ++ rest) = some w.length := by
  obtain ⟨u, hu, v, hv, rfl⟩ := Language.mem_mul.mp h
  obtain ⟨stars, hstars, _, ⟨c, rfl, rfl⟩, rfl⟩ := Language.mem_mul.mp hv
  obtain ⟨hne, hstars⟩ := mem_many_one.mp hstars
  have hend : commentLength? (stars ++ '/' :: rest) = some (stars.length + 1) := by
    obtain ⟨init, last, rfl⟩ := List.eq_nil_or_concat stars |>.resolve_left hne
    have hinit : ∀ c ∈ init, c = '*' := fun c hc => hstars c (by simp [hc])
    obtain rfl : last = '*' := hstars last (by simp)
    rw [List.concat_eq_append, List.append_assoc, List.singleton_append,
      commentLength?_stars hinit (by decide), List.length_append, List.length_singleton,
      commentLength?, Option.map_some]
    congr 1
    omega
  have hpass : commentLength? (u ++ (stars ++ '/' :: rest)) =
      some (stars.length + 1 + u.length) := by
    refine kstar_induction (motive := fun u => commentLength? (u ++ (stars ++ '/' :: rest)) =
      some (stars.length + 1 + u.length)) hend ?_ hu
    intro x hx y _ ih
    rw [List.append_assoc, List.length_append]
    rcases (Language.mem_add _ _ _).mp hx with ⟨c, hc, rfl⟩ | hx
    · rw [List.singleton_append, commentLength?_cons hc, ih, Option.map_some,
        List.length_singleton]
      congr 1
      omega
    · obtain ⟨front, hfront, _, ⟨d, ⟨hstar, hslash⟩, rfl⟩, rfl⟩ := Language.mem_mul.mp hx
      rw [List.append_assoc, List.singleton_append,
        commentLength?_stars (mem_many_one.mp hfront).2 hslash, commentLength?_cons hstar, ih,
        Option.map_some, Option.map_some, List.length_append, List.length_singleton]
      congr 1
      omega
  have hassoc : u ++ (stars ++ ['/']) ++ rest = u ++ (stars ++ '/' :: rest) := by simp
  rw [hassoc, hpass, List.length_append, List.length_append, List.length_singleton]
  congr 1
  omega

theorem cons_mem_commentRest {c : Char} {w : List Char} (hc : c ≠ '*') (h : w ∈ commentRest) :
    c :: w ∈ commentRest := by
  obtain ⟨u, hu, v, hv, rfl⟩ := Language.mem_mul.mp h
  have hone : [c] ∈ one (· ≠ '*') := singleton_mem_one.mpr hc
  exact Language.append_mem_mul (append_mem_kstar ((Language.mem_add _ _ _).mpr (.inl hone)) hu) hv

theorem star_mem_many : ['*'] ∈ many (one (· = '*')) := mem_many_one.mpr (by simp)

theorem cons_star_mem_many {stars : List Char} (h : stars ∈ many (one (· = '*'))) :
    '*' :: stars ∈ many (one (· = '*')) := by
  obtain ⟨-, hstars⟩ := mem_many_one.mp h
  exact mem_many_one.mpr ⟨List.cons_ne_nil _ _, by simpa using hstars⟩

/-- A star joins the stars after it, or the character after it unless that would end the comment. -/
theorem star_mem_commentRest {w : List Char} (hhead : ∀ c ∈ w.head?, c ≠ '/')
    (h : w ∈ commentRest) : '*' :: w ∈ commentRest := by
  obtain ⟨u, hu, v, hv, rfl⟩ := Language.mem_mul.mp h
  rw [← Language.one_add_self_mul_kstar_eq_kstar, Language.mem_add, Language.mem_one] at hu
  rcases hu with rfl | hu
  · obtain ⟨stars, hstars, t, ht, rfl⟩ := Language.mem_mul.mp hv
    have hend := Language.append_mem_mul (cons_star_mem_many hstars) ht
    exact Language.append_mem_mul (Language.nil_mem_kstar _) hend
  · obtain ⟨x, hx, y, hy, rfl⟩ := Language.mem_mul.mp hu
    have hunit : '*' :: x ∈ many (one (· = '*')) * one (fun c => c ≠ '*' ∧ c ≠ '/') := by
      rcases (Language.mem_add _ _ _).mp hx with ⟨c, hc, rfl⟩ | hx
      · have hlast : [c] ∈ one (fun c => c ≠ '*' ∧ c ≠ '/') :=
          singleton_mem_one.mpr ⟨hc, hhead c rfl⟩
        exact Language.append_mem_mul star_mem_many hlast
      · obtain ⟨stars, hstars, t, ht, rfl⟩ := Language.mem_mul.mp hx
        exact Language.append_mem_mul (cons_star_mem_many hstars) ht
    exact Language.append_mem_mul
      (append_mem_kstar ((Language.mem_add _ _ _).mpr (.inr hunit)) hy) hv

theorem take_commentLength? {cs : List Char} {n : Nat} (h : commentLength? cs = some n) :
    cs.take n ∈ commentRest := by
  fun_induction commentLength? cs generalizing n with
  | case1 cs =>
    cases h
    have hslash : ['/'] ∈ one (· = '/') := singleton_mem_one.mpr rfl
    have hend := Language.append_mem_mul star_mem_many hslash
    exact Language.append_mem_mul (Language.nil_mem_kstar _) hend
  | case2 c cs hne ih =>
    obtain ⟨m, hm, rfl⟩ := Option.map_eq_some_iff.mp h
    rw [List.take_succ_cons]
    by_cases hc : c = '*'
    · subst hc
      refine star_mem_commentRest ?_ (ih hm)
      rintro d hd rfl
      cases cs with
      | nil => cases hm
      | cons d' cs =>
        cases m with
        | zero => cases hd
        | succ m =>
          obtain rfl : d' = '/' := by simpa using hd
          exact hne cs rfl rfl
    · exact cons_mem_commentRest hc (ih hm)
  | case3 => cases h

theorem not_isNameStart_of_isSpace {c : Char} (h : isSpace c = true) : isNameStart c = false := by
  rcases List.mem_cons.mp (isSpace_iff.mp h) with rfl | h
  · rfl
  simp only [List.mem_cons, List.not_mem_nil, or_false] at h
  rcases h with rfl | rfl | rfl | rfl <;> rfl

theorem not_isDigit_of_isSpace {c : Char} (h : isSpace c = true) : c.isDigit = false := by
  rcases List.mem_cons.mp (isSpace_iff.mp h) with rfl | h
  · rfl
  simp only [List.mem_cons, List.not_mem_nil, or_false] at h
  rcases h with rfl | rfl | rfl | rfl <;> rfl

theorem not_isDigit_of_isNameStart {c : Char} (h : isNameStart c = true) : c.isDigit = false := by
  rw [Bool.eq_false_iff, ne_eq, isDigit_iff]
  rcases isNameStart_iff.mp h with h | h | rfl
  · simp only [Char.le_def, UInt32.le_iff_toNat_le] at h ⊢
    simp only [Char.reduceVal, UInt32.reduceToNat] at h ⊢
    omega
  · simp only [Char.le_def, UInt32.le_iff_toNat_le] at h ⊢
    simp only [Char.reduceVal, UInt32.reduceToNat] at h ⊢
    omega
  · decide

theorem munch_name {c : Char} (h : isNameStart c = true) (cs : List Char) :
    munch c cs = (.token .ident, run isNamePart cs) := by
  have hspace : ¬ isSpace c = true := fun hs => by simp [not_isNameStart_of_isSpace hs] at h
  unfold munch
  rw [if_neg hspace, if_pos h]

theorem munch_digit {c : Char} (h : c.isDigit = true) (cs : List Char) :
    munch c cs = (.token .number, numberLength cs) := by
  have hspace : ¬ isSpace c = true := fun hs => by simp [not_isDigit_of_isSpace hs] at h
  have hname : ¬ isNameStart c = true := fun hn => by simp [not_isDigit_of_isNameStart hn] at h
  unfold munch
  rw [if_neg hspace, if_neg hname, if_pos h]

theorem munch_minus {d : Char} (h : d.isDigit = true) (cs : List Char) :
    munch '-' (d :: cs) = (.token .number, 1 + numberLength cs) := by
  unfold munch
  simp only [h, if_true]
  rfl

theorem munch_quote {c : Char} (h : c = '"' ∨ c = '\'') (cs : List Char) :
    munch c cs = (if (stringLength c cs).1 then .token .string else .token .unterminated,
      (stringLength c cs).2) := by
  have hother : isSpace c = false ∧ isNameStart c = false ∧ c.isDigit = false ∧ c ≠ '-' := by
    rcases h with rfl | rfl <;> decide
  obtain ⟨hspace, hname, hdigit, hminus⟩ := hother
  unfold munch
  simp only [hspace, hname, hdigit, hminus, h, Bool.false_eq_true, if_false, if_true]
  rcases stringLength c cs with ⟨_ | _, n⟩ <;> rfl

theorem munch_line (cs : List Char) :
    munch '/' ('/' :: cs) = (.blank, 1 + run (· != '\n') cs) := rfl

theorem munch_comment {cs : List Char} {n : Nat} (h : commentLength? cs = some n) :
    munch '/' ('*' :: cs) = (.blank, 1 + n) := by
  unfold munch
  simp only [h]
  rfl

/-- A match of class `cls` with `n` characters after the first, beside a measured lexeme: it is not
longer, and as long only if the lexeme has its class. -/
structure Within (cls : Class) (n : Nat) (taken : Class × Nat) : Prop where
  ne_stray : taken.1 ≠ .stray
  length_le : n ≤ taken.2
  cls_eq : n = taken.2 → taken.1 = cls

theorem Within.of_le {cls : Class} (hcls : cls ≠ .stray) {n m : Nat} (h : n ≤ m) :
    Within cls n (cls, m) :=
  ⟨hcls, h, fun _ => rfl⟩

theorem within_number {c : Char} {w : List Char} (h : Numeral.IsNumeral (c :: w))
    (rest : List Char) : Within (.token .number) w.length (munch c (w ++ rest)) := by
  generalize hcs : c :: w = cs at h
  cases h with
  | plain h =>
    subst hcs
    obtain ⟨hc, hle⟩ := le_numberLength h rest
    rw [munch_digit hc]
    exact .of_le (by decide) hle
  | negative h =>
    obtain ⟨rfl, rfl⟩ := List.cons.inj hcs
    obtain ⟨d, ds, rfl⟩ := List.exists_cons_of_ne_nil h.ne_nil
    obtain ⟨hd, hle⟩ := le_numberLength h rest
    rw [List.cons_append, munch_minus hd, List.length_cons]
    exact .of_le (by decide) (by omega)

theorem munch_string {quote c : Char} (hquote : quote = '"' ∨ quote = '\'') {w : List Char}
    (h : c :: w ∈ string quote) (rest : List Char) :
    munch c (w ++ rest) = (.token .string, w.length) := by
  obtain ⟨rfl, hw⟩ := cons_mem_one_mul.mp h
  obtain ⟨u, hu, _, ⟨q, rfl, rfl⟩, rfl⟩ := Language.mem_mul.mp hw
  have hslash : q ≠ '\\' := by rcases hquote with rfl | rfl <;> decide
  rw [munch_quote hquote, stringLength_of_closed hslash hu, List.length_append]
  rfl

theorem within_string {quote c : Char} (hquote : quote = '"' ∨ quote = '\'') {w : List Char}
    (h : c :: w ∈ string quote) (rest : List Char) :
    Within (.token .string) w.length (munch c (w ++ rest)) := by
  rw [munch_string hquote h]
  exact .of_le (by decide) (Nat.le_refl _)

theorem within_unterminated {quote c : Char} (hquote : quote = '"' ∨ quote = '\'')
    {w : List Char} (h : c :: w ∈ unterminated quote) (rest : List Char) :
    Within (.token .unterminated) w.length (munch c (w ++ rest)) := by
  obtain ⟨rfl, hw⟩ := cons_mem_one_mul.mp h
  obtain ⟨u, hu, tail, htail, rfl⟩ := Language.mem_mul.mp hw
  have htail : tail = [] ∨ tail = ['\\'] := by
    rcases mem_maybe.mp htail with rfl | ⟨b, rfl, rfl⟩
    · exact .inl rfl
    · exact .inr rfl
  obtain ⟨hle, hclosed⟩ := le_stringLength hu htail rest
  rw [munch_quote hquote]
  refine ⟨?_, hle, ?_⟩
  · split <;> simp
  · intro heq
    simp only [hclosed heq, Bool.false_eq_true, if_false]

theorem within_comment {c : Char} {w : List Char} (h : c :: w ∈ blockComment)
    (rest : List Char) : Within .blank w.length (munch c (w ++ rest)) := by
  obtain ⟨rfl, hw⟩ := cons_mem_one_mul.mp h
  obtain ⟨_, u, rfl, hu, rfl⟩ := mem_one_mul.mp hw
  rw [List.cons_append, munch_comment (commentLength?_of_mem hu rest), List.length_cons]
  exact .of_le (by decide) (by omega)

theorem within_line {c : Char} {w : List Char} (h : c :: w ∈ lineComment) (rest : List Char) :
    Within .blank w.length (munch c (w ++ rest)) := by
  obtain ⟨rfl, hw⟩ := cons_mem_one_mul.mp h
  obtain ⟨_, u, rfl, hu, rfl⟩ := mem_one_mul.mp hw
  have hle : u.length ≤ run (· != '\n') (u ++ rest) := by
    refine le_run_append ?_ rest
    intro d hd
    simpa using mem_kstar_one.mp hu d hd
  rw [List.cons_append, munch_line, List.length_cons]
  exact .of_le (by decide) (by omega)

theorem within_of_matches {cls : Class} {c : Char} {w : List Char} (h : Matches cls (c :: w))
    (rest : List Char) : Within cls w.length (munch c (w ++ rest)) := by
  obtain ⟨l, hl, hw⟩ := h
  simp only [declared, List.mem_cons, Prod.mk.injEq, List.not_mem_nil, or_false] at hl
  rcases hl with ⟨rfl, rfl⟩ | ⟨rfl, rfl⟩ | ⟨rfl, rfl⟩ | ⟨rfl, rfl⟩ | ⟨rfl, rfl⟩ | ⟨rfl, rfl⟩ |
    ⟨rfl, rfl⟩ | ⟨rfl, rfl⟩ | ⟨rfl, rfl⟩ | hl
  · obtain ⟨-, hspace⟩ := mem_space.mp hw
    rw [munch_space (hspace c List.mem_cons_self)]
    exact .of_le (by decide) (le_run_append (fun d hd => hspace d (List.mem_cons_of_mem c hd)) rest)
  · exact within_line hw rest
  · exact within_comment hw rest
  · exact within_number (mem_number.mp hw) rest
  · exact within_string (.inl rfl) hw rest
  · exact within_string (.inr rfl) hw rest
  · exact within_unterminated (.inl rfl) hw rest
  · exact within_unterminated (.inr rfl) hw rest
  · obtain ⟨hc, hparts⟩ := mem_ident.mp hw
    rw [munch_name hc]
    exact .of_le (by decide) (le_run_append hparts rest)
  · -- punctuation: one character, which is a lexeme of its own
    rcases hl with ⟨rfl, rfl⟩ | ⟨rfl, rfl⟩ | ⟨rfl, rfl⟩ | ⟨rfl, rfl⟩ | ⟨rfl, rfl⟩ | ⟨rfl, rfl⟩ <;>
    · obtain ⟨_, rfl, heq⟩ := hw
      obtain ⟨rfl, rfl⟩ := List.cons.inj heq
      exact .of_le (by decide) (Nat.zero_le 0)

def OpensComment (cs : List Char) : Prop := ['/', '*'] <+: cs

def IsStray (cs text : List Char) : Prop :=
  (OpensComment cs ∧ text = cs) ∨ (¬ OpensComment cs ∧ ∃ c rest, cs = c :: rest ∧ text = [c])

theorem isStray_char {c : Char} (hc : c ≠ '/') (cs : List Char) : IsStray (c :: cs) [c] := by
  refine .inr ⟨?_, c, cs, rfl, rfl⟩
  rintro ⟨t, ht⟩
  exact hc (List.cons.inj ht).1.symm

theorem isStray_slash {cs : List Char} (h : ∀ d ∈ cs.head?, d ≠ '*') :
    IsStray ('/' :: cs) ['/'] := by
  refine .inr ⟨?_, '/', cs, rfl, rfl⟩
  rintro ⟨t, ht⟩
  obtain ⟨-, rfl⟩ := List.cons.inj ht
  exact h '*' rfl rfl

theorem matches_quote {c : Char} (hc : c = '"' ∨ c = '\'') (cs : List Char) :
    Matches (munch c cs).1 (c :: cs.take (munch c cs).2) := by
  obtain ⟨w, hw, tail, htail, htake⟩ := take_stringLength c cs
  rw [munch_quote hc]
  simp only [htake]
  cases hclosed : (stringLength c cs).1 with
  | true =>
    rw [hclosed] at htail
    obtain rfl : tail = [c] := htail
    have hmem : c :: (w ++ [c]) ∈ string c :=
      cons_mem_one_mul.mpr ⟨rfl, Language.append_mem_mul hw (singleton_mem_one.mpr rfl)⟩
    rcases hc with rfl | rfl
    · exact ⟨_, by simp [declared], hmem⟩
    · exact ⟨_, by simp [declared], hmem⟩
  | false =>
    rw [hclosed] at htail
    have htail : tail ∈ maybe (one (· = '\\')) := by
      rcases htail with rfl | rfl
      · exact mem_maybe.mpr (.inl rfl)
      · exact mem_maybe.mpr (.inr (singleton_mem_one.mpr rfl))
    have hmem : c :: (w ++ tail) ∈ unterminated c :=
      cons_mem_one_mul.mpr ⟨rfl, Language.append_mem_mul hw htail⟩
    rcases hc with rfl | rfl
    · exact ⟨_, by simp [declared], hmem⟩
    · exact ⟨_, by simp [declared], hmem⟩

theorem matches_punctuation {c : Char} {kind : Token.Kind} (h : punctuation? c = some kind) :
    Matches (.token kind) [c] := by
  refine ⟨one (· = c), ?_, singleton_mem_one.mpr rfl⟩
  unfold punctuation? at h
  split at h
  case h_7 => cases h
  all_goals
    obtain rfl := Option.some.inj h
    simp [declared]

theorem munch_slash (cs : List Char) :
    Matches (munch '/' cs).1 ('/' :: cs.take (munch '/' cs).2) ∨
      (munch '/' cs).1 = .stray ∧ IsStray ('/' :: cs) ('/' :: cs.take (munch '/' cs).2) := by
  cases cs with
  | nil => exact .inr ⟨rfl, isStray_slash (by simp)⟩
  | cons d cs =>
    by_cases hline : d = '/'
    · subst hline
      left
      rw [munch_line]
      simp only [Nat.add_comm 1, List.take_succ_cons, take_run]
      have hrest : cs.takeWhile (· != '\n') ∈ (one (· ≠ '\n'))∗ := by
        refine mem_kstar_one.mpr fun e he => ?_
        simpa using List.all_eq_true.mp (List.all_takeWhile (p := (· != '\n')) (l := cs)) e he
      exact ⟨lineComment, by simp [declared],
        cons_mem_one_mul.mpr ⟨rfl, cons_mem_one_mul.mpr ⟨rfl, hrest⟩⟩⟩
    by_cases hcomment : d = '*'
    · subst hcomment
      cases hlength : commentLength? cs with
      | some n =>
        left
        rw [munch_comment hlength]
        simp only [Nat.add_comm 1, List.take_succ_cons]
        exact ⟨blockComment, by simp [declared],
          cons_mem_one_mul.mpr ⟨rfl, cons_mem_one_mul.mpr ⟨rfl, take_commentLength? hlength⟩⟩⟩
      | none =>
        right
        have hmunch : munch '/' ('*' :: cs) = (.stray, ('*' :: cs).length) := by
          unfold munch
          simp only [hlength]
          rfl
        rw [hmunch]
        refine ⟨rfl, .inl ⟨⟨cs, rfl⟩, ?_⟩⟩
        simp only [List.take_length]
    · right
      have hmunch : munch '/' (d :: cs) = (.stray, 0) := by
        change ite _ _ _ = _
        rw [if_neg (by decide), if_neg (by decide), if_neg (by decide), if_neg (by decide),
          if_neg (by decide), if_pos rfl]
        split
        · rename_i heq
          exact absurd (List.cons.inj heq).1 hline
        · rename_i heq
          exact absurd (List.cons.inj heq).1 hcomment
        · rfl
      rw [hmunch]
      exact ⟨rfl, isStray_slash (by simpa using hcomment)⟩

/-- What is taken matches a pattern of its class, or is stray. -/
theorem munch_cases (c : Char) (cs : List Char) :
    Matches (munch c cs).1 (c :: cs.take (munch c cs).2) ∨
      (munch c cs).1 = .stray ∧ IsStray (c :: cs) (c :: cs.take (munch c cs).2) := by
  by_cases hspace : isSpace c = true
  · left
    rw [munch_space hspace]
    simp only [take_run]
    refine ⟨space, by simp [declared], mem_space.mpr ⟨List.cons_ne_nil _ _, ?_⟩⟩
    have hall := List.all_eq_true.mp (List.all_takeWhile (p := isSpace) (l := cs))
    simpa using ⟨hspace, hall⟩
  by_cases hname : isNameStart c = true
  · left
    rw [munch_name hname]
    simp only [take_run]
    refine ⟨ident, by simp [declared], mem_ident.mpr ⟨hname, ?_⟩⟩
    exact List.all_eq_true.mp (List.all_takeWhile (p := isNamePart) (l := cs))
  by_cases hdigit : c.isDigit = true
  · left
    rw [munch_digit hdigit]
    exact ⟨number, by simp [declared], mem_number.mpr (.plain (Numeral.isUnsigned_take hdigit cs))⟩
  by_cases hminus : c = '-'
  · subst hminus
    cases cs with
    | nil => exact .inr ⟨rfl, isStray_char (by decide) []⟩
    | cons d cs =>
      by_cases hd : d.isDigit = true
      · left
        rw [munch_minus hd]
        simp only [Nat.add_comm 1, List.take_succ_cons]
        exact ⟨number, by simp [declared],
          mem_number.mpr (.negative (Numeral.isUnsigned_take hd cs))⟩
      · right
        have hmunch : munch '-' (d :: cs) = (.stray, 0) := by
          unfold munch
          simp only [hd]
          rfl
        rw [hmunch]
        exact ⟨rfl, isStray_char (by decide) _⟩
  by_cases hquote : c = '"' ∨ c = '\''
  · exact .inl (matches_quote hquote cs)
  by_cases hslash : c = '/'
  · subst hslash
    exact munch_slash cs
  · -- what is left is punctuation or nothing
    cases hkind : punctuation? c with
    | some kind =>
      left
      have hmunch : munch c cs = (.token kind, 0) := by
        simp only [munch, hspace, hname, hdigit, hminus, hquote, hslash, hkind, if_false,
          Bool.false_eq_true]
      rw [hmunch]
      exact matches_punctuation hkind
    | none =>
      right
      have hmunch : munch c cs = (.stray, 0) := by
        simp only [munch, hspace, hname, hdigit, hminus, hquote, hslash, hkind, if_false,
          Bool.false_eq_true]
      rw [hmunch]
      exact ⟨rfl, isStray_char hslash cs⟩

end Lexeme

end Fexpr
