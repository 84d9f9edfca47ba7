import Mathlib.Tactic.Common
import Toolflow.Proofs.Json.Digits

/-!
# Numbers are read as they are written

A literal is read part by part, and the numeral at its end has the value that it denotes.

* `Numeral.feed`, `Numeral.read`   the numeral after some characters, if all of them belong to it;
* `feed_whole`, `feed_fraction`, `feed_exponent`   a part of a number, digit by digit;
* `Literal.state`     the numeral at the end of a literal;
* `Literal.Bounded`   the exponent does not stop the reading;
* `read_text`         a bounded literal is read to its end;
* `value_state`       and what it denotes is the value there.
-/

namespace Toolflow.Json

/-! ## numerals over several characters -/

namespace Numeral

def Progress.more? : Progress → Option Numeral
  | .more n => some n
  | _ => none

/-- the numeral after these characters, if they all belong to it -/
def feed (n : Numeral) (s : List Char) : Option Numeral :=
  s.foldlM (fun n c => (n.step c).more?) n

def read : List Char → Option Numeral
  | [] => none
  | c :: rest => (start? c).bind fun n => n.feed rest

theorem feed_nil (n : Numeral) : n.feed [] = some n := rfl

theorem feed_cons {n n' : Numeral} {c : Char} (h : n.step c = .more n') (rest : List Char) :
    n.feed (c :: rest) = n'.feed rest := by
  rw [feed, List.foldlM_cons, h]
  rfl

theorem feed_cons_eq_some {n n' : Numeral} {c : Char} {rest : List Char}
    (h : n.feed (c :: rest) = some n') : ∃ m, n.step c = .more m ∧ m.feed rest = some n' := by
  rw [feed, List.foldlM_cons] at h
  cases hstep : n.step c with
  | more m =>
    rw [hstep] at h
    exact ⟨m, rfl, h⟩
  | ends | stops =>
    rw [hstep] at h
    cases h

theorem feed_append {n n' : Numeral} {s : List Char} (h : n.feed s = some n') (t : List Char) :
    n.feed (s ++ t) = n'.feed t := by
  rw [feed, List.foldlM_append]
  exact congrArg (fun m => m.bind fun n => n.feed t) h

theorem read_append {n : Numeral} {s : List Char} (h : read s = some n) (t : List Char) :
    read (s ++ t) = n.feed t := by
  cases s with
  | nil => cases h
  | cons c rest =>
    obtain ⟨m, hm, hrest⟩ := Option.bind_eq_some_iff.mp h
    rw [List.cons_append, read, hm, Option.bind_some]
    exact feed_append hrest t

theorem feed_whole (negative : Bool) {ds es : List Char} (h : ∀ c ∈ es, c.isDigit = true) :
    (whole negative (wholeSize ds)).feed es = some (whole negative (wholeSize (ds ++ es))) := by
  induction es generalizing ds with
  | nil => rw [List.append_nil, feed_nil]
  | cons c rest ih =>
    obtain ⟨hc, hrest⟩ := List.forall_mem_cons.mp h
    have hstep : (whole negative (wholeSize ds)).step c =
        .more (whole negative (wholeSize (ds ++ [c]))) := by
      rw [step, digit?_of_isDigit hc, ← pushWhole_wholeSize]
    rw [feed_cons hstep, ih hrest, List.append_assoc, List.singleton_append]

theorem feed_fraction (ds : List Char) {fs gs : List Char} (h : ∀ c ∈ gs, c.isDigit = true) :
    (fraction (fractionSize ds fs)).feed gs = some (fraction (fractionSize ds (fs ++ gs))) := by
  induction gs generalizing fs with
  | nil => rw [List.append_nil, feed_nil]
  | cons c rest ih =>
    obtain ⟨hc, hrest⟩ := List.forall_mem_cons.mp h
    have hstep : (fraction (fractionSize ds fs)).step c =
        .more (fraction (fractionSize ds (fs ++ [c]))) := by
      rw [step, digit?_of_isDigit hc, ← pushFraction_fractionSize]
    rw [feed_cons hstep, ih hrest, List.append_assoc, List.singleton_append]

theorem feed_anyExponent {es : List Char} (h : ∀ c ∈ es, c.isDigit = true) :
    anyExponent.feed es = some anyExponent := by
  induction es with
  | nil => rfl
  | cons c rest ih =>
    obtain ⟨hc, hrest⟩ := List.forall_mem_cons.mp h
    have hstep : anyExponent.step c = .more anyExponent := by
      rw [step, digit?_of_isDigit hc]
    rw [feed_cons hstep, ih hrest]

/-- the numeral after the digits of an exponent -/
def atExponent (down : Bool) (digits : Nat) (size : Magnitude) : Numeral :=
  if digits ≤ exponentLimit then .exponent down digits size else .anyExponent

theorem feed_exponent {down : Bool} {n : Nat} {size : Magnitude} {es : List Char}
    (hn : n ≤ exponentLimit) (h : ∀ c ∈ es, c.isDigit = true)
    (hb : decimalFrom n es ≤ exponentLimit ∨ size.significand = 0 ∨ down = true) :
    (exponent down n size).feed es = some (atExponent down (decimalFrom n es) size) := by
  induction es generalizing n with
  | nil =>
    rw [feed_nil, atExponent, decimalFrom, List.foldl_nil, if_pos hn]
  | cons c rest ih =>
    obtain ⟨hc, hrest⟩ := List.forall_mem_cons.mp h
    have hfrom : decimalFrom n (c :: rest) = decimalFrom (n * 10 + digitValue c) rest := rfl
    rw [hfrom] at hb ⊢
    by_cases hle : n * 10 + digitValue c ≤ exponentLimit
    · have hstep : (exponent down n size).step c =
          .more (exponent down (n * 10 + digitValue c) size) := by
        rw [step, digit?_of_isDigit hc]
        exact if_pos hle
      rw [feed_cons hstep]
      exact ih hle hrest hb
    -- digits only add to the number, so the whole exponent is beyond the limit as well
    · have hlt := le_decimalFrom (n * 10 + digitValue c) rest
      have hbeyond : ¬ decimalFrom (n * 10 + digitValue c) rest ≤ exponentLimit := by omega
      have hgo : ¬ (size.significand ≠ 0 ∧ ¬down = true) := by
        rintro ⟨hsig, hdown⟩
        rcases hb with hb | hb | hb
        · exact hbeyond hb
        · exact hsig hb
        · exact hdown hb
      have hstep : (exponent down n size).step c = .more anyExponent := by
        rw [step, digit?_of_isDigit hc]
        show pushExponent down n size (digitValue c) = _
        rw [pushExponent, if_neg hle, if_neg hgo]
      rw [feed_cons hstep, feed_anyExponent hrest, atExponent, if_neg hbeyond]

end Numeral

/-! ## literals -/

namespace Literal

def size (l : Literal) : Magnitude :=
  if l.fraction = [] then wholeSize l.whole else fractionSize l.whole l.fraction

theorem size_of_nil {l : Literal} (h : l.fraction = []) : l.size = wholeSize l.whole := if_pos h

theorem size_of_ne_nil {l : Literal} (h : l.fraction ≠ []) :
    l.size = fractionSize l.whole l.fraction := if_neg h

theorem size_eq (l : Literal) : l.size = ⟨l.significand, l.scale, l.size.full⟩ := by
  unfold size significand scale
  by_cases h : l.fraction = []
  · rw [if_pos h, h]
    simp only [wholeSize, taken, List.length_nil, Nat.sub_self, Int.ofNat_zero,
      Int.sub_zero]
  · rw [if_neg h]
    rfl

/-- the part before the exponent -/
def bare (l : Literal) : Numeral :=
  if l.fraction ≠ [] then .fraction (fractionSize l.whole l.fraction)
  else if l.whole = ['0'] then .zero l.minus
  else .whole l.minus (wholeSize l.whole)

/-- the numeral at the end of a literal -/
def state (l : Literal) : Numeral :=
  match l.exponent with
  | none => l.bare
  | some e => .atExponent (decide (e.sign = some '-')) (decimal e.digits) l.size

/-- the exponent does not stop the reading -/
def Bounded (l : Literal) : Prop :=
  ∀ e ∈ l.exponent,
    decimal e.digits ≤ exponentLimit ∨ l.significand = 0 ∨ e.sign = some '-'

/-! ### a literal is read to its end -/

theorem whole_cases (l : Literal) :
    l.whole = ['0'] ∨
      ∃ c rest, l.whole = c :: rest ∧ c ≠ '0' ∧ c.isDigit = true ∧
        ∀ x ∈ rest, x.isDigit = true := by
  obtain ⟨c, rest, hwhole⟩ := List.exists_cons_of_ne_nil l.isDigits.ne_nil
  by_cases hzero : c = '0'
  · exact .inl (l.no_leading_zero (by rw [hwhole, hzero]; rfl))
  · have hdigit := l.isDigits.digit
    rw [hwhole] at hdigit
    obtain ⟨hc, hrest⟩ := List.forall_mem_cons.mp hdigit
    exact .inr ⟨c, rest, hwhole, hzero, hc, hrest⟩

theorem start?_of_isDigit {c : Char} (h : c.isDigit = true) (hzero : c ≠ '0') :
    Numeral.start? c = some (.whole false (wholeSize [c])) := by
  have hminus : c ≠ '-' := by
    rintro rfl
    exact absurd h (by decide)
  rw [Numeral.start?, if_neg hminus, if_neg hzero, digit?_of_isDigit h, Option.map_some,
    ofDigit_eq_wholeSize h]

theorem step_minus_of_isDigit {c : Char} (h : c.isDigit = true) (hzero : c ≠ '0') :
    Numeral.minus.step c = .more (.whole true (wholeSize [c])) := by
  rw [Numeral.step, if_neg hzero, digit?_of_isDigit h]
  show Numeral.Progress.more (.whole true (.ofDigit (digitValue c))) = _
  rw [ofDigit_eq_wholeSize h]

theorem read_whole (l : Literal) :
    Numeral.read (signText l.minus ++ l.whole) =
      some (if l.whole = ['0'] then .zero l.minus else .whole l.minus (wholeSize l.whole)) := by
  rcases l.whole_cases with hwhole | ⟨c, rest, hwhole, hzero, hc, hrest⟩
  · rw [hwhole]
    cases l.minus <;> rfl
  · have hne : l.whole ≠ ['0'] := by
      rw [hwhole]
      exact fun h => hzero (List.cons.inj h).1
    rw [if_neg hne, hwhole]
    cases l.minus with
    | false =>
      show Numeral.read (c :: rest) = _
      rw [Numeral.read, start?_of_isDigit hc hzero]
      exact Numeral.feed_whole false hrest
    | true =>
      show Numeral.read ('-' :: c :: rest) = _
      have hstart : Numeral.start? '-' = some .minus := rfl
      rw [Numeral.read, hstart, Option.bind_some,
        Numeral.feed_cons (step_minus_of_isDigit hc hzero)]
      exact Numeral.feed_whole true hrest

theorem step_point (l : Literal) :
    (if l.whole = ['0'] then Numeral.zero l.minus
      else .whole l.minus (wholeSize l.whole)).step '.' =
      .more (.point (fractionSize l.whole [])) := by
  split
  · next h =>
    rw [h]
    rfl
  · rw [← atPoint_wholeSize]
    rfl

theorem read_fraction (l : Literal) :
    Numeral.read (signText l.minus ++ l.whole ++ fractionText l.fraction) = some l.bare := by
  unfold fractionText bare
  cases hfs : l.fraction with
  | nil =>
    simp only [ite_true, ne_eq, not_true_eq_false, ite_false, List.append_nil]
    exact l.read_whole
  | cons f rest =>
    have hdigit := l.digit
    rw [hfs] at hdigit
    obtain ⟨hf, hrest⟩ := List.forall_mem_cons.mp hdigit
    have hstep : (Numeral.point (fractionSize l.whole [])).step f =
        .more (.fraction (fractionSize l.whole [f])) := by
      rw [Numeral.step, digit?_of_isDigit hf]
      show Numeral.Progress.more (.fraction ((fractionSize l.whole []).pushFraction _)) = _
      rw [pushFraction_fractionSize, List.nil_append]
    simp only [List.cons_ne_nil, ite_false, ne_eq, not_false_eq_true, ite_true]
    rw [Numeral.read_append l.read_whole, Numeral.feed_cons l.step_point, Numeral.feed_cons hstep]
    exact Numeral.feed_fraction l.whole hrest

theorem step_mark {l : Literal} {c : Char} (hc : c = 'e' ∨ c = 'E') :
    l.bare.step c = .more (.mark l.size) := by
  unfold bare size
  rcases hc with rfl | rfl
  all_goals
    by_cases hfs : l.fraction = []
    · by_cases hwhole : l.whole = ['0']
      · simp only [hfs, hwhole, ne_eq, not_true_eq_false, ite_false, ite_true]
        rfl
      · simp only [hfs, hwhole, ne_eq, not_true_eq_false, ite_false, ite_true]
        rfl
    · simp only [hfs, ne_eq, not_false_eq_true, ite_false, ite_true]
      rfl

theorem feed_exponent_text (size : Magnitude) (e : Exponent)
    (hb : decimal e.digits ≤ exponentLimit ∨ size.significand = 0 ∨ e.sign = some '-') :
    (Numeral.mark size).feed (e.sign.toList ++ e.digits) =
      some (.atExponent (decide (e.sign = some '-')) (decimal e.digits) size) := by
  obtain ⟨c, rest, hdigits⟩ := List.exists_cons_of_ne_nil e.isDigits.ne_nil
  have hdigit := e.isDigits.digit
  rw [hdigits] at hdigit
  obtain ⟨hc, hrest⟩ := List.forall_mem_cons.mp hdigit
  have hdec : decimal e.digits = decimalFrom (digitValue c) rest := by
    rw [hdigits]
    show decimalFrom (0 * 10 + digitValue c) rest = _
    rw [Nat.zero_mul, Nat.zero_add]
  have hc9 : digitValue c ≤ exponentLimit := Nat.le_trans (digitValue_le hc) (by decide)
  have hfeed := @Numeral.feed_exponent (decide (e.sign = some '-')) _ size _ hc9 hrest
    (by simpa only [hdec, decide_eq_true_eq] using hb)
  rw [hdec, ← hfeed, hdigits]
  cases hsign : e.sign with
  | none =>
    have hplus : c ≠ '+' := by
      rintro rfl
      exact absurd hc (by decide)
    have hminus : c ≠ '-' := by
      rintro rfl
      exact absurd hc (by decide)
    refine Numeral.feed_cons ?_ rest
    rw [Numeral.step, if_neg hplus, if_neg hminus, digit?_of_isDigit hc]
    rfl
  | some s =>
    have hstep (down : Bool) : (Numeral.signedMark down size).step c =
        .more (.exponent down (digitValue c) size) := by
      rw [Numeral.step, digit?_of_isDigit hc]
    rcases e.sign_eq s hsign with rfl | rfl
    · exact (Numeral.feed_cons rfl _).trans (Numeral.feed_cons (hstep false) rest)
    · exact (Numeral.feed_cons rfl _).trans (Numeral.feed_cons (hstep true) rest)

theorem read_text {l : Literal} (h : l.Bounded) : Numeral.read l.text = some l.state := by
  unfold text exponentText state
  rw [Numeral.read_append l.read_fraction]
  cases he : l.exponent with
  | none => rfl
  | some e =>
    have hsig : l.size.significand = l.significand := by rw [size_eq]
    have hb := h e he
    rw [← hsig] at hb
    exact (Numeral.feed_cons (step_mark e.mark_eq) _).trans (feed_exponent_text l.size e hb)

/-! ### the value of a literal -/

theorem decimal_whole_pos {l : Literal} (h : l.whole ≠ ['0']) : 0 < decimal l.whole := by
  rcases l.whole_cases with hwhole | ⟨c, rest, hwhole, hzero, hc, -⟩
  · exact absurd hwhole h
  · rw [hwhole]
    have hpos := digitValue_pos hc hzero
    have hle := le_decimalFrom (0 * 10 + digitValue c) rest
    show 0 < decimalFrom (0 * 10 + digitValue c) rest
    omega

theorem bounded_of_not_tooLarge {l : Literal} (h : ¬ l.TooLarge) : l.Bounded := by
  intro e he
  unfold TooLarge at h
  rw [Option.mem_def.mp he] at h
  by_cases hle : decimal e.digits ≤ exponentLimit
  · exact .inl hle
  · by_cases hsig : l.significand = 0
    · exact .inr (.inl hsig)
    · by_cases hsign : e.sign = some '-'
      · exact .inr (.inr hsign)
      · refine absurd ?_ h
        show if decimal e.digits ≤ exponentLimit then _ else _
        rw [if_neg hle]
        exact ⟨hsig, hsign⟩

theorem bounded_of_denotes {l : Literal} {n : Number} (h : l.Denotes n) : l.Bounded := by
  have of_fits (hfits : l.Fits) : l.Bounded := by
    intro e he
    rw [hfits.2.1] at he
    cases he
  cases h with
  | natural _ hfits => exact of_fits hfits
  | negative _ hfits => exact of_fits hfits
  | real _ hsmall => exact bounded_of_not_tooLarge hsmall

theorem denotes_of_not_fits {l : Literal} (h : ¬ l.Fits) {n : Number} :
    l.Denotes n ↔ n = .real ∧ ¬ l.TooLarge := by
  constructor
  · intro hd
    cases hd with
    | natural _ hfits => exact absurd hfits h
    | negative _ hfits => exact absurd hfits h
    | real _ hsmall => exact ⟨rfl, hsmall⟩
  · rintro ⟨rfl, hsmall⟩
    exact .real h hsmall

theorem ok_eq_ok_iff {m n : Number} : (Except.ok m : Except Cause Number) = .ok n ↔ n = m := by
  rw [Except.ok.injEq, eq_comm]

theorem realOf_eq_ok_iff {size : Magnitude} {n : Number} :
    Numeral.realOf size = .ok n ↔ n = .real ∧ ¬ size.outOfRange = true := by
  unfold Numeral.realOf
  by_cases h : size.outOfRange = true
  · simp [h]
  · simp [h, eq_comm]

/-- whether a magnitude is full does not matter for its range -/
theorem outOfRange_size (l : Literal) :
    l.size.outOfRange = Magnitude.outOfRange ⟨l.significand, l.scale, false⟩ := by
  rw [size_eq]
  rfl

theorem denotes_of_plus {l : Literal} (h : l.Fits) (hplus : l.minus = false) {n : Number} :
    l.Denotes n ↔ n = .natural (UInt64.ofNat (decimal l.whole)) := by
  have hlt : decimal l.whole < Nat.pow 2 64 := by
    simpa only [hplus, Bool.false_eq_true, ite_false] using h.2.2
  constructor
  · intro hd
    cases hd with
    | natural m _ _ hm => rw [← hm, UInt64.ofNat_toNat]
    | negative _ _ hminus => exact absurd (hplus.symm.trans hminus) (by decide)
    | real hfits => exact absurd h hfits
  · rintro rfl
    exact .natural _ h hplus (UInt64.toNat_ofNat_of_lt' hlt)

theorem denotes_of_minus {l : Literal} (h : l.Fits) (hminus : l.minus = true) {n : Number} :
    l.Denotes n ↔ n = .negative (Int64.ofInt (-(decimal l.whole : Int))) := by
  have hle : decimal l.whole ≤ 9223372036854775808 := by
    have hfits := h.2.2
    rw [if_pos hminus] at hfits
    exact hfits.2
  constructor
  · intro hd
    cases hd with
    | natural _ _ hplus => exact absurd (hplus.symm.trans hminus) (by decide)
    | negative m _ _ hm => rw [← hm, Int64.ofInt_toInt]
    | real hfits => exact absurd h hfits
  · rintro rfl
    refine .negative _ h hminus (Int64.toInt_ofInt_of_le ?_ ?_)
    · omega
    · omega

theorem value_zero {l : Literal} (hwhole : l.whole = ['0']) (hfs : l.fraction = [])
    (he : l.exponent = none) {n : Number} :
    (Numeral.zero l.minus).value = .ok n ↔ l.Denotes n := by
  have hdec : decimal l.whole = 0 := by
    rw [hwhole]
    rfl
  cases hminus : l.minus with
  | false =>
    have hfits : l.Fits := by
      refine ⟨hfs, he, ?_⟩
      rw [hminus, hdec]
      exact Nat.two_pow_pos 64
    rw [denotes_of_plus hfits hminus, hdec]
    exact ok_eq_ok_iff
  | true =>
    have hfits : ¬ l.Fits := by
      rintro ⟨-, -, h⟩
      rw [if_pos hminus, hdec] at h
      exact Nat.lt_irrefl 0 h.1
    have hsig : l.significand = 0 := by
      rw [significand, hwhole, hfs]
      rfl
    have hsmall : ¬ l.TooLarge := by
      rw [TooLarge, he, hsig, Magnitude.outOfRange_zero]
      exact Bool.false_ne_true
    rw [denotes_of_not_fits hfits, and_iff_left hsmall]
    exact ok_eq_ok_iff

theorem value_whole {l : Literal} (hwhole : l.whole ≠ ['0']) (hfs : l.fraction = [])
    (he : l.exponent = none) {n : Number} :
    (Numeral.whole l.minus (wholeSize l.whole)).value = .ok n ↔ l.Denotes n := by
  have hpos := decimal_whole_pos hwhole
  have hreal (h : ¬ l.Fits) : Numeral.realOf (wholeSize l.whole) = .ok n ↔ l.Denotes n := by
    rw [realOf_eq_ok_iff, denotes_of_not_fits h, ← size_of_nil hfs, outOfRange_size, TooLarge, he]
  show Numeral.ofWhole l.minus (wholeSize l.whole) = .ok n ↔ l.Denotes n
  unfold Numeral.ofWhole
  -- the magnitude is full just if 64 bits do not hold the number
  by_cases hlt : decimal l.whole < Nat.pow 2 64
  · have htaken : wholeSize l.whole = ⟨decimal l.whole, 0, false⟩ := by
      rw [wholeSize, taken_of_lt hlt]
      rfl
    rw [htaken] at hreal ⊢
    simp only [Bool.false_eq_true, ite_false]
    cases hminus : l.minus with
    | false =>
      have hfits : l.Fits := by
        refine ⟨hfs, he, ?_⟩
        rw [hminus]
        exact hlt
      rw [denotes_of_plus hfits hminus]
      exact ok_eq_ok_iff
    | true =>
      by_cases hle : decimal l.whole ≤ Nat.pow 2 63
      · have hfits : l.Fits := by
          refine ⟨hfs, he, ?_⟩
          rw [if_pos hminus]
          exact ⟨hpos, hle⟩
        rw [denotes_of_minus hfits hminus]
        simp only [not_true_eq_false, ite_false]
        rw [if_pos hle]
        exact ok_eq_ok_iff
      · have hfits : ¬ l.Fits := by
          rintro ⟨-, -, h⟩
          rw [if_pos hminus] at h
          exact hle h.2
        simp only [not_true_eq_false, ite_false]
        rw [if_neg hle]
        exact hreal hfits
  · have hfits : ¬ l.Fits := by
      rintro ⟨-, -, h⟩
      split at h
      · have hpow : Nat.pow 2 63 < Nat.pow 2 64 := by decide
        exact hlt (Nat.lt_of_le_of_lt h.2 hpow)
      · exact hlt h
    have hleft := taken_pos_of_le (Nat.two_pow_pos 64) (Nat.le_of_not_lt hlt)
    have hfull : (wholeSize l.whole).full = true := decide_eq_true (Nat.ne_of_gt hleft)
    rw [if_pos hfull]
    exact hreal hfits

theorem value_fraction {l : Literal} (hfs : l.fraction ≠ []) (he : l.exponent = none)
    {n : Number} :
    (Numeral.fraction (fractionSize l.whole l.fraction)).value = .ok n ↔ l.Denotes n := by
  rw [denotes_of_not_fits (fun h => hfs h.1), ← size_of_ne_nil hfs, Numeral.value,
    realOf_eq_ok_iff, outOfRange_size, TooLarge, he]

theorem value_exponent {l : Literal} (h : l.Bounded) {e : Exponent} (he : l.exponent = some e)
    {n : Number} :
    (Numeral.atExponent (decide (e.sign = some '-')) (decimal e.digits) l.size).value = .ok n ↔
      l.Denotes n := by
  have hfits : ¬ l.Fits := by
    rintro ⟨-, hnone, -⟩
    exact absurd (he.symm.trans hnone) (Option.some_ne_none e)
  rw [denotes_of_not_fits hfits, Numeral.atExponent, TooLarge, he]
  by_cases hle : decimal e.digits ≤ exponentLimit
  · have hvalue : (if decide (e.sign = some '-') = true then -(decimal e.digits : Int)
        else decimal e.digits) = e.value := by
      simp only [decide_eq_true_eq, Exponent.value]
    have hrange : (l.size.scaledBy e.value).outOfRange =
        Magnitude.outOfRange ⟨l.significand, l.scale + e.value, false⟩ := by
      rw [size_eq]
      rfl
    rw [if_pos hle, Numeral.value, hvalue, realOf_eq_ok_iff, hrange]
    show _ ↔ n = .real ∧ ¬ if decimal e.digits ≤ exponentLimit then _ else _
    rw [if_pos hle]
  · have hsmall : ¬ (l.significand ≠ 0 ∧ e.sign ≠ some '-') := by
      rintro ⟨hsig, hsign⟩
      rcases h e he with hb | hb | hb
      · exact hle hb
      · exact hsig hb
      · exact hsign hb
    rw [if_neg hle]
    show Except.ok Number.real = .ok n ↔
      n = .real ∧ ¬ if decimal e.digits ≤ exponentLimit then _ else _
    rw [if_neg hle, and_iff_left hsmall]
    exact ok_eq_ok_iff

theorem value_state {l : Literal} (h : l.Bounded) {n : Number} :
    l.state.value = .ok n ↔ l.Denotes n := by
  unfold state
  cases he : l.exponent with
  | some e => exact value_exponent h he
  | none =>
    show l.bare.value = .ok n ↔ l.Denotes n
    unfold bare
    by_cases hfs : l.fraction = []
    · rw [if_neg (not_not.mpr hfs)]
      split
      · next hwhole => exact value_zero hwhole hfs he
      · next hwhole => exact value_whole hwhole hfs he
    · rw [if_pos hfs]
      exact value_fraction hfs he

end Literal

end Toolflow.Json
