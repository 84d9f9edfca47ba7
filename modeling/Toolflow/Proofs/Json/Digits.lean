import Mathlib.Data.List.Forall2
import Toolflow.Json.Numeral
import Toolflow.Proofs.Json.Grammar

/-!
# Digits

The reader gathers digits one by one, the grammar takes them from the front.

* `digit?_eq_some_iff`   the digits of the reader are those of the grammar;
* `taken_concat`         one more digit behind those that are taken;
* `taken_of_lt`, `taken_pos_of_le`   all digits are taken just if 64 bits hold the number;
* `wholeSize`, `fractionSize`   the magnitude of digits as the grammar takes them; one more digit
                         is one more step of the reader (`pushWhole_wholeSize`,
                         `pushFraction_fractionSize`).
-/

namespace Toolflow.Json

/-! ## digits -/

theorem digit?_eq_some_iff {c : Char} {d : Nat} :
    digit? c = some d ↔ c.isDigit = true ∧ d = digitValue c := by
  unfold digit?
  by_cases h : c.isDigit = true
  · simp [h, digitValue, eq_comm]
  · simp [h]

theorem digit?_eq_none_iff {c : Char} : digit? c = none ↔ c.isDigit = false := by
  unfold digit?
  by_cases h : c.isDigit = true
  · simp [h]
  · simp [h]

theorem digit?_of_isDigit {c : Char} (h : c.isDigit = true) : digit? c = some (digitValue c) :=
  digit?_eq_some_iff.mpr ⟨h, rfl⟩

theorem digitValue_le {c : Char} (h : c.isDigit = true) : digitValue c ≤ 9 := by
  simp only [Char.isDigit, Bool.and_eq_true, decide_eq_true_eq, UInt32.le_iff_toNat_le] at h
  have hnine : c.val.toNat ≤ 57 := h.2
  show c.val.toNat - 48 ≤ 9
  omega

theorem digitValue_pos {c : Char} (h : c.isDigit = true) (hzero : c ≠ '0') : 0 < digitValue c := by
  simp only [Char.isDigit, Bool.and_eq_true, decide_eq_true_eq, UInt32.le_iff_toNat_le] at h
  have hle : 48 ≤ c.val.toNat := h.1
  have hne : c.val.toNat ≠ 48 := fun heq => hzero (Char.toNat_inj.mp heq)
  show 0 < c.val.toNat - 48
  omega

theorem decimal_concat (ds : List Char) (c : Char) :
    decimal (ds ++ [c]) = decimal ds * 10 + digitValue c := by
  simp [decimal, decimalFrom]

theorem le_decimalFrom (n : Nat) (ds : List Char) : n ≤ decimalFrom n ds := by
  induction ds generalizing n with
  | nil => exact Nat.le_refl n
  | cons c rest ih =>
    have h := ih (n * 10 + digitValue c)
    show n ≤ decimalFrom (n * 10 + digitValue c) rest
    omega

theorem IsDigits.concat {ds : List Char} (h : ∀ c ∈ ds, c.isDigit = true) {c : Char}
    (hc : c.isDigit = true) : IsDigits (ds ++ [c]) :=
  ⟨by simp, List.forall_mem_append.mpr ⟨h, List.forall_mem_singleton.mpr hc⟩⟩

theorem IsDigits.singleton {c : Char} (hc : c.isDigit = true) : IsDigits [c] :=
  .concat (List.forall_mem_nil _) hc

/-! ## digits that are taken -/

theorem taken_concat (n : Nat) (ds : List Char) (c : Char) :
    taken n (ds ++ [c]) =
      if (taken n ds).2 = 0 ∧ (taken n ds).1 * 10 + digitValue c < Nat.pow 2 64 then
        ((taken n ds).1 * 10 + digitValue c, 0)
      else ((taken n ds).1, (taken n ds).2 + 1) := by
  induction ds generalizing n with
  | nil => simp [taken]
  | cons x rest ih =>
    rw [List.cons_append, taken, taken]
    by_cases h : n * 10 + digitValue x < Nat.pow 2 64
    · rw [if_pos h, if_pos h, ih]
    · rw [if_neg h, if_neg h]
      simp

theorem taken_le_length (n : Nat) (ds : List Char) : (taken n ds).2 ≤ ds.length := by
  induction ds generalizing n with
  | nil => exact Nat.le_refl 0
  | cons c rest ih =>
    rw [taken]
    split
    · exact Nat.le_succ_of_le (ih _)
    · exact Nat.le_refl _

/-- digits that 64 bits hold are all taken -/
theorem taken_of_lt {n : Nat} {ds : List Char} (h : decimalFrom n ds < Nat.pow 2 64) :
    taken n ds = (decimalFrom n ds, 0) := by
  induction ds generalizing n with
  | nil => rfl
  | cons c rest ih =>
    have hle := le_decimalFrom (n * 10 + digitValue c) rest
    have hrest : decimalFrom (n * 10 + digitValue c) rest < Nat.pow 2 64 := h
    rw [taken, if_pos (Nat.lt_of_le_of_lt hle hrest), ih hrest]
    rfl

/-- otherwise some digit is left out -/
theorem taken_pos_of_le {n : Nat} {ds : List Char} (hn : n < Nat.pow 2 64)
    (h : Nat.pow 2 64 ≤ decimalFrom n ds) : 0 < (taken n ds).2 := by
  induction ds generalizing n with
  | nil => exact absurd hn (Nat.not_lt_of_le h)
  | cons c rest ih =>
    rw [taken]
    split
    · next hc => exact ih hc h
    · exact Nat.succ_pos _

/-! ## magnitudes -/

def wholeSize (ds : List Char) : Magnitude :=
  ⟨(taken 0 ds).1, (taken 0 ds).2, decide ((taken 0 ds).2 ≠ 0)⟩

def fractionSize (ds fs : List Char) : Magnitude :=
  ⟨(taken (taken 0 ds).1 fs).1, (taken 0 ds).2 - (fs.length - (taken (taken 0 ds).1 fs).2 : Nat),
    decide ((taken (taken 0 ds).1 fs).2 ≠ 0)⟩

theorem ofDigit_eq_wholeSize {c : Char} (h : c.isDigit = true) :
    Magnitude.ofDigit (digitValue c) = wholeSize [c] := by
  have hlt : 0 * 10 + digitValue c < Nat.pow 2 64 := by
    rw [Nat.zero_mul, Nat.zero_add]
    exact Nat.lt_of_le_of_lt (digitValue_le h) (by decide)
  rw [wholeSize, taken, if_pos hlt, taken, Nat.zero_mul, Nat.zero_add]
  rfl

theorem atPoint_wholeSize (ds : List Char) : (wholeSize ds).atPoint = fractionSize ds [] := by
  simp [wholeSize, Magnitude.atPoint, fractionSize, taken]

theorem fits_iff {m : Magnitude} {d : Nat} :
    m.fits d = true ↔ m.full = false ∧ m.significand * 10 + d < Nat.pow 2 64 := by
  rw [Magnitude.fits, Bool.and_eq_true, Bool.not_eq_true']
  exact and_congr_right' decide_eq_true_iff

theorem full_eq_false_iff {n : Nat} : decide (n ≠ 0) = false ↔ n = 0 := by
  rw [decide_eq_false_iff_not, Decidable.not_not]

theorem pushWhole_wholeSize (ds : List Char) (c : Char) :
    (wholeSize ds).pushWhole (digitValue c) = wholeSize (ds ++ [c]) := by
  have hfits : (wholeSize ds).fits (digitValue c) = true ↔
      (taken 0 ds).2 = 0 ∧ (taken 0 ds).1 * 10 + digitValue c < Nat.pow 2 64 := by
    rw [fits_iff, wholeSize, full_eq_false_iff]
  by_cases h : (taken 0 ds).2 = 0 ∧ (taken 0 ds).1 * 10 + digitValue c < Nat.pow 2 64
  · rw [Magnitude.pushWhole, if_pos (hfits.mpr h), wholeSize, wholeSize, taken_concat, if_pos h,
      h.1]
  · rw [Magnitude.pushWhole, if_neg (mt hfits.mp h), wholeSize, wholeSize, taken_concat, if_neg h]
    rfl

theorem pushFraction_fractionSize (ds fs : List Char) (c : Char) :
    (fractionSize ds fs).pushFraction (digitValue c) = fractionSize ds (fs ++ [c]) := by
  have hle := taken_le_length (taken 0 ds).1 fs
  have hfits : (fractionSize ds fs).fits (digitValue c) = true ↔
      (taken (taken 0 ds).1 fs).2 = 0 ∧
        (taken (taken 0 ds).1 fs).1 * 10 + digitValue c < Nat.pow 2 64 := by
    rw [fits_iff, fractionSize, full_eq_false_iff]
  by_cases h : (taken (taken 0 ds).1 fs).2 = 0 ∧
      (taken (taken 0 ds).1 fs).1 * 10 + digitValue c < Nat.pow 2 64
  · rw [Magnitude.pushFraction, if_pos (hfits.mpr h), fractionSize, fractionSize, taken_concat,
      if_pos h, h.1, List.length_append, List.length_singleton]
    have hscale : ((taken 0 ds).2 : Int) - (fs.length - 0 : Nat) - 1 =
        (taken 0 ds).2 - (fs.length + 1 - 0 : Nat) := by omega
    exact congrArg (Magnitude.mk _ · false) hscale
  · rw [Magnitude.pushFraction, if_neg (mt hfits.mp h), fractionSize, fractionSize, taken_concat,
      if_neg h, List.length_append, List.length_singleton, Nat.add_sub_add_right]
    rfl

end Toolflow.Json
