import Mathlib.Data.List.Forall2
import Mathlib.Tactic.Common
import Toolflow.Json.Text
import Toolflow.Proofs.Json.Grammar

/-!
# Strings, read and written

* `hexDigit?_eq_some_iff`, `shortEscape?_eq_some_iff`   the tables of the reader are those of the
                     grammar;
* `toNat_cases`, `toNat_ofNat`, `toNat_pairedChar`   characters and their numbers;
* `Text.feed`        the text after some characters, if the string goes on at each of them;
* `feed_string`      the inside of a string is read to its last character;
* `Text.Reads t s`   `s` is what has been read since the opening quote.  Every step keeps this
                     (`Reads.step`), and where the string ends, `s` spells it (`Reads.ends`).
-/

namespace Toolflow.Json

/-! ## the tables -/

theorem hexDigit?_ofNat : ∀ k < 128, ∀ d ∈ hexDigit? (Char.ofNat k),
    "0123456789abcdef".toList[d]? = some (Char.ofNat k) ∨
      "0123456789ABCDEF".toList[d]? = some (Char.ofNat k) := by
  decide +kernel

theorem toNat_lt_of_hexDigit? {c : Char} {d : Nat} (h : hexDigit? c = some d) : c.toNat < 128 := by
  unfold hexDigit? at h
  split at h
  · next hc =>
    simp only [Char.isDigit, Bool.and_eq_true, decide_eq_true_eq, UInt32.le_iff_toNat_le] at hc
    exact Nat.lt_of_le_of_lt hc.2 (by decide)
  · split at h
    · next hc => exact Nat.lt_of_le_of_lt hc.2 (by decide)
    · split at h
      · next hc => exact Nat.lt_of_le_of_lt hc.2 (by decide)
      · cases h

theorem hexDigit?_getElem : ∀ d < 16,
    "0123456789abcdef".toList[d]?.map hexDigit? = some (some d) ∧
      "0123456789ABCDEF".toList[d]?.map hexDigit? = some (some d) := by
  decide +kernel

theorem HexDigit.lt {c : Char} {d : Nat} (h : HexDigit c d) : d < 16 := by
  rcases h with h | h
  · exact (List.getElem?_eq_some_iff.mp h).1
  · exact (List.getElem?_eq_some_iff.mp h).1

theorem hexDigit?_eq_some_iff {c : Char} {d : Nat} : hexDigit? c = some d ↔ HexDigit c d := by
  constructor
  · intro h
    have hc := hexDigit?_ofNat c.toNat (toNat_lt_of_hexDigit? h)
    rw [Char.ofNat_toNat] at hc
    exact hc d h
  · intro h
    obtain ⟨hlower, hupper⟩ := hexDigit?_getElem d h.lt
    rcases h with h | h
    · rw [h] at hlower
      exact Option.some.inj hlower
    · rw [h] at hupper
      exact Option.some.inj hupper

theorem HexDigit.utf8Size {c : Char} {d : Nat} (h : HexDigit c d) : c.utf8Size = 1 := by
  have hlt := toNat_lt_of_hexDigit? (hexDigit?_eq_some_iff.mpr h)
  rw [Char.utf8Size_eq_one_iff, UInt32.le_iff_toNat_le]
  exact Nat.le_of_lt_succ hlt

theorem shortEscape?_of_mem : ∀ p ∈ shortEscapes, p.1 ≠ 'u' ∧ shortEscape? p.1 = some p.2 := by
  decide

theorem shortEscape?_eq_some_iff {e c : Char} :
    shortEscape? e = some c ↔ (e, c) ∈ shortEscapes := by
  constructor
  · intro h
    unfold shortEscape? at h
    split at h
    all_goals
      cases h
    all_goals
      simp [shortEscapes]
  · intro h
    exact (shortEscape?_of_mem _ h).2

/-! ## units -/

theorem SpellsHex.nil : SpellsHex [] 0 := ⟨[], .nil, rfl⟩

theorem SpellsHex.concat {t : List Char} {n : Nat} (h : SpellsHex t n) {c : Char} {d : Nat}
    (hc : HexDigit c d) : SpellsHex (t ++ [c]) (n * 16 + d) := by
  obtain ⟨ds, hds, rfl⟩ := h
  exact ⟨ds ++ [d], List.rel_append hds (.cons hc .nil), by simp⟩

/-- a unit is written with four digits -/
theorem SpellsUnit.digits {t : List Char} {unit : Nat} (h : SpellsUnit t unit) :
    ∃ a b c d x y z w, t = [a, b, c, d] ∧ HexDigit a x ∧ HexDigit b y ∧ HexDigit c z ∧
      HexDigit d w ∧ unit = ((x * 16 + y) * 16 + z) * 16 + w := by
  obtain ⟨hlen, ds, hds, rfl⟩ := h
  obtain ⟨a, b, c, d, rfl⟩ := List.length_eq_four.mp hlen
  obtain ⟨x, ds₁, ha, h₁, rfl⟩ := List.forall₂_cons_left_iff.mp hds
  obtain ⟨y, ds₂, hb, h₂, rfl⟩ := List.forall₂_cons_left_iff.mp h₁
  obtain ⟨z, ds₃, hc, h₃, rfl⟩ := List.forall₂_cons_left_iff.mp h₂
  obtain ⟨w, ds₄, hd, h₄, rfl⟩ := List.forall₂_cons_left_iff.mp h₃
  cases List.forall₂_nil_left_iff.mp h₄
  exact ⟨a, b, c, d, x, y, z, w, rfl, ha, hb, hc, hd, by simp⟩

theorem SpellsUnit.lt {t : List Char} {unit : Nat} (h : SpellsUnit t unit) : unit < 0x10000 := by
  obtain ⟨a, b, c, d, x, y, z, w, -, ha, hb, hc, hd, rfl⟩ := h.digits
  have hx := ha.lt
  have hy := hb.lt
  have hz := hc.lt
  have hw := hd.lt
  omega

theorem toNat_cases (c : Char) : c.toNat < 0xD800 ∨ 0xDFFF < c.toNat ∧ c.toNat < 0x110000 :=
  c.valid

theorem toNat_ofNat {n : Nat} (h : n < 0xD800 ∨ 0xDFFF < n ∧ n < 0x110000) :
    (Char.ofNat n).toNat = n := by
  have hvalid : n.isValidChar := h
  rw [Char.ofNat, dif_pos hvalid]
  rfl

theorem isHighSurrogate_iff {unit : Nat} :
    isHighSurrogate unit = true ↔ 0xD800 ≤ unit ∧ unit < 0xDC00 := decide_eq_true_iff

theorem isLowSurrogate_iff {unit : Nat} :
    isLowSurrogate unit = true ↔ 0xDC00 ≤ unit ∧ unit < 0xE000 := decide_eq_true_iff

theorem toNat_pairedChar {high low : Nat} (hhigh : isHighSurrogate high = true)
    (hlow : isLowSurrogate low = true) :
    (pairedChar high low).toNat = 0x10000 + (high - 0xD800) * 0x400 + (low - 0xDC00) := by
  rw [isHighSurrogate_iff] at hhigh
  rw [isLowSurrogate_iff] at hlow
  exact toNat_ofNat (.inr (by omega))

theorem isHighSurrogate_highUnit {c : Char} (h : 0x10000 ≤ c.toNat) :
    isHighSurrogate (highUnit c) = true := by
  have hc := toNat_cases c
  rw [isHighSurrogate_iff]
  unfold highUnit
  omega

theorem isLowSurrogate_lowUnit (c : Char) : isLowSurrogate (lowUnit c) = true := by
  rw [isLowSurrogate_iff]
  unfold lowUnit
  omega

theorem pairedChar_units {c : Char} (h : 0x10000 ≤ c.toNat) :
    pairedChar (highUnit c) (lowUnit c) = c := by
  have hsum : 0x10000 + (highUnit c - 0xD800) * 0x400 + (lowUnit c - 0xDC00) = c.toNat := by
    unfold highUnit lowUnit
    omega
  rw [pairedChar, hsum, Char.ofNat_toNat]

/-! ## strings in pieces -/

theorem SpellsString.nil : SpellsString [] [] :=
  ⟨[], List.forall_mem_nil _, rfl, rfl⟩

theorem SpellsString.concat {t s : List Char} (h : SpellsString t s) {p : List Char} {c : Char}
    (hp : SpellsChar p c) : SpellsString (t ++ p) (s ++ [c]) := by
  obtain ⟨pieces, hpieces, rfl, rfl⟩ := h
  have hall : ∀ q ∈ pieces ++ [(p, c)], SpellsChar q.1 q.2 :=
    List.forall_mem_append.mpr ⟨hpieces, List.forall_mem_singleton.mpr hp⟩
  exact ⟨pieces ++ [(p, c)], hall, by simp, by simp⟩

theorem SpellsString.cons {p t s : List Char} {c : Char} (hp : SpellsChar p c)
    (h : SpellsString t s) : SpellsString (p ++ t) (c :: s) := by
  obtain ⟨pieces, hpieces, rfl, rfl⟩ := h
  exact ⟨(p, c) :: pieces, List.forall_mem_cons.mpr ⟨hp, hpieces⟩, rfl, rfl⟩

/-- characters that need no escape spell themselves -/
theorem SpellsString.plain {t : List Char}
    (h : t.all (fun c => 0x20 ≤ c.toNat ∧ c ≠ '"' ∧ c ≠ '\\') = true) : SpellsString t t := by
  induction t with
  | nil => exact .nil
  | cons c rest ih =>
    rw [List.all_cons, Bool.and_eq_true, decide_eq_true_iff] at h
    obtain ⟨⟨hge, hquote, hback⟩, hrest⟩ := h
    exact .cons (.plain hge hquote hback) (ih hrest)

namespace Text

/-! ## a string is read to its end -/

def Progress.more? : Progress → Option Text
  | .more t => some t
  | _ => none

/-- the text after these characters, if the string goes on at each of them -/
def feed (t : Text) (s : List Char) : Option Text :=
  s.foldlM (fun t c => (t.step c).more?) t

theorem feed_cons {t t' : Text} {c : Char} (h : t.step c = .more t') (rest : List Char) :
    t.feed (c :: rest) = t'.feed rest := by
  rw [feed, List.foldlM_cons, h]
  rfl

theorem feed_cons_eq_some {t t' : Text} {c : Char} {rest : List Char}
    (h : t.feed (c :: rest) = some t') : ∃ m, t.step c = .more m ∧ m.feed rest = some t' := by
  rw [feed, List.foldlM_cons] at h
  cases hstep : t.step c with
  | more m =>
    rw [hstep] at h
    exact ⟨m, rfl, h⟩
  | ends | stops =>
    rw [hstep] at h
    cases h

theorem feed_append {t t' : Text} {s : List Char} (h : t.feed s = some t') (rest : List Char) :
    t.feed (s ++ rest) = t'.feed rest := by
  rw [feed, List.foldlM_append]
  exact congrArg (fun m => m.bind fun t => t.feed rest) h

theorem step_digit {chars : List Char} {high : Option Nat} {bytes u : Nat} {c : Char} {d : Nat}
    (hc : HexDigit c d) (hbytes : bytes + 1 < 4) :
    (Text.mk chars (.digits high bytes (some u))).step c =
      .more ⟨chars, .digits high (bytes + 1) (some (u * 16 + d))⟩ := by
  simp only [step, hc.utf8Size, hexDigit?_eq_some_iff.mpr hc, if_pos hbytes, Option.bind_some,
    Option.map_some]

theorem step_lastDigit {chars : List Char} {high : Option Nat} {u : Nat} {c : Char} {d : Nat}
    (hc : HexDigit c d) :
    (Text.mk chars (.digits high 3 (some u))).step c =
      pushUnit chars high (u * 16 + d) ⟨.loneSurrogate, 1⟩ := by
  simp only [step, hc.utf8Size, hexDigit?_eq_some_iff.mpr hc, Option.bind_some, Option.map_some]
  rfl

theorem feed_unit {chars : List Char} {high : Option Nat} {t : List Char} {unit : Nat} {t' : Text}
    (h : SpellsUnit t unit) (hpush : pushUnit chars high unit ⟨.loneSurrogate, 1⟩ = .more t') :
    (Text.mk chars (.digits high 0 (some 0))).feed t = some t' := by
  obtain ⟨a, b, c, d, x, y, z, w, rfl, ha, hb, hc, hd, rfl⟩ := h.digits
  rw [feed_cons (step_digit ha (by decide)), feed_cons (step_digit hb (by decide)),
    feed_cons (step_digit hc (by decide))]
  refine feed_cons ((step_lastDigit hd).trans ?_) []
  rwa [Nat.zero_mul, Nat.zero_add]

theorem pushUnit_char (chars : List Char) (c : Char) (lone : Stop) :
    pushUnit chars none c.toNat lone = .more ⟨c :: chars, .plain⟩ := by
  have hc := toNat_cases c
  have hhigh : ¬ isHighSurrogate c.toNat = true := by
    rw [isHighSurrogate_iff]
    omega
  have hlow : ¬ isLowSurrogate c.toNat = true := by
    rw [isLowSurrogate_iff]
    omega
  simp only [pushUnit, if_neg hhigh, if_neg hlow, Char.ofNat_toNat, push]

theorem feed_char {chars t : List Char} {c : Char} (h : SpellsChar t c) :
    (Text.mk chars .plain).feed t = some ⟨c :: chars, .plain⟩ := by
  have hslash : (Text.mk chars .plain).step '\\' = .more ⟨chars, .backslash⟩ := rfl
  cases h with
  | plain hge hquote hback =>
    have hstep : (Text.mk chars .plain).step c = .more ⟨c :: chars, .plain⟩ := by
      simp only [step, if_neg hquote, if_neg hback, if_neg (Nat.not_lt.mpr hge), push]
    exact feed_cons hstep []
  | @short e _ hmem =>
    obtain ⟨hu, he⟩ := shortEscape?_of_mem _ hmem
    have hstep : (Text.mk chars .backslash).step e = .more ⟨c :: chars, .plain⟩ := by
      simp only [step, if_neg hu, he, push]
    rw [feed_cons hslash]
    exact feed_cons hstep []
  | unit hunit =>
    rw [feed_cons hslash, feed_cons rfl]
    exact feed_unit hunit (pushUnit_char chars c _)
  | @pair high low _ hge hhigh hlow =>
    -- the first unit is kept until the second one is there
    have hfirst : pushUnit chars none (highUnit c) ⟨.loneSurrogate, 1⟩ =
        .more ⟨chars, .surrogate (highUnit c)⟩ := by
      simp only [pushUnit, isHighSurrogate_highUnit hge, ite_true]
    have hsecond : pushUnit chars (some (highUnit c)) (lowUnit c) ⟨.loneSurrogate, 1⟩ =
        .more ⟨c :: chars, .plain⟩ := by
      simp only [pushUnit, isLowSurrogate_lowUnit, ite_true, pairedChar_units hge, push]
    have hunits : (Text.mk chars .plain).feed ('\\' :: 'u' :: high) =
        some ⟨chars, .surrogate (highUnit c)⟩ := by
      rw [feed_cons hslash, feed_cons rfl]
      exact feed_unit hhigh hfirst
    rw [feed_append hunits, feed_cons rfl, feed_cons rfl]
    exact feed_unit hlow hsecond

theorem feed_string {chars t s : List Char} (h : SpellsString t s) :
    (Text.mk chars .plain).feed t = some ⟨s.reverse ++ chars, .plain⟩ := by
  obtain ⟨pieces, hpieces, rfl, rfl⟩ := h
  induction pieces generalizing chars with
  | nil => rfl
  | cons p rest ih =>
    obtain ⟨hp, hrest⟩ := List.forall_mem_cons.mp hpieces
    rw [List.flatMap_cons, feed_append (feed_char hp), ih hrest]
    simp

/-! ## what has been read -/

/-- a high surrogate and how it is written, where there is one -/
inductive HighRead : Option Nat → List Char → Prop
  | none : HighRead .none []
  | some {unit : Nat} {t : List Char} : isHighSurrogate unit = true → SpellsUnit t unit →
      HighRead (.some unit) ('\\' :: 'u' :: t)

/-- these characters have been read since the opening quote -/
inductive Reads : Text → List Char → Prop
  | plain {chars t : List Char} : SpellsString t chars.reverse → Reads ⟨chars, .plain⟩ t
  | backslash {chars t : List Char} : SpellsString t chars.reverse →
      Reads ⟨chars, .backslash⟩ (t ++ ['\\'])
  | digits {chars t front hs : List Char} {high units : Option Nat} {bytes : Nat} :
      SpellsString t chars.reverse → HighRead high front → bytes < 4 →
      (∀ u ∈ units, hs.length = bytes ∧ SpellsHex hs u) →
      Reads ⟨chars, .digits high bytes units⟩ (t ++ (front ++ '\\' :: 'u' :: hs))
  | surrogate {chars t front : List Char} {high : Nat} : SpellsString t chars.reverse →
      HighRead (some high) front → Reads ⟨chars, .surrogate high⟩ (t ++ front)
  | surrogateBackslash {chars t front : List Char} {high : Nat} :
      SpellsString t chars.reverse → HighRead (some high) front →
      Reads ⟨chars, .surrogateBackslash high⟩ (t ++ (front ++ ['\\']))

theorem reads_empty : Reads .empty [] := .plain .nil

theorem reads_push {chars t p : List Char} {c : Char} (h : SpellsString t chars.reverse)
    (hp : SpellsChar p c) : Reads ⟨c :: chars, .plain⟩ (t ++ p) := by
  refine .plain ?_
  rw [List.reverse_cons]
  exact h.concat hp

theorem reads_noDigit {chars t front : List Char} {high : Option Nat}
    (h : SpellsString t chars.reverse) (hfront : HighRead high front) :
    Reads ⟨chars, .digits high 0 (some 0)⟩ (t ++ (front ++ ['\\', 'u'])) := by
  refine .digits h hfront (by decide) fun u hu => ?_
  cases hu
  exact ⟨rfl, .nil⟩

/-- the four digits of a unit have been read -/
theorem reads_pushUnit {chars t front hs : List Char} {high : Option Nat} {unit : Nat} {lone : Stop}
    {tx : Text} (h : SpellsString t chars.reverse) (hfront : HighRead high front)
    (hunit : SpellsUnit hs unit) (hpush : pushUnit chars high unit lone = .more tx) :
    Reads tx (t ++ (front ++ '\\' :: 'u' :: hs)) := by
  cases hfront with
  | none =>
    rw [List.nil_append]
    simp only [pushUnit] at hpush
    split at hpush
    · next hhigh =>
      cases hpush
      exact .surrogate h (.some hhigh hunit)
    · next hhigh =>
      split at hpush
      · cases hpush
      · next hlow =>
        cases hpush
        have hc : (Char.ofNat unit).toNat = unit := by
          have hlt := hunit.lt
          rw [isHighSurrogate_iff] at hhigh
          rw [isLowSurrogate_iff] at hlow
          exact toNat_ofNat (by omega)
        refine reads_push h (.unit ?_)
        rw [hc]
        exact hunit
  | @some first hi hhigh hhi =>
    simp only [pushUnit] at hpush
    split at hpush
    · next hlow =>
      cases hpush
      have hc := toNat_pairedChar hhigh hlow
      have hhighUnit : highUnit (pairedChar first unit) = first := by
        rw [isHighSurrogate_iff] at hhigh
        rw [isLowSurrogate_iff] at hlow
        unfold highUnit
        omega
      have hlowUnit : lowUnit (pairedChar first unit) = unit := by
        rw [isHighSurrogate_iff] at hhigh
        rw [isLowSurrogate_iff] at hlow
        unfold lowUnit
        omega
      refine reads_push h (.pair ?_ ?_ ?_)
      · omega
      · rw [hhighUnit]
        exact hhi
      · rw [hlowUnit]
        exact hunit
    · cases hpush

theorem Reads.step {tx tx' : Text} {s : List Char} {c : Char} (h : Reads tx s)
    (hstep : tx.step c = .more tx') : Reads tx' (s ++ [c]) := by
  cases h with
  | plain h =>
    simp only [Text.step] at hstep
    split at hstep
    · cases hstep
    · next hquote =>
      split at hstep
      · next hc =>
        cases hstep
        rw [hc]
        exact .backslash h
      · next hback =>
        split at hstep
        · cases hstep
        · next hge =>
          cases hstep
          exact reads_push h (.plain (Nat.le_of_not_lt hge) hquote hback)
  | backslash h =>
    rw [List.append_assoc]
    simp only [Text.step] at hstep
    split at hstep
    · next hc =>
      cases hstep
      rw [hc]
      exact reads_noDigit h .none
    · split at hstep
      · next e he =>
        cases hstep
        exact reads_push h (.short (shortEscape?_eq_some_iff.mp he))
      · cases hstep
  | @digits _ t front hs high units bytes h hfront hbytes hhs =>
    rw [List.append_assoc, List.append_assoc, List.cons_append, List.cons_append]
    -- as long as all are digits they have one byte each, so that four bytes are four digits
    have hnext : ∀ u ∈ units.bind (fun u => (hexDigit? c).map fun d => u * 16 + d),
        c.utf8Size = 1 ∧ (hs ++ [c]).length = bytes + 1 ∧ SpellsHex (hs ++ [c]) u := by
      intro u hu
      obtain ⟨u', hu', hmap⟩ := Option.bind_eq_some_iff.mp hu
      obtain ⟨d, hd, rfl⟩ := Option.map_eq_some_iff.mp hmap
      obtain ⟨hlen, hhex⟩ := hhs u' hu'
      have hdigit := hexDigit?_eq_some_iff.mp hd
      refine ⟨hdigit.utf8Size, ?_, hhex.concat hdigit⟩
      rw [List.length_append, hlen, List.length_singleton]
    simp only [Text.step] at hstep
    split at hstep
    · next hlt =>
      cases hstep
      refine .digits h hfront hlt fun u hu => ?_
      obtain ⟨hsize, hlen, hhex⟩ := hnext u hu
      exact ⟨by rw [hsize, hlen], hhex⟩
    · next hend =>
      split at hstep
      · next unit hunit =>
        obtain ⟨hsize, hlen, hhex⟩ := hnext unit hunit
        have hfour : (hs ++ [c]).length = 4 := by omega
        exact reads_pushUnit h hfront ⟨hfour, hhex⟩ hstep
      · cases hstep
  | surrogate h hfront =>
    rw [List.append_assoc]
    simp only [Text.step] at hstep
    split at hstep
    · next hc =>
      cases hstep
      rw [hc]
      exact .surrogateBackslash h hfront
    · cases hstep
  | surrogateBackslash h hfront =>
    rw [List.append_assoc, List.append_assoc]
    simp only [Text.step] at hstep
    split at hstep
    · next hc =>
      cases hstep
      rw [hc]
      exact reads_noDigit h hfront
    · cases hstep

theorem pushUnit_ne_ends (chars : List Char) (high : Option Nat) (unit : Nat) (lone : Stop)
    (v : String) : pushUnit chars high unit lone ≠ .ends v := by
  intro h
  unfold pushUnit push at h
  split at h
  · split at h
    · cases h
    · split at h <;> cases h
  · split at h <;> cases h

theorem step_eq_ends {tx : Text} {c : Char} {v : String} (h : tx.step c = .ends v) :
    tx.escape = .plain ∧ c = '"' ∧ v = String.ofList tx.chars.reverse := by
  unfold Text.step at h
  split at h
  · next hplain =>
    split at h
    · next hc =>
      cases h
      exact ⟨hplain, hc, rfl⟩
    · split at h
      · cases h
      · split at h <;> cases h
  · split at h
    · cases h
    · split at h <;> cases h
  · split at h
    · cases h
    · dsimp only at h
      split at h
      · exact absurd h (pushUnit_ne_ends _ _ _ _ _)
      · cases h
  · split at h <;> cases h
  · split at h <;> cases h

/-- a string ends at its closing quote -/
theorem Reads.ends {tx : Text} {s : List Char} {c : Char} {v : String} (h : Reads tx s)
    (hstep : tx.step c = .ends v) :
    c = '"' ∧ ∃ chars, SpellsString s chars ∧ v = String.ofList chars := by
  obtain ⟨hplain, hc, hv⟩ := step_eq_ends hstep
  cases h with
  | plain h => exact ⟨hc, _, h, hv⟩
  | backslash | digits | surrogate | surrogateBackslash => cases hplain

end Text

end Toolflow.Json
