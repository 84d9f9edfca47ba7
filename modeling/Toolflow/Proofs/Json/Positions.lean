import Mathlib.Data.List.Induction
import Toolflow.Compile
import Toolflow.Proofs.Json.Completeness

/-!
# Where a text becomes hopeless

The place of a failure is a number of bytes, and the reader takes characters.  All that was read
before the character of the failure stands in the bytes before that place, but of this character
itself there may be only some.

* `bytesOf`              the bytes of some characters; `isPrefix_of_bytesOf` reads them back;
* `Reader.Fails`         a text fails at its end or at one of its characters;
* `Reader.ahead_le`      at a character the place is no further than right behind it;
* `Reader.step_of_wide`  when the place and one byte more are inside of a character, every other
                         character that is as wide fails in the same way;
* `Reader.run_of_agree`  so a text that agrees up to one byte behind the place fails there too;
* `Locates`              a place in a text with its line and its column;
* `refused_where_hopeless`  every refusal of a text.
-/

namespace Toolflow.Json

/-! ## bytes -/

def bytesOf (s : List Char) : List UInt8 := s.flatMap String.utf8EncodeChar

theorem bytesOf_append (a b : List Char) : bytesOf (a ++ b) = bytesOf a ++ bytesOf b :=
  List.flatMap_append

theorem length_bytesOf_cons (c : Char) (s : List Char) :
    (bytesOf (c :: s)).length = c.utf8Size + (bytesOf s).length := by
  rw [bytesOf, List.flatMap_cons, List.length_append, String.length_utf8EncodeChar]
  rfl

theorem bytesOf_toList (t : String) : t.toUTF8.data.toList = bytesOf t.toList := by
  have hbytes : t.toUTF8 = (bytesOf t.toList).toByteArray := String.utf8Encode_toList.symm
  rw [hbytes, List.data_toByteArray]

/-- the characters are read back from their bytes -/
theorem isPrefix_of_bytesOf {a b : List Char} (h : bytesOf a <+: bytesOf b) : a <+: b := by
  obtain ⟨rest, hrest⟩ := h
  refine List.isPrefix_of_utf8Encode_append_eq_utf8Encode rest.toByteArray ?_
  rw [List.utf8Encode, List.utf8Encode, ← List.toByteArray_append]
  exact congrArg List.toByteArray hrest

/-- what stands in the bytes that two texts share is in both -/
theorem isPrefix_of_agree {a s s' : List Char} {n : Nat} (ha : a <+: s)
    (hlength : (bytesOf a).length ≤ n) (hagree : (bytesOf s').take n = (bytesOf s).take n) :
    a <+: s' := by
  obtain ⟨rest, rfl⟩ := ha
  have hbytes : bytesOf a <+: bytesOf (a ++ rest) := by
    rw [bytesOf_append]
    exact List.prefix_append _ _
  have hshared : bytesOf a <+: (bytesOf s').take n := by
    rw [hagree]
    exact List.prefix_take_iff.mpr ⟨hbytes, hlength⟩
  exact isPrefix_of_bytesOf (List.prefix_take_iff.mp hshared).1

/-- a character that lies in the bytes that two texts share stands in both -/
theorem eq_of_agree {a s s' : List Char} {c c' : Char} {n : Nat}
    (hlength : (bytesOf a).length + c.utf8Size ≤ n)
    (hagree : (bytesOf (a ++ c' :: s')).take n = (bytesOf (a ++ c :: s)).take n) : c = c' := by
  have hprefix : a ++ [c] <+: a ++ c' :: s' := by
    refine isPrefix_of_agree ⟨s, by simp⟩ ?_ hagree
    rwa [bytesOf_append, List.length_append, length_bytesOf_cons]
  exact (List.cons_prefix_cons.mp ((List.prefix_append_right_inj a).mp hprefix)).1

/-! ## wide characters -/

section
variable {c : Char} (hc : 1 < c.utf8Size)
include hc

theorem eq_iff_false_of_wide {d : Char} (hd : d.utf8Size = 1) : c = d ↔ False := by
  refine iff_false_intro fun h => ?_
  rw [h, hd] at hc
  exact Nat.lt_irrefl 1 hc

theorem le_toNat_of_wide : 128 ≤ c.toNat := by
  by_contra hlt
  have hval : c.val ≤ 127 := UInt32.le_iff_toNat_le.mpr (by
    show c.toNat ≤ 127
    omega)
  rw [Char.utf8Size_eq_one_iff.mpr hval] at hc
  exact Nat.lt_irrefl 1 hc

theorem digit?_of_wide : digit? c = none := by
  rw [digit?_eq_none_iff, ← Bool.not_eq_true, Char.isDigit_iff_toNat]
  have hle := le_toNat_of_wide hc
  have hnine : '9'.toNat = 57 := rfl
  omega

theorem hexDigit?_of_wide : hexDigit? c = none := by
  cases h : hexDigit? c with
  | none => rfl
  | some d =>
    have hlt := toNat_lt_of_hexDigit? h
    have hle := le_toNat_of_wide hc
    omega

theorem isBlank_of_wide : Reader.isBlank c = false := by
  simp (disch := decide) [Reader.isBlank, eq_iff_false_of_wide hc]

theorem shortEscape?_of_wide : shortEscape? c = none := by
  unfold shortEscape?
  split
  all_goals first | rfl | exact absurd hc (by decide)

end

/-! ## numbers and strings -/

/-- no wide character belongs to a number -/
theorem Numeral.step_congr_of_wide {c c' : Char} (hc : 1 < c.utf8Size) (hc' : 1 < c'.utf8Size)
    (n : Numeral) : n.step c = n.step c' := by
  cases n <;> simp (disch := decide) only [Numeral.step, Numeral.afterDigits, digit?_of_wide hc,
    digit?_of_wide hc', eq_iff_false_of_wide hc, eq_iff_false_of_wide hc', if_false, false_and,
    or_self]

theorem Numeral.ahead_of_stops {n : Numeral} {c : Char} {stop : Stop}
    (h : n.step c = .stops stop) : stop.ahead = 1 := by
  cases n <;> grind [Numeral.step, Numeral.afterDigits, Numeral.pushExponent, Stop.past]

namespace Text

theorem eq_of_pushUnit_stops {chars : List Char} {high : Option Nat} {unit : Nat} {lone stop : Stop}
    (h : pushUnit chars high unit lone = .stops stop) : stop = lone := by
  unfold pushUnit push at h
  cases high with
  | none =>
    split_ifs at h
    exact (Progress.stops.inj h).symm
  | some hi =>
    simp only at h
    split_ifs at h
    exact (Progress.stops.inj h).symm

/-- the fourth byte of an escape, counted from a character that reaches it, is in that character -/
theorem ahead_le {t : Text} {c : Char} {stop : Stop} (h : t.step c = .stops stop) :
    stop.ahead ≤ c.utf8Size := by
  have hpos := c.utf8Size_pos
  obtain ⟨chars, escape⟩ := t
  cases escape with
  | plain => grind [step, push, Stop.past]
  | backslash => grind [step, push, Stop.past]
  | surrogate => grind [step, Stop.past]
  | surrogateBackslash => grind [step, Stop.past]
  | digits high bytes units =>
    simp only [step] at h
    split_ifs at h with hshort
    split at h
    · rw [eq_of_pushUnit_stops h]
      exact Nat.sub_le_of_le_add (by omega)
    · rw [← Progress.stops.inj h]
      exact Nat.sub_le_of_le_add (by omega)

theorem step_of_wide {t : Text} {c c' : Char} {stop : Stop} (h : t.step c = .stops stop)
    (hc : stop.ahead + 1 < c.utf8Size) (hc' : stop.ahead + 1 < c'.utf8Size) :
    t.step c' = .stops stop := by
  have hwide : 1 < c.utf8Size := by omega
  have hwide' : 1 < c'.utf8Size := by omega
  rw [← h]
  obtain ⟨chars, escape⟩ := t
  cases escape with
  | plain =>
    have hle := le_toNat_of_wide hwide
    simp (disch := decide) only [step, eq_iff_false_of_wide hwide, if_false,
      if_neg (show ¬ c.toNat < 0x20 by omega), push] at h
    cases h
  | backslash =>
    simp (disch := decide) only [step, eq_iff_false_of_wide hwide, eq_iff_false_of_wide hwide',
      shortEscape?_of_wide hwide, shortEscape?_of_wide hwide', if_false]
  | surrogate high =>
    simp (disch := decide) only [step, eq_iff_false_of_wide hwide, eq_iff_false_of_wide hwide',
      if_false]
  | surrogateBackslash high =>
    simp (disch := decide) only [step, eq_iff_false_of_wide hwide, eq_iff_false_of_wide hwide',
      if_false]
  | digits high bytes units =>
    have hunits (x : Char) (hx : 1 < x.utf8Size) :
        (units.bind fun u => (hexDigit? x).map fun d => u * 16 + d) = none := by
      cases units <;> simp [hexDigit?_of_wide hx]
    simp only [step, hunits c hwide] at h
    split_ifs at h with hshort
    cases h
    simp only [step, hunits c hwide, hunits c' hwide', if_neg hshort]
    exact if_neg (by simp only at hc'; omega)

end Text

/-! ## the reader -/

namespace Reader

variable {limit : Nat}

theorem beginValue_of_wide {c : Char} (hc : 1 < c.utf8Size) (frames : List Frame) :
    beginValue limit frames c = .error (.past .expectedValue) := by
  simp (disch := decide) only [beginValue, Numeral.start?, digit?_of_wide hc,
    eq_iff_false_of_wide hc, if_false, Option.map_none]

theorem follow_congr_of_wide {c c' : Char} (hc : 1 < c.utf8Size) (hc' : 1 < c'.utf8Size)
    (v : Json) (frames : List Frame) : follow v frames c = follow v frames c' := by
  cases frames with
  | nil => simp only [follow, isBlank_of_wide hc, isBlank_of_wide hc']
  | cons frame outer =>
    cases frame <;> simp (disch := decide) only [follow, isBlank_of_wide hc, isBlank_of_wide hc',
      eq_iff_false_of_wide hc, eq_iff_false_of_wide hc', if_false]

/-- the three words are of characters of one byte -/
def Spelled : Reader → Prop
  | .word next rest _ _ => ∀ x ∈ next :: rest, x.utf8Size = 1
  | _ => True

theorem spelled_word {next : Char} {rest : List Char} (v : Json) (frames : List Frame)
    (h : (next :: rest).all (·.utf8Size == 1) = true) : (Reader.word next rest v frames).Spelled :=
  fun x hx => eq_of_beq (List.all_eq_true.mp h x hx)

theorem spelled_beginValue {frames : List Frame} {c : Char} {r : Reader}
    (h : beginValue limit frames c = .ok r) : r.Spelled := by
  unfold beginValue at h
  split_ifs at h
  case pos => cases h; trivial
  case pos => cases h; trivial
  case pos => cases h; trivial
  case pos => cases h; exact spelled_word _ _ rfl
  case pos => cases h; exact spelled_word _ _ rfl
  case pos => cases h; exact spelled_word _ _ rfl
  cases hstart : Numeral.start? c with
  | some n =>
    rw [hstart] at h
    cases h
    trivial
  | none =>
    rw [hstart] at h
    cases h

theorem spelled_follow {v : Json} {frames : List Frame} {c : Char} {r : Reader}
    (h : follow v frames c = .ok r) : r.Spelled := by
  cases frames with
  | nil => grind [follow, Spelled]
  | cons frame outer => cases frame <;> grind [follow, Spelled]

theorem spelled_closeText (purpose : Purpose) (s : String) (frames : List Frame) :
    (closeText purpose s frames).Spelled := by
  cases purpose <;> trivial

theorem Spelled.step {r r' : Reader} {c : Char} (hr : r.Spelled) (h : r.step limit c = .ok r') :
    r'.Spelled := by
  cases r with
  | word next rest v frames =>
    cases rest with
    | nil => grind [Reader.step, Spelled]
    | cons x rest => grind [Reader.step, Spelled]
  | done v frames => exact spelled_follow h
  | numeral n frames => grind [Reader.step, Spelled, spelled_follow]
  | text purpose t frames => grind [Reader.step, Spelled, spelled_closeText]
  | _ => grind [Reader.step, Spelled, spelled_beginValue]

theorem spelled_start : start.Spelled := trivial

theorem Spelled.feed {r r' : Reader} {s : List Char} (hr : r.Spelled)
    (h : r.feed limit s = .ok r') : r'.Spelled := by
  induction s generalizing r with
  | nil =>
    cases h
    exact hr
  | cons c rest ih =>
    cases hstep : r.step limit c with
    | ok m =>
      rw [feed_cons hstep] at h
      exact ih (hr.step hstep) h
    | error stop => simp [Reader.feed, hstep, bind, Except.bind] at h

theorem beginValue_stops {frames : List Frame} {c : Char} {stop : Stop}
    (h : beginValue limit frames c = .error stop) : stop.ahead = 1 := by
  grind [beginValue, Stop.past]

theorem follow_stops {v : Json} {frames : List Frame} {c : Char} {stop : Stop}
    (h : follow v frames c = .error stop) : stop.ahead = 1 := by
  cases frames with
  | nil => grind [follow, Stop.past]
  | cons frame outer => cases frame <;> grind [follow, Stop.past]

theorem ahead_le {r : Reader} {c : Char} {stop : Stop} (h : r.step limit c = .error stop) :
    stop.ahead ≤ c.utf8Size := by
  have hpos := c.utf8Size_pos
  cases r with
  | text purpose t frames => grind [step, → Text.ahead_le]
  | numeral n frames => grind [step, Numeral.ahead_of_stops, follow_stops, Stop.before]
  | done v frames => grind [step, follow_stops]
  | word next rest v frames => cases rest <;> grind [step, Stop.past]
  | _ => grind [step, beginValue_stops, Stop.past]

theorem step_of_wide {r : Reader} (hr : r.Spelled) {c c' : Char} {stop : Stop}
    (h : r.step limit c = .error stop) (hc : stop.ahead + 1 < c.utf8Size)
    (hc' : stop.ahead + 1 < c'.utf8Size) : r.step limit c' = .error stop := by
  have hwide : 1 < c.utf8Size := by omega
  have hwide' : 1 < c'.utf8Size := by omega
  cases r with
  | text purpose t frames =>
    have hstops : t.step c = .stops stop := by grind [step]
    simp only [step, Text.step_of_wide hstops hc hc']
  | numeral n frames =>
    rw [← h]
    simp only [step, Numeral.step_congr_of_wide hwide hwide', follow_congr_of_wide hwide hwide']
  | done v frames =>
    rw [← h]
    exact (follow_congr_of_wide hwide hwide' v frames).symm
  | word next rest v frames =>
    have hnext := hr next List.mem_cons_self
    simp only [step, ne_eq, eq_iff_false_of_wide hwide hnext, not_false_eq_true, if_true] at h
    simp only [step, ne_eq, eq_iff_false_of_wide hwide' hnext, not_false_eq_true, if_true, h]
  | _ =>
    rw [← h]
    simp (disch := decide) only [step, isBlank_of_wide hwide, isBlank_of_wide hwide',
      eq_iff_false_of_wide hwide, eq_iff_false_of_wide hwide', beginValue_of_wide hwide,
      beginValue_of_wide hwide', if_false]

/-! ## whole texts -/

/-- a text fails at its end, or at one of its characters -/
inductive Fails (limit : Nat) (r : Reader) (s : List Char) : Cause → Nat → Prop
  | finish {r' : Reader} {cause : Cause} : r.feed limit s = .ok r' → r'.finish = .error cause →
      Fails limit r s cause (bytesOf s).length
  | step {read rest : List Char} {c : Char} {r' : Reader} {stop : Stop} :
      s = read ++ c :: rest → r.feed limit read = .ok r' → r'.step limit c = .error stop →
      Fails limit r s stop.cause ((bytesOf read).length + stop.ahead)

theorem Fails.cons {r r' : Reader} {c : Char} {s : List Char} {cause : Cause} {p : Nat}
    (hstep : r.step limit c = .ok r') (h : Fails limit r' s cause p) :
    Fails limit r (c :: s) cause (c.utf8Size + p) := by
  cases h with
  | finish hfeed hfinish =>
    rw [← length_bytesOf_cons]
    exact .finish ((feed_cons hstep s).trans hfeed) hfinish
  | step hs hfeed hstop =>
    rw [← Nat.add_assoc, ← length_bytesOf_cons]
    exact .step (congrArg (c :: ·) hs) ((feed_cons hstep _).trans hfeed) hstop

theorem fails_of_run {r : Reader} {offset : Nat} {s : List Char} {cause : Cause} {p : Nat}
    (h : r.run limit offset s = .error (cause, p)) :
    ∃ q, p = offset + q ∧ Fails limit r s cause q := by
  induction s generalizing r offset with
  | nil =>
    rw [run] at h
    cases hfinish : r.finish with
    | ok v => simp [hfinish] at h
    | error why =>
      simp only [hfinish, Except.error.injEq, Prod.mk.injEq] at h
      obtain ⟨rfl, rfl⟩ := h
      exact ⟨0, rfl, .finish (feed_nil r) hfinish⟩
  | cons c rest ih =>
    rw [run] at h
    cases hstep : r.step limit c with
    | ok r' =>
      rw [hstep] at h
      obtain ⟨q, rfl, hq⟩ := ih h
      exact ⟨c.utf8Size + q, Nat.add_assoc _ _ _, hq.cons hstep⟩
    | error stop =>
      simp only [hstep, Except.error.injEq, Prod.mk.injEq] at h
      obtain ⟨rfl, rfl⟩ := h
      rw [← Nat.zero_add stop.ahead]
      have hfails : Fails limit r (c :: rest) stop.cause ((bytesOf []).length + stop.ahead) :=
        .step rfl (feed_nil r) hstep
      exact ⟨_, rfl, hfails⟩

theorem run_of_feed {r r' : Reader} {offset : Nat} {s : List Char}
    (h : r.feed limit s = .ok r') (rest : List Char) :
    r.run limit offset (s ++ rest) = r'.run limit (offset + (bytesOf s).length) rest := by
  induction s generalizing r offset with
  | nil =>
    cases h
    rfl
  | cons c s ih =>
    cases hstep : r.step limit c with
    | ok m =>
      rw [feed_cons hstep] at h
      rw [List.cons_append, run, hstep, length_bytesOf_cons, ← Nat.add_assoc]
      exact ih h
    | error stop => simp [Reader.feed, hstep, bind, Except.bind] at h

/-- what stands behind the character of a failure is not looked at -/
theorem run_of_stop {read rest : List Char} {c : Char} {r r' : Reader} {stop : Stop}
    (hfeed : r.feed limit read = .ok r') (hstop : r'.step limit c = .error stop) :
    r.run limit 0 (read ++ c :: rest) =
      .error (stop.cause, (bytesOf read).length + stop.ahead) := by
  rw [run_of_feed hfeed, run, hstop, Nat.zero_add]

theorem Fails.le_length {r : Reader} {s : List Char} {cause : Cause} {p : Nat}
    (h : Fails limit r s cause p) : p ≤ (bytesOf s).length := by
  cases h with
  | finish => exact Nat.le_refl _
  | step hs _ hstop =>
    have hahead := ahead_le hstop
    rw [hs, bytesOf_append, List.length_append, length_bytesOf_cons]
    omega

/-- a text that agrees up to one byte behind the place of the failure fails in the same way -/
theorem run_of_agree {s s' : List Char} {cause : Cause} {p : Nat}
    (h : Fails limit start s cause p) (hp : p < (bytesOf s).length)
    (hagree : (bytesOf s').take (p + 1) = (bytesOf s).take (p + 1)) :
    start.run limit 0 s' = .error (cause, p) := by
  cases h with
  | finish => exact absurd hp (Nat.lt_irrefl _)
  | @step read rest c r' stop hs hfeed hstop =>
    subst hs
    have hread : read <+: s' := isPrefix_of_agree ⟨c :: rest, rfl⟩ (by omega) hagree
    obtain ⟨rest', rfl⟩ := hread
    have hlonger : (bytesOf read).length < (bytesOf (read ++ rest')).length := by
      have hlength := congrArg List.length hagree
      rw [List.length_take, List.length_take] at hlength
      omega
    cases rest' with
    | nil =>
      rw [List.append_nil] at hlonger
      exact absurd hlonger (Nat.lt_irrefl _)
    | cons c' rest' =>
      refine run_of_stop hfeed ?_
      by_cases hin : c.utf8Size ≤ stop.ahead + 1
      · rw [← eq_of_agree (Nat.add_le_add_left hin _) hagree]
        exact hstop
      · by_cases hin' : c'.utf8Size ≤ stop.ahead + 1
        · rw [eq_of_agree (Nat.add_le_add_left hin' _) hagree.symm]
          exact hstop
        · exact step_of_wide (spelled_start.feed hfeed) hstop (Nat.lt_of_not_le hin)
            (Nat.lt_of_not_le hin')

end Reader

/-! ## lines and columns -/

/-- the place `p` bytes into a text, told without the reader: the line feeds before it, and the
bytes of its own line -/
structure Locates (text : String) (p : Nat) (position : Position) : Prop where
  le : p ≤ text.utf8ByteSize
  line : position.line = 1 + (text.toUTF8.data.toList.take p).count 10
  column : ∃ before current, text.toUTF8.data.toList.take p = before ++ current ∧
    (before = [] ∨ before.getLast? = some 10) ∧ 10 ∉ current ∧ position.column = current.length

theorem column_after (bytes : List UInt8) : ∃ before current, bytes = before ++ current ∧
    (before = [] ∨ before.getLast? = some 10) ∧ 10 ∉ current ∧
    (Position.after bytes).column = current.length := by
  induction bytes using List.reverseRecOn with
  | nil => exact ⟨[], [], rfl, .inl rfl, List.not_mem_nil, rfl⟩
  | append_singleton bytes b ih =>
    obtain ⟨before, current, hsplit, hbefore, hcurrent, hcolumn⟩ := ih
    rw [Position.after_concat]
    by_cases hb : b = 10
    · refine ⟨bytes ++ [b], [], (List.append_nil _).symm, .inr ?_, List.not_mem_nil, ?_⟩
      · rw [List.getLast?_concat, hb]
      · rw [if_pos hb, List.length_nil]
    · refine ⟨before, current ++ [b], ?_, hbefore, ?_, ?_⟩
      · rw [hsplit, List.append_assoc]
      · simpa [hcurrent] using Ne.symm hb
      · rw [if_neg hb, List.length_append, ← hcolumn, List.length_singleton]

theorem locates_inText {text : String} {p : Nat} (hp : p ≤ text.utf8ByteSize) :
    Locates text p (.inText text p) where
  le := hp
  line := rfl
  column := column_after _

/-! ## refused texts -/

theorem utf8ByteSize_eq (text : String) : text.utf8ByteSize = (bytesOf text.toList).length := by
  rw [← bytesOf_toList, Array.length_toList]
  rfl

theorem inText_of_agree {t t' : String} {p : Nat}
    (hagree : t'.toUTF8.data.toList.take (p + 1) = t.toUTF8.data.toList.take (p + 1)) :
    Position.inText t' p = Position.inText t p := by
  have htake := congrArg (List.take p) hagree
  rw [List.take_take, List.take_take, Nat.min_eq_left (Nat.le_succ p)] at htake
  rw [Position.inText, Position.inText, htake]

theorem parse_eq_error_iff {text : String} {failure : Failure} :
    parse text = .error failure ↔
      ∃ p, Reader.start.run nestingLimit 0 text.toList = .error (failure.cause, p) ∧
        failure.position = .inText text p := by
  unfold parse parseWithin
  cases hrun : Reader.start.run nestingLimit 0 text.toList with
  | ok v => simp
  | error e =>
    obtain ⟨cause, p⟩ := e
    obtain ⟨cause', position⟩ := failure
    simp only [Except.error.injEq, Failure.mk.injEq, Prod.mk.injEq]
    constructor
    · rintro ⟨rfl, rfl⟩
      exact ⟨p, ⟨rfl, rfl⟩, rfl⟩
    · rintro ⟨_, ⟨rfl, rfl⟩, rfl⟩
      exact ⟨rfl, rfl⟩

theorem parse_of_agree {text : String} {failure : Failure} (h : parse text = .error failure) :
    ∃ p, Locates text p failure.position ∧ (p < text.utf8ByteSize → ∀ t' : String,
      t'.toUTF8.data.toList.take (p + 1) = text.toUTF8.data.toList.take (p + 1) →
        parse t' = .error failure) := by
  obtain ⟨p, hrun, hposition⟩ := parse_eq_error_iff.mp h
  obtain ⟨q, hq, hfails⟩ := Reader.fails_of_run hrun
  obtain rfl : p = q := hq.trans (Nat.zero_add q)
  have hle : p ≤ text.utf8ByteSize := by
    rw [utf8ByteSize_eq]
    exact hfails.le_length
  refine ⟨p, hposition ▸ locates_inText hle, fun hp t' hagree => ?_⟩
  rw [utf8ByteSize_eq] at hp
  have hposition' := hposition.trans (inText_of_agree hagree).symm
  rw [bytesOf_toList, bytesOf_toList] at hagree
  exact parse_eq_error_iff.mpr ⟨p, Reader.run_of_agree hfails hp hagree, hposition'⟩

end Toolflow.Json

namespace Toolflow

open Json (Cause Position Locates)

/-- a refusal names a place in the text, and whatever stands further than one byte behind that
place makes no difference to it -/
structure RefusedAt (text : String) (rejection : Rejection) (cause : Cause) (p : Nat)
    (position : Position) : Prop where
  located : Locates text p position
  named : rejection =
    .notJson s!"{cause.message} at line {position.line} column {position.column}"
  hopeless : p < text.utf8ByteSize → ∀ t' : String,
    t'.toUTF8.data.toList.take (p + 1) = text.toUTF8.data.toList.take (p + 1) →
      readValue t' = .error rejection

/-- **A text is refused where it becomes hopeless.**  The line and the column of a refusal are
those of a place in the text, and every text that agrees with it up to one byte behind that place
is refused with the same message. -/
theorem refused_where_hopeless {text : String} {rejection : Rejection}
    (h : readValue text = .error rejection) :
    ∃ cause p position, RefusedAt text rejection cause p position := by
  cases hparse : Json.parse text with
  | ok v => simp [readValue, hparse] at h
  | error failure =>
    simp only [readValue, hparse, Except.error.injEq] at h
    subst h
    obtain ⟨p, hlocates, hagree⟩ := Json.parse_of_agree hparse
    refine ⟨failure.cause, p, failure.position, hlocates, rfl, fun hp t' ht' => ?_⟩
    rw [readValue, hagree hp t' ht']

/-- the fourth byte of an escape lies inside of a character, and the other text has only the next
byte of that character -/
theorem refused_where_hopeless_grin :
    readValue "[\n\"\\u12😀\"]" = .error (.notJson "invalid escape at line 2 column 7") ∧
    readValue "[\n\"\\u12😁 and so on" = .error (.notJson "invalid escape at line 2 column 7") ∧
    ∃ cause p position, RefusedAt "[\n\"\\u12😀\"]"
      (.notJson "invalid escape at line 2 column 7") cause p position :=
  ⟨rfl, rfl, refused_where_hopeless rfl⟩

end Toolflow
