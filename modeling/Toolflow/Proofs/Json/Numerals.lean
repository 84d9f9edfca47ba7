import Toolflow.Proofs.Json.Literals

/-!
# What is read as a number is a literal

* `Numeral.Reads n t`   `t` is what has been read when the numeral stands at `n`; every step keeps
                        this (`Reads.step`);
* `Reads.literal`       where a number may end, a literal has been read, and it denotes the value;
* `step_eq_ends`        a number ends in front of whatever cannot belong to one.
-/

namespace Toolflow.Json

/-! ## what has been read -/

namespace Numeral

/-- these characters have been read -/
inductive Reads : Numeral → List Char → Prop
  | minus : Reads .minus ['-']
  | zero (l : Literal) : l.whole = ['0'] → l.fraction = [] → l.exponent = none →
      Reads (.zero l.minus) l.text
  | whole (l : Literal) : l.whole ≠ ['0'] → l.fraction = [] → l.exponent = none →
      Reads (.whole l.minus (wholeSize l.whole)) l.text
  | point (l : Literal) : l.fraction = [] → l.exponent = none →
      Reads (.point (fractionSize l.whole [])) (l.text ++ ['.'])
  | fraction (l : Literal) : l.fraction ≠ [] → l.exponent = none →
      Reads (.fraction (fractionSize l.whole l.fraction)) l.text
  | mark (l : Literal) {c : Char} : l.exponent = none → c = 'e' ∨ c = 'E' →
      Reads (.mark l.size) (l.text ++ [c])
  | signedMark (l : Literal) {c s : Char} : l.exponent = none → c = 'e' ∨ c = 'E' →
      s = '+' ∨ s = '-' → Reads (.signedMark (decide (s = '-')) l.size) (l.text ++ [c, s])
  | exponent (l : Literal) (e : Exponent) : l.exponent = none →
      decimal e.digits ≤ exponentLimit →
      Reads (.exponent (decide (e.sign = some '-')) (decimal e.digits) l.size) (l.text ++ e.text)
  | anyExponent (l : Literal) (e : Exponent) : l.exponent = none →
      exponentLimit < decimal e.digits → l.significand = 0 ∨ e.sign = some '-' →
      Reads .anyExponent (l.text ++ e.text)

theorem reads_zero (minus : Bool) : Reads (.zero minus) (Literal.signText minus ++ ['0']) := by
  have h := Reads.zero ⟨minus, ['0'], [], none, .singleton rfl, fun _ => rfl,
    List.forall_mem_nil _⟩ rfl rfl rfl
  simpa [Literal.text, Literal.fractionText, Literal.exponentText] using h

theorem reads_whole (minus : Bool) {ds : List Char} (hds : IsDigits ds)
    (hhead : ds.head? ≠ some '0') :
    Reads (.whole minus (wholeSize ds)) (Literal.signText minus ++ ds) := by
  have hne : ds ≠ ['0'] := by
    rintro rfl
    exact hhead rfl
  have h := Reads.whole ⟨minus, ds, [], none, hds, fun h => absurd h hhead, by simp⟩ hne rfl rfl
  simpa [Literal.text, Literal.fractionText, Literal.exponentText] using h

theorem reads_start {c : Char} {n : Numeral} (h : start? c = some n) : Reads n [c] := by
  unfold start? at h
  split at h
  · next hc =>
    cases h
    rw [hc]
    exact .minus
  · split at h
    · next hc =>
      cases h
      rw [hc]
      exact reads_zero false
    · next hzero =>
      obtain ⟨d, hd, rfl⟩ := Option.map_eq_some_iff.mp h
      obtain ⟨hc, rfl⟩ := digit?_eq_some_iff.mp hd
      rw [ofDigit_eq_wholeSize hc]
      exact reads_whole false (.singleton hc) (fun h => hzero (Option.some.inj h))

theorem text_of_none {l : Literal} (h : l.exponent = none) :
    l.text = Literal.signText l.minus ++ l.whole ++ Literal.fractionText l.fraction := by
  rw [Literal.text, h]
  exact List.append_nil _

theorem reads_wholeDigit (l : Literal) (hwhole : l.whole ≠ ['0']) (hfs : l.fraction = [])
    (he : l.exponent = none) {c : Char} (hc : c.isDigit = true) :
    Reads (.whole l.minus (wholeSize (l.whole ++ [c]))) (l.text ++ [c]) := by
  have hhead : (l.whole ++ [c]).head? ≠ some '0' := by
    rw [List.head?_append_of_ne_nil _ l.isDigits.ne_nil]
    exact fun h => hwhole (l.no_leading_zero h)
  have h := reads_whole l.minus (IsDigits.concat l.isDigits.digit hc) hhead
  rw [text_of_none he, hfs]
  simpa [Literal.fractionText] using h

theorem reads_fractionDigit (l : Literal) (he : l.exponent = none) {c : Char}
    (hc : c.isDigit = true) :
    Reads (.fraction (fractionSize l.whole (l.fraction ++ [c])))
      (Literal.signText l.minus ++ l.whole ++ '.' :: (l.fraction ++ [c])) := by
  have hfs : l.fraction ++ [c] ≠ [] := by simp
  have h := Reads.fraction
    { l with fraction := l.fraction ++ [c], digit := (IsDigits.concat l.digit hc).digit } hfs he
  have htext := text_of_none (l := { l with
    fraction := l.fraction ++ [c], digit := (IsDigits.concat l.digit hc).digit }) he
  rw [htext, Literal.fractionText, if_neg hfs] at h
  exact h

theorem reads_exponentDigit (l : Literal) (he : l.exponent = none) {m : Char} {s : Option Char}
    (hm : m = 'e' ∨ m = 'E') (hs : ∀ c ∈ s, c = '+' ∨ c = '-') {c : Char} (hc : c.isDigit = true) :
    Reads (.exponent (decide (s = some '-')) (digitValue c) l.size)
      (l.text ++ m :: (s.toList ++ [c])) := by
  have hdec : decimal [c] = digitValue c := by simp [decimal, decimalFrom]
  have h := Reads.exponent l ⟨m, s, [c], hm, hs, IsDigits.singleton hc⟩ he
    (by rw [hdec]; exact Nat.le_trans (digitValue_le hc) (by decide))
  rwa [hdec] at h

theorem afterDigits_eq_more {size : Magnitude} {pointed : Bool} {c : Char} {n : Numeral}
    (h : afterDigits size pointed c = .more n) :
    (c = '.' ∧ pointed = false ∧ n = .point size.atPoint) ∨
      ((c = 'e' ∨ c = 'E') ∧ n = .mark size) := by
  unfold afterDigits at h
  split at h
  · next hc =>
    cases h
    exact .inl ⟨hc.1, Bool.eq_false_iff.mpr hc.2, rfl⟩
  · split at h
    · next hc =>
      cases h
      exact .inr ⟨hc, rfl⟩
    · cases h

/-- a character that is no digit goes on with a literal that has no exponent -/
theorem reads_afterDigits (l : Literal) (he : l.exponent = none) {c : Char} {n : Numeral}
    {pointed : Bool} (hpointed : pointed = false → l.fraction = [])
    (h : afterDigits l.size pointed c = .more n) : Reads n (l.text ++ [c]) := by
  rcases afterDigits_eq_more h with ⟨rfl, hp, rfl⟩ | ⟨hc, rfl⟩
  · have hfs := hpointed hp
    rw [Literal.size_of_nil hfs, atPoint_wholeSize]
    exact .point l hfs he
  · exact .mark l he hc

theorem Reads.step {n n' : Numeral} {s : List Char} {c : Char} (h : Reads n s)
    (hstep : n.step c = .more n') : Reads n' (s ++ [c]) := by
  cases h with
  | minus =>
    rw [Numeral.step] at hstep
    split at hstep
    · next hc =>
      cases hstep
      rw [hc]
      exact reads_zero true
    · next hzero =>
      split at hstep
      · next d hd =>
        cases hstep
        obtain ⟨hc, rfl⟩ := digit?_eq_some_iff.mp hd
        rw [ofDigit_eq_wholeSize hc]
        exact reads_whole true (.singleton hc)
          (fun h => hzero (Option.some.inj h))
      · cases hstep
  | zero l hwhole hfs he =>
    rw [Numeral.step] at hstep
    split at hstep
    · cases hstep
    · have hsize : l.size = .ofDigit 0 := by
        rw [Literal.size_of_nil hfs, hwhole]
        rfl
      rw [← hsize] at hstep
      exact reads_afterDigits l he (fun _ => hfs) hstep
  | whole l hwhole hfs he =>
    rw [Numeral.step] at hstep
    split at hstep
    · next d hd =>
      cases hstep
      obtain ⟨hc, rfl⟩ := digit?_eq_some_iff.mp hd
      rw [pushWhole_wholeSize]
      exact reads_wholeDigit l hwhole hfs he hc
    · rw [← Literal.size_of_nil hfs] at hstep
      exact reads_afterDigits l he (fun _ => hfs) hstep
  | point l hfs he =>
    rw [Numeral.step] at hstep
    split at hstep
    · next d hd =>
      cases hstep
      obtain ⟨hc, rfl⟩ := digit?_eq_some_iff.mp hd
      have h := reads_fractionDigit l he hc
      rw [hfs] at h
      rw [pushFraction_fractionSize, text_of_none he, hfs]
      simpa [Literal.fractionText] using h
    · cases hstep
  | fraction l hfs he =>
    rw [Numeral.step] at hstep
    split at hstep
    · next d hd =>
      cases hstep
      obtain ⟨hc, rfl⟩ := digit?_eq_some_iff.mp hd
      rw [pushFraction_fractionSize, text_of_none he, Literal.fractionText, if_neg hfs,
        List.append_assoc, List.cons_append]
      exact reads_fractionDigit l he hc
    · rw [← Literal.size_of_ne_nil hfs] at hstep
      exact reads_afterDigits l he (fun h => absurd h (by decide)) hstep
  | mark l he hm =>
    rw [List.append_assoc]
    rw [Numeral.step] at hstep
    split at hstep
    · next hc =>
      cases hstep
      rw [hc]
      exact .signedMark l he hm (.inl rfl)
    · split at hstep
      · next hc =>
        cases hstep
        rw [hc]
        exact .signedMark l he hm (.inr rfl)
      · split at hstep
        · next d hd =>
          cases hstep
          obtain ⟨hc, rfl⟩ := digit?_eq_some_iff.mp hd
          exact reads_exponentDigit l he hm (s := none) (by simp) hc
        · cases hstep
  | @signedMark l m sign he hm hsign =>
    rw [List.append_assoc]
    rw [Numeral.step] at hstep
    split at hstep
    · next d hd =>
      cases hstep
      obtain ⟨hc, rfl⟩ := digit?_eq_some_iff.mp hd
      have h := reads_exponentDigit l he hm (s := some sign)
        (fun x hx => Option.some.inj hx ▸ hsign) hc
      simpa only [Option.some.injEq, Option.toList_some, List.cons_append, List.nil_append] using h
    · cases hstep
  | exponent l e he hle =>
    rw [List.append_assoc]
    rw [Numeral.step] at hstep
    split at hstep
    · next d hd =>
      obtain ⟨hc, rfl⟩ := digit?_eq_some_iff.mp hd
      -- the same exponent with one more digit
      let e' : Exponent :=
        { e with digits := e.digits ++ [c], isDigits := IsDigits.concat e.isDigits.digit hc }
      have htext : e.text ++ [c] = e'.text := by simp [Exponent.text, e']
      have hdec : decimal e.digits * 10 + digitValue c = decimal e'.digits :=
        (decimal_concat e.digits c).symm
      rw [htext]
      rw [pushExponent, hdec] at hstep
      split at hstep
      · next hle' =>
        cases hstep
        exact .exponent l e' he hle'
      · next hbeyond =>
        split at hstep
        · cases hstep
        · next hgo =>
          cases hstep
          refine .anyExponent l e' he (Nat.lt_of_not_le hbeyond) ?_
          have hsig : l.size.significand = l.significand := by rw [Literal.size_eq]
          rw [hsig, decide_eq_true_eq] at hgo
          by_cases hzero : l.significand = 0
          · exact .inl hzero
          · exact .inr (not_not.mp fun hsign => hgo ⟨hzero, hsign⟩)
    · cases hstep
  | anyExponent l e he hlt hb =>
    rw [List.append_assoc]
    rw [Numeral.step] at hstep
    split at hstep
    · next d hd =>
      cases hstep
      obtain ⟨hc, rfl⟩ := digit?_eq_some_iff.mp hd
      let e' : Exponent :=
        { e with digits := e.digits ++ [c], isDigits := IsDigits.concat e.isDigits.digit hc }
      have htext : e.text ++ [c] = e'.text := by simp [Exponent.text, e']
      have hlt' : exponentLimit < decimal e'.digits := by
        show exponentLimit < decimal (e.digits ++ [c])
        rw [decimal_concat]
        omega
      rw [htext]
      exact .anyExponent l e' he hlt' hb
    · cases hstep

/-- a numeral that may end here has read a literal -/
theorem Reads.literal {n : Numeral} {s : List Char} {num : Number} (h : Reads n s)
    (hvalue : n.value = .ok num) : ∃ l : Literal, l.text = s ∧ l.Denotes num := by
  have of_state (l : Literal) (hb : l.Bounded) (hstate : l.state = n) : l.Denotes num := by
    rw [← hstate] at hvalue
    exact (Literal.value_state hb).mp hvalue
  have of_none (l : Literal) (he : l.exponent = none) (hbare : l.bare = n) : l.Denotes num := by
    refine of_state l ?_ ?_
    · intro e h
      rw [he] at h
      cases h
    · rw [Literal.state, he]
      exact hbare
  have of_exponent (l : Literal) (e : Exponent) (he : l.exponent = none)
      (hb : decimal e.digits ≤ exponentLimit ∨ l.significand = 0 ∨ e.sign = some '-')
      (hn : .atExponent (decide (e.sign = some '-')) (decimal e.digits) l.size = n) :
      ∃ l' : Literal, l'.text = l.text ++ e.text ∧ l'.Denotes num := by
    refine ⟨{ l with exponent := some e }, ?_, of_state _ ?_ hn⟩
    · rw [text_of_none he]
      rfl
    · intro e' he'
      cases he'
      exact hb
  cases h with
  | minus => cases hvalue
  | zero l hwhole hfs he =>
    exact ⟨l, rfl, of_none l he (by rw [Literal.bare, if_neg (not_not.mpr hfs), if_pos hwhole])⟩
  | whole l hwhole hfs he =>
    exact ⟨l, rfl, of_none l he (by rw [Literal.bare, if_neg (not_not.mpr hfs), if_neg hwhole])⟩
  | point => cases hvalue
  | fraction l hfs he => exact ⟨l, rfl, of_none l he (by rw [Literal.bare, if_pos hfs])⟩
  | mark => cases hvalue
  | signedMark => cases hvalue
  | exponent l e he hle => exact of_exponent l e he (.inl hle) (if_pos hle)
  | anyExponent l e he hlt hb => exact of_exponent l e he (.inr hb) (if_neg (Nat.not_le.mpr hlt))

/-! ## where a number ends -/

/-- a number ends in front of a character that cannot belong to any -/
theorem step_eq_ends {n : Numeral} {num : Number} (h : n.value = .ok num) {c : Char}
    (hdigit : c.isDigit = false) (hc : c ≠ '.' ∧ c ≠ 'e' ∧ c ≠ 'E') : n.step c = .ends := by
  have hafter (size : Magnitude) (pointed : Bool) : afterDigits size pointed c = .ends := by
    rw [afterDigits, if_neg (fun h => hc.1 h.1), if_neg (fun h => h.elim hc.2.1 hc.2.2)]
  have hnone := digit?_eq_none_iff.mpr hdigit
  cases n with
  | minus | point | mark | signedMark => cases h
  | zero => rw [step, hnone]; exact hafter _ _
  | whole => rw [step, hnone]; exact hafter _ _
  | fraction => rw [step, hnone]; exact hafter _ _
  | exponent => rw [step, hnone]
  | anyExponent => rw [step, hnone]

end Numeral

end Toolflow.Json
