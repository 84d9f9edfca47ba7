import Toolflow.Json.Reader
import Toolflow.Proofs.Json.Numerals
import Toolflow.Proofs.Json.Strings

/-!
# What the grammar spells is read

The text of a value takes the reader from a place where a value may begin to a place where that
value is complete, whatever stands around it.

* `Reader.feed`        the reader after some characters; `run_eq_ok_iff` gives a whole text;
* `Begins r frames`    a value may begin here, inside these frames;
* `Completes r v frames`   the value `v` has been read; a number need not be ended yet;
* `feed_items`, `feed_members`   the inside of an array and of an object, when their values are
                       read;
* `feed_spells`        every text of the grammar, if its arrays and objects fit in the limit.
-/

namespace Toolflow.Json

namespace Reader

/-! ## the reader over several characters -/

def feed (limit : Nat) (r : Reader) (s : List Char) : Except Stop Reader :=
  s.foldlM (fun r c => r.step limit c) r

variable {limit : Nat}

theorem feed_nil (r : Reader) : r.feed limit [] = .ok r := rfl

theorem feed_cons {r r' : Reader} {c : Char} (h : r.step limit c = .ok r') (rest : List Char) :
    r.feed limit (c :: rest) = r'.feed limit rest := by
  rw [feed, List.foldlM_cons, h]
  rfl

theorem feed_append {r r' : Reader} {s : List Char} (h : r.feed limit s = .ok r')
    (rest : List Char) : r.feed limit (s ++ rest) = r'.feed limit rest := by
  rw [feed, List.foldlM_append]
  exact congrArg (fun m => m.bind fun r => r.feed limit rest) h

theorem run_eq_ok_iff {r : Reader} {offset : Nat} {s : List Char} {v : Json} :
    r.run limit offset s = .ok v ↔ ∃ r', r.feed limit s = .ok r' ∧ r'.finish = .ok v := by
  induction s generalizing r offset with
  | nil =>
    rw [run, feed_nil]
    cases hfinish : r.finish with
    | ok value => simp [hfinish]
    | error cause => simp [hfinish]
  | cons c rest ih =>
    rw [run]
    cases hstep : r.step limit c with
    | ok r' =>
      rw [feed_cons hstep]
      exact ih
    | error stop => simp [feed, hstep, bind, Except.bind]

/-! ## white space -/

theorem isBlank_iff {c : Char} :
    isBlank c = true ↔ c = ' ' ∨ c = '\t' ∨ c = '\n' ∨ c = '\r' := by
  simp only [isBlank, Bool.or_eq_true, decide_eq_true_eq]
  constructor
  · rintro (((h | h) | h) | h)
    · exact .inl h
    · exact .inr (.inr (.inl h))
    · exact .inr (.inl h)
    · exact .inr (.inr (.inr h))
  · rintro (h | h | h | h)
    · exact .inl (.inl (.inl h))
    · exact .inl (.inr h)
    · exact .inl (.inl (.inr h))
    · exact .inr h

/-- a reader that every white space leaves where it is -/
theorem feed_blank {r : Reader} (hr : ∀ c, isBlank c = true → r.step limit c = .ok r)
    {b : List Char} (hb : Blank b) : r.feed limit b = .ok r := by
  induction b with
  | nil => rfl
  | cons c rest ih =>
    obtain ⟨hc, hrest⟩ := List.forall_mem_cons.mp hb
    rw [feed_cons (hr c (isBlank_iff.mpr hc))]
    exact ih hrest

/-! ## numbers, strings and words -/

theorem feed_numeral {n n' : Numeral} {s : List Char} (h : n.feed s = some n')
    (frames : List Frame) : feed limit (.numeral n frames) s = .ok (.numeral n' frames) := by
  induction s generalizing n with
  | nil =>
    cases h
    rfl
  | cons c rest ih =>
    obtain ⟨m, hstep, hrest⟩ := Numeral.feed_cons_eq_some h
    have hr : step limit c (.numeral n frames) = .ok (.numeral m frames) := by
      simp only [step, hstep]
    rw [feed_cons hr]
    exact ih hrest

theorem feed_text {t t' : Text} {s : List Char} (h : t.feed s = some t') (purpose : Purpose)
    (frames : List Frame) :
    feed limit (.text purpose t frames) s = .ok (.text purpose t' frames) := by
  induction s generalizing t with
  | nil =>
    cases h
    rfl
  | cons c rest ih =>
    obtain ⟨m, hstep, hrest⟩ := Text.feed_cons_eq_some h
    have hr : step limit c (.text purpose t frames) = .ok (.text purpose m frames) := by
      simp only [step, hstep]
    rw [feed_cons hr]
    exact ih hrest

/-- the inside of a string and its closing quote -/
theorem feed_string {t s : List Char} (h : SpellsString t s) (purpose : Purpose)
    (frames : List Frame) (rest : List Char) :
    feed limit (.text purpose .empty frames) (t ++ '"' :: rest) =
      feed limit (closeText purpose (String.ofList s) frames) rest := by
  have hquote : (Text.mk (s.reverse ++ []) .plain).step '"' = .ends (String.ofList s) := by
    simp [Text.step]
  have hr : step limit '"' (.text purpose ⟨s.reverse ++ [], .plain⟩ frames) =
      .ok (closeText purpose (String.ofList s) frames) := by
    simp only [step, hquote]
  have hinside : feed limit (.text purpose .empty frames) t =
      .ok (.text purpose ⟨s.reverse ++ [], .plain⟩ frames) :=
    feed_text (Text.feed_string h) purpose frames
  rw [feed_append hinside, feed_cons hr]

/-! ## where values begin and end -/

/-- a value may begin here, inside these frames -/
inductive Begins : Reader → List Frame → Prop
  | expecting (frames : List Frame) : Begins (.expecting frames) frames
  | firstItem (outer : List Frame) : Begins (.firstItem outer) (.items [] :: outer)
  | nextItem (before : List Json) (outer : List Frame) :
      Begins (.nextItem before outer) (.items before :: outer)

/-- this value has been read inside these frames -/
inductive Completes : Reader → Json → List Frame → Prop
  | done (v : Json) (frames : List Frame) : Completes (.done v frames) v frames
  | numeral {n : Numeral} {num : Number} (frames : List Frame) : n.value = .ok num →
      Completes (.numeral n frames) (.num num) frames

theorem Begins.feed_blank {r : Reader} {frames : List Frame} (h : Begins r frames)
    {b : List Char} (hb : Blank b) : r.feed limit b = .ok r := by
  refine Reader.feed_blank (fun c hc => ?_) hb
  cases h with
  | expecting | firstItem | nextItem => simp only [step, hc, ite_true]

theorem Begins.step {r : Reader} {frames : List Frame} (h : Begins r frames) {c : Char}
    (hblank : ¬ isBlank c = true) (hclose : c ≠ ']') :
    r.step limit c = beginValue limit frames c := by
  cases h with
  | expecting => simp only [Reader.step, if_neg hblank]
  | firstItem => simp only [Reader.step, if_neg hblank, if_neg hclose]
  | nextItem => simp only [Reader.step, if_neg hblank, if_neg hclose]

/-- the characters that may follow a value -/
def Follows (c : Char) : Prop := isBlank c = true ∨ c = ',' ∨ c = ']' ∨ c = '\x7d'

theorem Follows.ends {c : Char} (h : Follows c) :
    c.isDigit = false ∧ c ≠ '.' ∧ c ≠ 'e' ∧ c ≠ 'E' := by
  rw [Follows, isBlank_iff] at h
  rcases h with (rfl | rfl | rfl | rfl) | rfl | rfl | rfl
  all_goals
    decide

theorem Completes.step {r : Reader} {v : Json} {frames : List Frame} (h : Completes r v frames)
    {c : Char} (hc : Follows c) : r.step limit c = follow v frames c := by
  cases h with
  | done => rfl
  | numeral _ hn =>
    obtain ⟨hdigit, hother⟩ := hc.ends
    simp only [Reader.step, Numeral.step_eq_ends hn hdigit hother, hn]

theorem Completes.finish {r : Reader} {v : Json} (h : Completes r v []) : r.finish = .ok v := by
  cases h with
  | done => rfl
  | numeral _ hn => simp only [Reader.finish, hn, closed]

/-- the text of this value is read inside these frames -/
def Leads (limit : Nat) (r : Reader) (t : List Char) (v : Json) (frames : List Frame) : Prop :=
  ∃ r', r.feed limit t = .ok r' ∧ Completes r' v frames

theorem Leads.of_feed_eq {r r' : Reader} {s t : List Char} {v : Json} {frames : List Frame}
    (h : r.feed limit (s ++ t) = r'.feed limit t) (ht : Leads limit r' t v frames) :
    Leads limit r (s ++ t) v frames := by
  obtain ⟨r'', hfeed, hr''⟩ := ht
  exact ⟨r'', h.trans hfeed, hr''⟩

theorem follow_blank (v : Json) (frames : List Frame) {c : Char} (hc : isBlank c = true) :
    follow v frames c = .ok (.done v frames) := by
  unfold follow
  rw [if_pos hc]

theorem Leads.append_blank {r : Reader} {t b : List Char} {v : Json} {frames : List Frame}
    (h : Leads limit r t v frames) (hb : Blank b) : Leads limit r (t ++ b) v frames := by
  obtain ⟨r', hfeed, hr'⟩ := h
  cases b with
  | nil =>
    rw [List.append_nil]
    exact ⟨r', hfeed, hr'⟩
  | cons c rest =>
    obtain ⟨hc, hrest⟩ := List.forall_mem_cons.mp hb
    have hblank := isBlank_iff.mpr hc
    have hstep : r'.step limit c = .ok (.done v frames) := by
      rw [hr'.step (.inl hblank), follow_blank v frames hblank]
    have hdone : feed limit (.done v frames) rest = .ok (.done v frames) := by
      refine feed_blank (fun x hx => ?_) hrest
      rw [step, follow_blank v frames hx]
    refine ⟨.done v frames, ?_, .done v frames⟩
    rw [feed_append hfeed, feed_cons hstep, hdone]

/-- a value and the comma or bracket behind it -/
theorem Leads.feed {r r' : Reader} {t : List Char} {v : Json} {frames : List Frame}
    (h : Leads limit r t v frames) {c : Char} (hc : Follows c)
    (hfollow : follow v frames c = .ok r') (rest : List Char) :
    r.feed limit (t ++ c :: rest) = r'.feed limit rest := by
  obtain ⟨m, hfeed, hm⟩ := h
  rw [feed_append hfeed]
  exact feed_cons ((hm.step hc).trans hfollow) rest

/-! ## arrays -/

/-- the inside of an array and its bracket, when every element is read -/
theorem feed_items {outer : List Frame} {pieces : List (List Char × Json)} (hne : pieces ≠ [])
    (hpieces : ∀ p ∈ pieces, ∀ r before, Begins r (.items before :: outer) →
      Leads limit r p.1 p.2 (.items before :: outer))
    {r : Reader} {before : List Json} (hr : Begins r (.items before :: outer)) :
    r.feed limit (List.intercalate [','] (pieces.map Prod.fst) ++ [']']) =
      .ok (.done (.arr (before.reverse ++ pieces.map Prod.snd)) outer) := by
  induction pieces generalizing r before with
  | nil => exact absurd rfl hne
  | cons p rest ih =>
    obtain ⟨hp, hrest⟩ := List.forall_mem_cons.mp hpieces
    cases rest with
    | nil =>
      have hclose : follow p.2 (.items before :: outer) ']' =
          .ok (.done (.arr (p.2 :: before).reverse) outer) := rfl
      simp only [List.map_cons, List.map_nil, List.intercalate_singleton]
      rw [(hp r before hr).feed (.inr (.inr (.inl rfl))) hclose, feed_nil, List.reverse_cons]
    | cons q rest =>
      have hcomma : follow p.2 (.items before :: outer) ',' =
          .ok (.nextItem (p.2 :: before) outer) := rfl
      have hnext := ih (List.cons_ne_nil _ _) hrest (.nextItem (p.2 :: before) outer)
      simp only [List.map_cons] at hnext ⊢
      rw [List.intercalate_cons_cons, List.append_assoc, List.append_assoc, List.singleton_append,
        (hp r before hr).feed (.inr (.inl rfl)) hcomma, hnext]
      simp

/-! ## objects -/

/-- a key may begin here, behind these members -/
inductive KeyBegins : Reader → Members → List Frame → Prop
  | firstKey (outer : List Frame) : KeyBegins (.firstKey outer) [] outer
  | nextKey (before : Members) (outer : List Frame) :
      KeyBegins (.nextKey before outer) before outer

theorem KeyBegins.feed_blank {r : Reader} {before : Members} {outer : List Frame}
    (h : KeyBegins r before outer) {b : List Char} (hb : Blank b) : r.feed limit b = .ok r := by
  refine Reader.feed_blank (fun c hc => ?_) hb
  cases h with
  | firstKey | nextKey => simp only [step, hc, ite_true]

theorem KeyBegins.step_quote {r : Reader} {before : Members} {outer : List Frame}
    (h : KeyBegins r before outer) :
    r.step limit '"' = .ok (.text (.key before) .empty outer) := by
  cases h with
  | firstKey | nextKey => rfl

/-- a member up to its colon -/
theorem feed_key {r : Reader} {before : Members} {outer : List Frame}
    (hr : KeyBegins r before outer) {t b : List Char} {key : String} (ht : SpellsKey t key)
    (hb : Blank b) (rest : List Char) :
    r.feed limit (t ++ b ++ ':' :: rest) =
      feed limit (.expecting (.member before key :: outer)) rest := by
  obtain ⟨front, inside, chars, hfront, hinside, rfl, rfl⟩ := ht
  have hcolon : feed limit (.colon before (String.ofList chars) outer) b =
      .ok (.colon before (String.ofList chars) outer) := by
    refine feed_blank (fun c hc => ?_) hb
    simp only [step, hc, ite_true]
  simp only [List.append_assoc, List.cons_append, List.nil_append]
  rw [feed_append (hr.feed_blank hfront), feed_cons hr.step_quote,
    feed_string hinside (.key before) outer]
  show feed limit (.colon before (String.ofList chars) outer) (b ++ ':' :: rest) = _
  rw [feed_append hcolon]
  exact feed_cons rfl rest

/-- the inside of an object and its brace, when every value is read -/
theorem feed_members {outer : List Frame} {pieces : List Member} (hne : pieces ≠ [])
    (hkeys : ∀ m ∈ pieces, SpellsKey m.keyText m.key ∧ Blank m.blank)
    (hvalues : ∀ m ∈ pieces, ∀ before, Leads limit (.expecting (.member before m.key :: outer))
      m.valueText m.value (.member before m.key :: outer))
    {r : Reader} {before : Members} (hr : KeyBegins r before outer) :
    r.feed limit (List.intercalate [','] (pieces.map Member.text) ++ ['\x7d']) =
      .ok (.done (.obj ((pieces.map Member.pair).foldl
        (fun members p => insert p.1 p.2 members) before)) outer) := by
  induction pieces generalizing r before with
  | nil => exact absurd rfl hne
  | cons m rest ih =>
    obtain ⟨⟨hkey, hblank⟩, hkeysRest⟩ := List.forall_mem_cons.mp hkeys
    obtain ⟨hm, hvaluesRest⟩ := List.forall_mem_cons.mp hvalues
    cases rest with
    | nil =>
      have hclose : follow m.value (.member before m.key :: outer) '\x7d' =
          .ok (.done (.obj (insert m.key m.value before)) outer) := rfl
      simp only [List.map_cons, List.map_nil, List.intercalate_singleton, Member.text]
      rw [List.append_assoc, List.cons_append, feed_key hr hkey hblank,
        (hm before).feed (.inr (.inr (.inr rfl))) hclose, feed_nil]
      rfl
    | cons q rest =>
      have hcomma : follow m.value (.member before m.key :: outer) ',' =
          .ok (.nextKey (insert m.key m.value before) outer) := rfl
      have hnext := ih (List.cons_ne_nil _ _) hkeysRest hvaluesRest
        (.nextKey (insert m.key m.value before) outer)
      simp only [List.map_cons] at hnext ⊢
      rw [List.intercalate_cons_cons, Member.text]
      simp only [List.append_assoc, List.cons_append, List.nil_append] at hnext ⊢
      rw [← List.append_assoc, feed_key hr hkey hblank, (hm before).feed (.inr (.inl rfl)) hcomma,
        hnext]
      rfl

/-! ## values -/

theorem beginValue_numeral {frames : List Frame} {c : Char} {n : Numeral}
    (h : Numeral.start? c = some n) :
    beginValue limit frames c = .ok (.numeral n frames) := by
  have hsome : (Numeral.start? c).isSome = true := Option.isSome_of_eq_some h
  have hc : c ≠ '[' ∧ c ≠ '\x7b' ∧ c ≠ '"' ∧ c ≠ 'n' ∧ c ≠ 't' ∧ c ≠ 'f' := by
    refine ⟨?_, ?_, ?_, ?_, ?_, ?_⟩
    all_goals
      rintro rfl
      exact absurd hsome (by decide)
  obtain ⟨h₁, h₂, h₃, h₄, h₅, h₆⟩ := hc
  rw [beginValue, if_neg h₁, if_neg h₂, if_neg h₃, if_neg h₄, if_neg h₅, if_neg h₆, h]

theorem feed_literal {r : Reader} {frames : List Frame} (hr : Begins r frames) {l : Literal}
    {n : Number} (h : l.Denotes n) : Leads limit r l.text (.num n) frames := by
  have hbounded := Literal.bounded_of_denotes h
  have hread := Literal.read_text hbounded
  cases htext : l.text with
  | nil =>
    rw [htext] at hread
    cases hread
  | cons c rest =>
    rw [htext] at hread
    obtain ⟨m, hstart, hrest⟩ := Option.bind_eq_some_iff.mp hread
    have hsome : (Numeral.start? c).isSome = true := Option.isSome_of_eq_some hstart
    have hc : ¬ isBlank c = true ∧ c ≠ ']' := by
      constructor
      · intro hblank
        rcases isBlank_iff.mp hblank with rfl | rfl | rfl | rfl
        all_goals
          exact absurd hsome (by decide)
      · rintro rfl
        exact absurd hsome (by decide)
    refine ⟨.numeral l.state frames, ?_, .numeral frames ((Literal.value_state hbounded).mpr h)⟩
    rw [feed_cons ((hr.step hc.1 hc.2).trans (beginValue_numeral hstart))]
    exact feed_numeral hrest frames

/-- the text of a value is read to its end -/
theorem feed_spells {d : Nat} {t : List Char} {v : Json} (h : Spells d t v) :
    ∀ {r : Reader} {frames : List Frame}, Begins r frames → frames.length + d ≤ limit →
      Leads limit r t v frames := by
  -- along the text, for every reader and all frames around it: inside an array or object there is
  -- one frame more and one level less
  induction h with
  | null =>
    intro r frames hr _
    refine ⟨.done .null frames, ?_, .done .null frames⟩
    rw [feed_cons (hr.step (by decide) (by decide))]
    rfl
  | true =>
    intro r frames hr _
    refine ⟨.done (.bool true) frames, ?_, .done (.bool true) frames⟩
    rw [feed_cons (hr.step (by decide) (by decide))]
    rfl
  | false =>
    intro r frames hr _
    refine ⟨.done (.bool false) frames, ?_, .done (.bool false) frames⟩
    rw [feed_cons (hr.step (by decide) (by decide))]
    rfl
  | number _ hl =>
    intro r frames hr _
    exact feed_literal hr hl
  | string _ hs =>
    intro r frames hr _
    refine ⟨_, ?_, .done _ frames⟩
    have hquote : beginValue limit frames '"' = .ok (.text .value .empty frames) := rfl
    rw [feed_cons ((hr.step (by decide) (by decide)).trans hquote), feed_string hs]
    rfl
  | emptyArray _ hb =>
    intro r frames hr hle
    have hopen : beginValue limit frames '[' = .ok (.firstItem frames) :=
      if_pos (show frames.length < limit by omega)
    refine ⟨_, ?_, .done _ frames⟩
    rw [feed_cons ((hr.step (by decide) (by decide)).trans hopen),
      feed_append ((Begins.firstItem frames).feed_blank hb)]
    rfl
  | array _ hne _ ih =>
    intro r frames hr hle
    have hopen : beginValue limit frames '[' = .ok (.firstItem frames) :=
      if_pos (show frames.length < limit by omega)
    refine ⟨_, ?_, .done _ frames⟩
    rw [feed_cons ((hr.step (by decide) (by decide)).trans hopen)]
    refine feed_items hne (fun p hp r before hr => ih p hp hr ?_) (.firstItem frames)
    rw [List.length_cons]
    omega
  | emptyObject _ hb =>
    intro r frames hr hle
    have hopen : beginValue limit frames '\x7b' = .ok (.firstKey frames) :=
      if_pos (show frames.length < limit by omega)
    refine ⟨_, ?_, .done _ frames⟩
    rw [feed_cons ((hr.step (by decide) (by decide)).trans hopen),
      feed_append ((KeyBegins.firstKey frames).feed_blank hb)]
    rfl
  | object _ hne hkeys _ ih =>
    intro r frames hr hle
    have hopen : beginValue limit frames '\x7b' = .ok (.firstKey frames) :=
      if_pos (show frames.length < limit by omega)
    refine ⟨_, ?_, .done _ frames⟩
    rw [feed_cons ((hr.step (by decide) (by decide)).trans hopen)]
    refine feed_members hne hkeys (fun m hm before => ih m hm (.expecting _) ?_) (.firstKey frames)
    rw [List.length_cons]
    omega
  | padded hfront hbehind _ ih =>
    intro r frames hr hle
    rw [List.append_assoc]
    exact .of_feed_eq (feed_append (hr.feed_blank hfront) _) ((ih hr hle).append_blank hbehind)

/-- a whole text is read to its value -/
theorem run_start_of_spells {t : List Char} {v : Json} (h : Spells limit t v) (offset : Nat) :
    start.run limit offset t = .ok v := by
  have hle : ([] : List Frame).length + limit ≤ limit := Nat.le_of_eq (Nat.zero_add limit)
  obtain ⟨r, hfeed, hr⟩ := feed_spells h (.expecting []) hle
  exact run_eq_ok_iff.mpr ⟨r, hfeed, hr.finish⟩

end Reader

end Toolflow.Json
