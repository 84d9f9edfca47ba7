import Mathlib.Data.List.Induction
import Toolflow.Proofs.Json.Completeness

/-!
# What is read is spelled by the grammar

Whatever the reader has read, it can be taken apart as the grammar does.

* `Place`               where a value, a key or a colon is expected, with the frames around it;
* `Stands limit p t`    after the text `t` the reading stands at the place `p`;
* `Holds limit r t`     `t` is what has been read when the reader stands at `r`;
* `beginValue_holds`, `follow_holds`   the two functions of the reader that go from a value to
                        what is inside it or around it;
* `Holds.step`, `Holds.feed`   one character and many keep this;
* `run_start_eq_ok_iff`   a whole text is read to a value just if it spells that value.

A value inside `n` frames is spelled with `limit - n` further arrays and objects at most.
-/

namespace Toolflow.Json

/-! ## pieces -/

/-- pieces with commas between them: a comma stands behind all but the last -/
theorem intercalate_concat (l : List (List Char)) (a : List Char) :
    List.intercalate [','] (l ++ [a]) = l.flatMap (fun t => t ++ [',']) ++ a := by
  induction l with
  | nil => simp
  | cons b rest ih =>
    cases rest with
    | nil => simp [List.intercalate, List.intersperse]
    | cons c rest =>
      rw [List.cons_append, List.cons_append, List.intercalate_cons_cons, ← List.cons_append, ih,
        List.flatMap_cons]
      simp

theorem ofPairs_concat (pairs : List (String × Json)) (key : String) (v : Json) :
    ofPairs (pairs ++ [(key, v)]) = insert key v (ofPairs pairs) := by
  simp [ofPairs]

theorem insert_ne_nil (key : String) (v : Json) (members : Members) :
    insert key v members ≠ [] := by
  cases members with
  | nil => simp [insert]
  | cons p rest =>
    unfold insert
    split
    · simp
    · split <;> simp

theorem eq_nil_of_ofPairs {pairs : List (String × Json)} (h : ofPairs pairs = []) :
    pairs = [] := by
  induction pairs using List.reverseRecOn with
  | nil => rfl
  | append_singleton init p =>
    rw [ofPairs_concat] at h
    exact absurd h (insert_ne_nil p.1 p.2 _)

theorem Blank.append {a b : List Char} (ha : Blank a) (hb : Blank b) : Blank (a ++ b) :=
  List.forall_mem_append.mpr ⟨ha, hb⟩

theorem Blank.nil : Blank [] := List.forall_mem_nil _

theorem Blank.singleton {c : Char} (h : Reader.isBlank c = true) : Blank [c] :=
  List.forall_mem_singleton.mpr (Reader.isBlank_iff.mp h)

theorem Spells.append_blank {d : Nat} {s b : List Char} {v : Json} (h : Spells d s v)
    (hb : Blank b) : Spells d (s ++ b) v := .padded Blank.nil hb h

theorem Spells.blank_append {d : Nat} {s b : List Char} {v : Json} (h : Spells d s v)
    (hb : Blank b) : Spells d (b ++ s) v := by
  have hpadded := Spells.padded hb Blank.nil h
  rwa [List.append_nil] at hpadded

namespace Reader

/-! ## places -/

/-- what is expected, and the frames around it -/
inductive Place where
  | value (frames : List Frame)
  | key (before : Members) (outer : List Frame)
  | colon (before : Members) (key : String) (outer : List Frame)

/-- after this text the reading stands at this place -/
inductive Stands (limit : Nat) : Place → List Char → Prop
  | top {b : List Char} : Blank b → Stands limit (.value []) b
  | item {outer : List Frame} {t b : List Char} {pieces : List (List Char × Json)} :
      Stands limit (.value outer) t → outer.length < limit →
      (∀ p ∈ pieces, Spells (limit - (outer.length + 1)) p.1 p.2) → Blank b →
      Stands limit (.value (.items (pieces.map Prod.snd).reverse :: outer))
        (t ++ '[' :: ((pieces.map Prod.fst).flatMap (fun s => s ++ [',']) ++ b))
  | key {outer : List Frame} {t b : List Char} {pieces : List Member} :
      Stands limit (.value outer) t → outer.length < limit →
      (∀ m ∈ pieces, SpellsKey m.keyText m.key ∧ Blank m.blank) →
      (∀ m ∈ pieces, Spells (limit - (outer.length + 1)) m.valueText m.value) → Blank b →
      Stands limit (.key (ofPairs (pieces.map Member.pair)) outer)
        (t ++ '\x7b' :: ((pieces.map Member.text).flatMap (fun s => s ++ [',']) ++ b))
  | colon {outer : List Frame} {before : Members} {t inside chars b : List Char} :
      Stands limit (.key before outer) t → SpellsString inside chars → Blank b →
      Stands limit (.colon before (String.ofList chars) outer) (t ++ '"' :: (inside ++ '"' :: b))
  | member {outer : List Frame} {before : Members} {key : String} {t b : List Char} :
      Stands limit (.colon before key outer) t → Blank b →
      Stands limit (.value (.member before key :: outer)) (t ++ ':' :: b)

variable {limit : Nat}

theorem Stands.append_blank {p : Place} {t : List Char} (h : Stands limit p t) {c : Char}
    (hc : isBlank c = true) : Stands limit p (t ++ [c]) := by
  have hblank := Blank.singleton hc
  cases h with
  | top hb => exact .top (hb.append hblank)
  | item hout hlt hpieces hb =>
    rw [List.append_assoc, List.cons_append, List.append_assoc]
    exact .item hout hlt hpieces (hb.append hblank)
  | key hout hlt hkeys hvalues hb =>
    rw [List.append_assoc, List.cons_append, List.append_assoc]
    exact .key hout hlt hkeys hvalues (hb.append hblank)
  | colon hkey hinside hb =>
    rw [List.append_assoc, List.cons_append, List.append_assoc, List.cons_append]
    exact .colon hkey hinside (hb.append hblank)
  | member hcolon hb =>
    rw [List.append_assoc, List.cons_append]
    exact .member hcolon (hb.append hblank)

theorem Stands.firstItem {outer : List Frame} {t : List Char} (h : Stands limit (.value outer) t)
    (hlt : outer.length < limit) : Stands limit (.value (.items [] :: outer)) (t ++ ['[']) :=
  @Stands.item limit outer t [] [] h hlt (List.forall_mem_nil _) Blank.nil

theorem Stands.firstKey {outer : List Frame} {t : List Char} (h : Stands limit (.value outer) t)
    (hlt : outer.length < limit) : Stands limit (.key [] outer) (t ++ ['\x7b']) :=
  @Stands.key limit outer t [] [] h hlt (List.forall_mem_nil _) (List.forall_mem_nil _) Blank.nil

/-! ## what has been read -/

/-- this text has been read -/
inductive Holds (limit : Nat) : Reader → List Char → Prop
  | expecting {frames : List Frame} {t : List Char} : Stands limit (.value frames) t →
      Holds limit (.expecting frames) t
  | firstItem {outer : List Frame} {t : List Char} :
      Stands limit (.value (.items [] :: outer)) t → Holds limit (.firstItem outer) t
  | nextItem {before : List Json} {outer : List Frame} {t : List Char} :
      Stands limit (.value (.items before :: outer)) t → Holds limit (.nextItem before outer) t
  | firstKey {outer : List Frame} {t : List Char} : Stands limit (.key [] outer) t →
      Holds limit (.firstKey outer) t
  | nextKey {before : Members} {outer : List Frame} {t : List Char} :
      Stands limit (.key before outer) t → Holds limit (.nextKey before outer) t
  | colon {before : Members} {key : String} {outer : List Frame} {t : List Char} :
      Stands limit (.colon before key outer) t → Holds limit (.colon before key outer) t
  | done {v : Json} {frames : List Frame} {t s : List Char} : Stands limit (.value frames) t →
      Spells (limit - frames.length) s v → Holds limit (.done v frames) (t ++ s)
  | word {next : Char} {rest : List Char} {v : Json} {frames : List Frame} {t s : List Char} :
      Stands limit (.value frames) t → Spells (limit - frames.length) (s ++ next :: rest) v →
      Holds limit (.word next rest v frames) (t ++ s)
  | numeral {n : Numeral} {frames : List Frame} {t s : List Char} :
      Stands limit (.value frames) t → n.Reads s → Holds limit (.numeral n frames) (t ++ s)
  | textValue {tx : Text} {frames : List Frame} {t s : List Char} :
      Stands limit (.value frames) t → tx.Reads s →
      Holds limit (.text .value tx frames) (t ++ '"' :: s)
  | textKey {before : Members} {tx : Text} {outer : List Frame} {t s : List Char} :
      Stands limit (.key before outer) t → tx.Reads s →
      Holds limit (.text (.key before) tx outer) (t ++ '"' :: s)

/-- an array or object that has been closed, one level below what is inside it -/
theorem Holds.enclosed {outer : List Frame} {t s : List Char} {v : Json}
    (h : Stands limit (.value outer) t) (hlt : outer.length < limit)
    (hs : Spells (limit - (outer.length + 1) + 1) s v) : Holds limit (.done v outer) (t ++ s) := by
  have hdepth : limit - (outer.length + 1) + 1 = limit - outer.length := by omega
  rw [hdepth] at hs
  exact .done h hs

/-! ## a value begins -/

theorem beginValue_holds {frames : List Frame} {t : List Char} {c : Char} {r : Reader}
    (h : Stands limit (.value frames) t) (hbegin : beginValue limit frames c = .ok r) :
    Holds limit r (t ++ [c]) := by
  unfold beginValue at hbegin
  split at hbegin
  · next hc =>
    rw [hc]
    split at hbegin
    · next hlt =>
      cases hbegin
      exact .firstItem (h.firstItem hlt)
    · cases hbegin
  split at hbegin
  · next hc =>
    rw [hc]
    split at hbegin
    · next hlt =>
      cases hbegin
      exact .firstKey (h.firstKey hlt)
    · cases hbegin
  split at hbegin
  · next hc =>
    cases hbegin
    rw [hc]
    exact .textValue h Text.reads_empty
  split at hbegin
  · next hc =>
    cases hbegin
    rw [hc]
    exact .word h (.null _)
  split at hbegin
  · next hc =>
    cases hbegin
    rw [hc]
    exact .word h (.true _)
  split at hbegin
  · next hc =>
    cases hbegin
    rw [hc]
    exact .word h (.false _)
  split at hbegin
  · next n hn =>
    cases hbegin
    exact .numeral h (Numeral.reads_start hn)
  · cases hbegin

/-! ## a value has been read -/

/-- in an array: the next element or the end -/
theorem follow_items_holds {before : List Json} {outer : List Frame} {t s : List Char} {v : Json}
    (h : Stands limit (.value (.items before :: outer)) t)
    (hs : Spells (limit - (outer.length + 1)) s v) :
    Stands limit (.value (.items (v :: before) :: outer)) (t ++ s ++ [',']) ∧
      Holds limit (.done (.arr (v :: before).reverse) outer) (t ++ s ++ [']']) := by
  cases h with
  | @item _ t b pieces hout hlt hpieces hb =>
    have hall : ∀ p ∈ pieces ++ [(b ++ s, v)], Spells (limit - (outer.length + 1)) p.1 p.2 :=
      List.forall_mem_append.mpr ⟨hpieces, List.forall_mem_singleton.mpr (hs.blank_append hb)⟩
    constructor
    · have hnext := Stands.item hout hlt hall Blank.nil
      simpa using hnext
    · have harr := Spells.array (limit - (outer.length + 1)) (by simp) hall
      rw [List.map_append, List.map_singleton, intercalate_concat] at harr
      have hdone := Holds.enclosed hout hlt harr
      simpa using hdone

/-- in an object: the next member or the end -/
theorem follow_member_holds {before : Members} {key : String} {outer : List Frame}
    {t s : List Char} {v : Json} (h : Stands limit (.value (.member before key :: outer)) t)
    (hs : Spells (limit - (outer.length + 1)) s v) :
    Stands limit (.key (insert key v before) outer) (t ++ s ++ [',']) ∧
      Holds limit (.done (.obj (insert key v before)) outer) (t ++ s ++ ['\x7d']) := by
  cases h with
  | @member _ _ _ _ b hcolon hb =>
  cases hcolon with
  | @colon _ _ _ inside chars blank hkey hinside hblank =>
  cases hkey with
  | @key _ t front pieces hout hlt hkeys hvalues hfront =>
    -- white space in front of the key and of the value goes to the member
    let m : Member := ⟨front ++ '"' :: (inside ++ ['"']), String.ofList chars, blank, b ++ s, v⟩
    have hkey : SpellsKey m.keyText m.key :=
      ⟨front, inside, chars, hfront, hinside, rfl, rfl⟩
    have hkeysAll : ∀ x ∈ pieces ++ [m], SpellsKey x.keyText x.key ∧ Blank x.blank :=
      List.forall_mem_append.mpr ⟨hkeys, List.forall_mem_singleton.mpr ⟨hkey, hblank⟩⟩
    have hvaluesAll : ∀ x ∈ pieces ++ [m],
        Spells (limit - (outer.length + 1)) x.valueText x.value :=
      List.forall_mem_append.mpr ⟨hvalues, List.forall_mem_singleton.mpr (hs.blank_append hb)⟩
    have hpairs : ofPairs ((pieces ++ [m]).map Member.pair) =
        insert (String.ofList chars) v (ofPairs (pieces.map Member.pair)) := by
      rw [List.map_append, List.map_singleton]
      exact ofPairs_concat _ _ _
    constructor
    · have hnext := Stands.key hout hlt hkeysAll hvaluesAll Blank.nil
      rw [hpairs] at hnext
      simpa [m, Member.text] using hnext
    · have hobj := Spells.object (limit - (outer.length + 1)) (by simp) hkeysAll hvaluesAll
      rw [hpairs, List.map_append, List.map_singleton, intercalate_concat] at hobj
      have hdone := Holds.enclosed hout hlt hobj
      simpa [m, Member.text] using hdone

theorem follow_holds {frames : List Frame} {t s : List Char} {v : Json} {c : Char} {r : Reader}
    (h : Stands limit (.value frames) t) (hs : Spells (limit - frames.length) s v)
    (hfollow : follow v frames c = .ok r) : Holds limit r (t ++ s ++ [c]) := by
  unfold follow at hfollow
  split at hfollow
  · next hc =>
    cases hfollow
    rw [List.append_assoc]
    exact .done h (hs.append_blank (.singleton hc))
  · cases frames with
    | nil => cases hfollow
    | cons frame outer =>
      rw [List.length_cons] at hs
      cases frame with
      | items before =>
        obtain ⟨hcomma, hclose⟩ := follow_items_holds h hs
        dsimp only at hfollow
        split at hfollow
        · next hc =>
          cases hfollow
          rw [hc]
          exact .nextItem hcomma
        · split at hfollow
          · next hc =>
            cases hfollow
            rw [hc]
            exact hclose
          · cases hfollow
      | member before key =>
        obtain ⟨hcomma, hclose⟩ := follow_member_holds h hs
        dsimp only at hfollow
        split at hfollow
        · next hc =>
          cases hfollow
          rw [hc]
          exact .nextKey hcomma
        · split at hfollow
          · next hc =>
            cases hfollow
            rw [hc]
            exact hclose
          · cases hfollow

/-- an array or object that is closed before anything stands in it -/
theorem close_firstItem_holds {outer : List Frame} {t : List Char}
    (h : Stands limit (.value (.items [] :: outer)) t) :
    Holds limit (.done (.arr []) outer) (t ++ [']']) := by
  -- no element is kept in the frame, so none has been read
  generalize hbefore : ([] : List Json) = before at h
  cases h with
  | item hout hlt hpieces hb =>
    have hnil := List.map_eq_nil_iff.mp (List.reverse_eq_nil_iff.mp hbefore.symm)
    rw [hnil]
    have hdone := Holds.enclosed hout hlt (.emptyArray _ hb)
    simpa using hdone

theorem close_firstKey_holds {outer : List Frame} {t : List Char}
    (h : Stands limit (.key [] outer) t) :
    Holds limit (.done (.obj []) outer) (t ++ ['\x7d']) := by
  generalize hbefore : ([] : Members) = before at h
  cases h with
  | key hout hlt hkeys hvalues hb =>
    have hnil := List.map_eq_nil_iff.mp (eq_nil_of_ofPairs hbefore.symm)
    rw [hnil]
    have hdone := Holds.enclosed hout hlt (.emptyObject _ hb)
    simpa [ofPairs] using hdone

/-! ## every character -/

theorem Holds.step {r r' : Reader} {t : List Char} {c : Char} (h : Holds limit r t)
    (hstep : r.step limit c = .ok r') : Holds limit r' (t ++ [c]) := by
  cases h with
  | expecting h =>
    rw [Reader.step] at hstep
    split at hstep
    · next hc =>
      cases hstep
      exact .expecting (h.append_blank hc)
    · exact beginValue_holds h hstep
  | firstItem h =>
    rw [Reader.step] at hstep
    split at hstep
    · next hc =>
      cases hstep
      exact .firstItem (h.append_blank hc)
    · split at hstep
      · next hc =>
        cases hstep
        rw [hc]
        exact close_firstItem_holds h
      · exact beginValue_holds h hstep
  | nextItem h =>
    rw [Reader.step] at hstep
    split at hstep
    · next hc =>
      cases hstep
      exact .nextItem (h.append_blank hc)
    · split at hstep
      · cases hstep
      · exact beginValue_holds h hstep
  | firstKey h =>
    rw [Reader.step] at hstep
    split at hstep
    · next hc =>
      cases hstep
      exact .firstKey (h.append_blank hc)
    · split at hstep
      · next hc =>
        cases hstep
        rw [hc]
        exact close_firstKey_holds h
      · split at hstep
        · next hc =>
          cases hstep
          rw [hc]
          exact .textKey h Text.reads_empty
        · cases hstep
  | nextKey h =>
    rw [Reader.step] at hstep
    split at hstep
    · next hc =>
      cases hstep
      exact .nextKey (h.append_blank hc)
    · split at hstep
      · cases hstep
      · split at hstep
        · next hc =>
          cases hstep
          rw [hc]
          exact .textKey h Text.reads_empty
        · cases hstep
  | colon h =>
    rw [Reader.step] at hstep
    split at hstep
    · next hc =>
      cases hstep
      exact .colon (h.append_blank hc)
    · split at hstep
      · next hc =>
        cases hstep
        rw [hc]
        exact .expecting (.member h Blank.nil)
      · cases hstep
  | done h hs => exact follow_holds h hs hstep
  | @word next rest v frames t s h hs =>
    unfold Reader.step at hstep
    dsimp only at hstep
    rw [List.append_assoc]
    split at hstep
    · cases hstep
    · next hc =>
      rw [not_not.mp hc]
      cases rest with
      | nil =>
        cases hstep
        exact .done h hs
      | cons x rest =>
        cases hstep
        refine .word h ?_
        rwa [List.append_assoc]
  | numeral h hn =>
    dsimp only [Reader.step] at hstep
    split at hstep
    · next hnext =>
      cases hstep
      rw [List.append_assoc]
      exact .numeral h (hn.step hnext)
    · cases hstep
    · split at hstep
      · next hvalue =>
        obtain ⟨l, rfl, hl⟩ := hn.literal hvalue
        exact follow_holds h (.number _ hl) hstep
      · cases hstep
  | textValue h htx =>
    rw [Reader.step] at hstep
    rw [List.append_assoc, List.cons_append]
    split at hstep
    · next hnext =>
      cases hstep
      exact .textValue h (htx.step hnext)
    · cases hstep
    · next hends =>
      cases hstep
      obtain ⟨rfl, chars, hchars, rfl⟩ := htx.ends hends
      exact .done h (.string _ hchars)
  | textKey h htx =>
    rw [Reader.step] at hstep
    rw [List.append_assoc, List.cons_append]
    split at hstep
    · next hnext =>
      cases hstep
      exact .textKey h (htx.step hnext)
    · cases hstep
    · next hends =>
      cases hstep
      obtain ⟨rfl, chars, hchars, rfl⟩ := htx.ends hends
      exact .colon (.colon h hchars Blank.nil)

theorem Holds.feed {r r' : Reader} {t s : List Char} (h : Holds limit r t)
    (hfeed : r.feed limit s = .ok r') : Holds limit r' (t ++ s) := by
  induction s generalizing r t with
  | nil =>
    cases hfeed
    rw [List.append_nil]
    exact h
  | cons c rest ih =>
    cases hstep : r.step limit c with
    | ok m =>
      rw [feed_cons hstep] at hfeed
      have hrest := ih (h.step hstep) hfeed
      rwa [List.append_assoc] at hrest
    | error stop =>
      rw [Reader.feed, List.foldlM_cons, hstep] at hfeed
      cases hfeed

/-! ## whole texts -/

theorem Holds.finish {r : Reader} {t : List Char} {v : Json} (h : Holds limit r t)
    (hfinish : r.finish = .ok v) : Spells limit t v := by
  have at_top {frames : List Frame} {t s : List Char} {value : Json}
      (ht : Stands limit (.value frames) t) (hs : Spells (limit - frames.length) s value)
      (hclosed : closed value frames = .ok v) : Spells limit (t ++ s) v := by
    cases ht with
    | top hb =>
      cases hclosed
      exact hs.blank_append hb
    | item => cases hclosed
    | member => cases hclosed
  cases h with
  | done ht hs => exact at_top ht hs hfinish
  | numeral ht hn =>
    rw [Reader.finish] at hfinish
    split at hfinish
    · next hvalue =>
      obtain ⟨l, rfl, hl⟩ := hn.literal hvalue
      exact at_top ht (.number _ hl) hfinish
    · cases hfinish
  | expecting | firstItem | nextItem | firstKey | nextKey | colon | word => cases hfinish
  | textValue | textKey => cases hfinish

/-- a whole text is read to a value just if it spells that value -/
theorem run_start_eq_ok_iff {t : List Char} {v : Json} (offset : Nat) :
    start.run limit offset t = .ok v ↔ Spells limit t v := by
  constructor
  · intro h
    obtain ⟨r, hfeed, hfinish⟩ := run_eq_ok_iff.mp h
    have hstart : Holds limit start [] := .expecting (.top Blank.nil)
    exact (hstart.feed hfeed).finish hfinish
  · exact fun h => run_start_of_spells h offset

end Reader

theorem parseWithin_eq_ok_iff {limit : Nat} {text : String} {v : Json} :
    parseWithin limit text = .ok v ↔ Spells limit text.toList v := by
  rw [← Reader.run_start_eq_ok_iff 0, parseWithin]
  split
  · next h => rw [h, Except.ok.injEq, Except.ok.injEq]
  · next h => simp [h]

theorem parse_eq_ok_iff {text : String} {v : Json} : parse text = .ok v ↔ SpelledBy text v :=
  parseWithin_eq_ok_iff

end Toolflow.Json
