import Mathlib.Data.List.Induction
import Toolflow.Json.Text
import Toolflow.Proofs.Xml.Legal
import Toolflow.Proofs.Xml.Normal

/-!
# An XML processor

An XML processor that has no document type reads as the plain reader does, but for four things.

* `lineFeeds`       it replaces the line ends before it reads anything;
* `Mode.process`    a blank character in an attribute counts as a space;
* `reference?`      it knows characters by their numbers as well as by their names;
* `processed?`      it takes no text with a character that is not legal, by number or otherwise.

Where a plain reader goes through a text, a processor follows it:

* `Mode.normal`, `Mode.Keeps`   the mode the processor is in meanwhile, and what a mode knows about
                    whether the last character was a carriage return;
* `State.process_of_run`   the processor keeps up with the reader, by induction from the back of
                    the text, since what becomes of a line feed depends on the character before;
* `processed?_of_document?`   it hands on what the reader reads, normalised.

What a text must keep to beyond the rules of the plain reader is not looked at: an attribute may be
given twice, for instance.
-/

namespace Toolflow.Xml

/-! ## references -/

/-- the number that these digits write in a base, which is not above sixteen -/
def numeral? (base : Nat) : List Char → Option Nat
  | [] => none
  | digits => digits.foldlM (fun n c =>
      (Json.hexDigit? c).bind fun d => if d < base then some (n * base + d) else none) 0

/-- the character of this number, if it is a legal one -/
def legalChar? (n : Nat) : Option Char :=
  if (Char.ofNat n).toNat = n ∧ isLegal (Char.ofNat n) = true then some (Char.ofNat n) else none

/-- the character that a reference stands for, by its number or by its name -/
def reference? : List Char → Option Char
  | '#' :: 'x' :: digits => (numeral? 16 digits).bind legalChar?
  | '#' :: digits => (numeral? 10 digits).bind legalChar?
  | name => entity? name

/-! ## one character -/

/-- a character as a processor takes it: one that is blank counts as a space in an attribute, and
a reference may give a character by its number -/
def Mode.process (c : Char) : Mode → Option (Mode × Option Event)
  | .data (.attribute tag name) read =>
    (Mode.data (.attribute tag name) read).step (if isBlank c then ' ' else c)
  | .entity place read name =>
    if c = ';' then (reference? name).bind fun d => go (.data place (read ++ [d]))
    else go (.entity place read (name ++ [c]))
  | m => m.step c

namespace State

/-- the state after a mode and perhaps an event -/
def take (leaf : String → Bool) (nest : Nest) : Option (Mode × Option Event) → Option State
  | none => none
  | some (mode, none) => some ⟨mode, nest⟩
  | some (mode, some e) => (nest.add leaf e).map (⟨mode, ·⟩)

def process (leaf : String → Bool) (st : State) : List Char → Option State
  | [] => some st
  | c :: rest => (take leaf st.nest (st.mode.process c)).bind fun st => process leaf st rest

end State

/-- what a processor hands on of the one element of a text that declares itself XML -/
def processed? (leaf : String → Bool) (s : String) : Option Tree :=
  if s.toList.all isLegal then
    match ((lineFeeds s.toList).dropPrefix? declared.toList).bind fun rest =>
        (State.start.process leaf rest).bind (State.finish leaf) with
    | some [.element name attrs content] => some (.element name attrs content)
    | _ => none
  else none

example : processed? (· = "b")
    "<?xml version=\"1.0\"?>\r\n<a x=\"1\t2&#9;3\">\r<b>1\r\n2&#xD;</b></a>"
    = some (.element "a" [("x", "1 2\t3")] [.element "b" [] [.text "1\n2\r"]]) := rfl

/-! ## what is handed on of a mode -/

def Tag.normal (tag : Tag) : Tag := ⟨tag.name, tag.attrs.map normalAttr⟩

def Event.normal : Event → Event
  | text s => text (normalText s)
  | comment body => comment (normalText body)
  | startTag tag => startTag tag.normal
  | emptyTag tag => emptyTag tag.normal
  | endTag name => endTag name

namespace Place

def normal : Place → Place
  | .content => .content
  | .attribute tag name => .attribute tag.normal name

/-- what a processor makes of the characters that stand here -/
def normalRead : Place → List Char → List Char
  | .content, read => lineFeeds read
  | .attribute _ _, read => spaces (lineFeeds read)

end Place

namespace Mode

/-- the mode in which a processor is where a plain reader is in this one -/
def normal : Mode → Mode
  | data place read => data place.normal (place.normalRead read)
  | entity place read name => entity place.normal (place.normalRead read) (lineFeeds name)
  | markup => markup
  | tagName read => tagName (lineFeeds read)
  | gap tag => gap tag.normal
  | attrName tag read => attrName tag.normal (lineFeeds read)
  | equals tag name => equals tag.normal name
  | attrEnd tag => attrEnd tag.normal
  | slash tag => slash tag.normal
  | endName read => endName (lineFeeds read)
  | endGap name => endGap name
  | bang => bang
  | bangHyphen => bangHyphen
  | comment read => comment (lineFeeds read)
  | commentHyphen read => commentHyphen (lineFeeds read)
  | commentEnd read => commentEnd (lineFeeds read)

/-- the mode agrees with whether the last character was a carriage return: it is the last one of
those that are being read, or it may have been passed over inside a tag -/
def Keeps (after : Prop) : Mode → Prop
  | data _ read | entity _ _ read | tagName read | attrName _ read | endName read
  | comment read => read.getLast? = some '\r' ↔ after
  | gap _ | endGap _ => True
  | _ => ¬ after

/-- what is handed on where a character leads to this mode and this event -/
def handOn (x : Mode × Option Event) : Mode × Option Event := (x.1.normal, x.2.map Event.normal)

theorem map_handOn_go (m : Mode) : (go m).map handOn = go m.normal := rfl

theorem map_handOn_tell (e : Event) : (tell e).map handOn = tell e.normal := rfl

end Mode

section
variable {m k : Mode} {e : Option Event} {c d : Char} {after : Prop}

theorem entity?_eq_some {s : List Char} {d : Char} (h : entity? s = some d) :
    isBlank d = false ∧ lineFeeds s = s ∧ reference? s = some d := by
  unfold entity? at h
  split at h
  · next hs => obtain rfl := Option.some.inj h; subst hs; decide
  · split at h
    · next hs => obtain rfl := Option.some.inj h; subst hs; decide
    · split at h
      · next hs => obtain rfl := Option.some.inj h; subst hs; decide
      · split at h
        · next hs => obtain rfl := Option.some.inj h; subst hs; decide
        · split at h
          · next hs => obtain rfl := Option.some.inj h; subst hs; decide
          · exact nomatch h

theorem isBlank_lineEnd (c : Char) : isBlank (lineEnd c) = isBlank c := by
  by_cases hc : c = '\r'
  · subst hc; decide
  · rw [lineEnd_of_ne hc]

theorem lineEnd_eq_iff (hd : isBlank d = false) : lineEnd c = d ↔ c = d := by
  by_cases hc : c = '\r'
  · subst hc
    refine iff_of_false ?_ ?_ <;> (rintro rfl; exact absurd hd (by decide))
  · rw [lineEnd_of_ne hc]

theorem spaceFor_eq_iff (hd : isBlank d = false) : spaceFor c = d ↔ c = d := by
  by_cases hc : isBlank c = true
  · rw [spaceFor, if_pos hc]
    refine iff_of_false ?_ ?_
    · rintro rfl
      exact absurd hd (by decide)
    · rintro rfl
      exact absurd hd (by rw [hc]; decide)
  · rw [spaceFor, if_neg hc]

/-- no blank character stands in a name -/
theorem name?_eq_none {read : List Char} (hc : c ∈ read) (hblank : isBlank c = true) :
    name? read = none := by
  refine if_neg fun h => ?_
  obtain ⟨d, rest, rfl, hd, hrest⟩ := exists_cons_of_isName h
  have hname : isNameChar c = true := by
    rcases List.mem_cons.mp hc with rfl | hc
    · exact hd
    · exact hrest c hc
  rw [isBlank_of_isNameChar hname] at hblank
  exact Bool.noConfusion hblank

theorem name?_lineFeeds (read : List Char) : name? (lineFeeds read) = name? read := by
  by_cases hreturn : '\r' ∈ read
  · rw [name?_eq_none hreturn (by decide),
      name?_eq_none (lineFeed_mem_lineFeeds hreturn) (by decide)]
  · rw [lineFeeds_eq_self_iff.mpr hreturn]

theorem lineFeeds_hyphen (read : List Char) (c : Char) :
    lineFeeds (read ++ ['-', c]) = lineFeeds read ++ ['-', lineEnd c] := by
  have hsplit : read ++ ['-', c] = read ++ ['-'] ++ [c] := (List.append_cons read '-' [c])
  have hlast : (read ++ ['-']).getLast? ≠ some '\r' := by
    rw [List.getLast?_concat]
    decide
  rw [hsplit, lineFeeds_concat, if_neg fun h => hlast h.1, lineFeeds_concat,
    if_neg fun h => absurd h.2 (by decide), List.append_assoc]
  rfl

/-- **What a processor makes of a character is what a plain reader makes of it, handed on.** -/
theorem process_normal (hkeeps : m.Keeps after) (hc : ¬ (after ∧ c = '\n'))
    (hm : ∀ place read name, m ≠ .entity place read name) :
    m.normal.process (lineEnd c) = (m.step c).map Mode.handOn := by
  have hpush : ∀ read : List Char, (read.getLast? = some '\r' ↔ after) →
      lineFeeds (read ++ [c]) = lineFeeds read ++ [lineEnd c] := by
    intro read hread
    rw [lineFeeds_concat, if_neg (by rw [hread]; exact hc)]
  cases m with
  | data place read =>
    rcases place with _ | ⟨tag, name⟩
    · simp (disch := decide) only [Mode.normal, Place.normal, Place.normalRead, Mode.process,
        Mode.step, lineEnd_eq_iff, apply_ite (Option.map Mode.handOn), Mode.map_handOn_go,
        Option.map_some, ← normalText_ofList]
      rw [← hpush read hkeeps]
      rfl
    · have hvalue : ∀ d, isBlank d = false → (spaceFor (lineEnd c) = d ↔ c = d) := fun d hd =>
        (spaceFor_eq_iff hd).trans (lineEnd_eq_iff hd)
      have hspaces : spaces (lineFeeds read) ++ [spaceFor (lineEnd c)]
          = spaces (lineFeeds (read ++ [c])) := by
        rw [hpush read hkeeps, spaces_concat]
      show (Mode.data (.attribute tag.normal name) (spaces (lineFeeds read))).step
        (spaceFor (lineEnd c)) = _
      simp (disch := decide) only [Mode.step, hvalue, apply_ite (Option.map Mode.handOn),
        Mode.map_handOn_go, Option.map_none, hspaces, ← normalValue_ofList, Mode.normal,
        Tag.normal, List.map_append]
      rfl
  | entity place read name => exact absurd rfl (hm place read name)
  | markup =>
    simp (disch := decide) only [Mode.normal, Mode.process, Mode.step, lineEnd_eq_iff,
      apply_ite (Option.map Mode.handOn), Mode.map_handOn_go, ← lineFeeds_singleton]
    rfl
  | tagName read =>
    simp (disch := decide) only [Mode.normal, Mode.process, Mode.step, lineEnd_eq_iff,
      isBlank_lineEnd, name?_lineFeeds, apply_ite (Option.map Mode.handOn), Option.map_bind,
      Function.comp_def, Mode.map_handOn_go, Mode.map_handOn_tell, ← hpush read hkeeps]
    rfl
  | gap tag =>
    simp (disch := decide) only [Mode.normal, Mode.process, Mode.step, lineEnd_eq_iff,
      isBlank_lineEnd, apply_ite (Option.map Mode.handOn), Mode.map_handOn_go,
      Mode.map_handOn_tell, ← lineFeeds_singleton]
    rfl
  | attrName tag read =>
    simp (disch := decide) only [Mode.normal, Mode.process, Mode.step, lineEnd_eq_iff,
      name?_lineFeeds, apply_ite (Option.map Mode.handOn), Option.map_bind,
      Function.comp_def, Mode.map_handOn_go, ← hpush read hkeeps]
  | equals tag name =>
    simp (disch := decide) only [Mode.normal, Mode.process, Mode.step, lineEnd_eq_iff,
      apply_ite (Option.map Mode.handOn), Mode.map_handOn_go, Option.map_none, Place.normalRead,
      lineFeeds_nil]
    rfl
  | attrEnd tag =>
    simp (disch := decide) only [Mode.normal, Mode.process, Mode.step, lineEnd_eq_iff,
      isBlank_lineEnd, apply_ite (Option.map Mode.handOn), Mode.map_handOn_go,
      Mode.map_handOn_tell, Option.map_none]
    rfl
  | slash tag =>
    simp (disch := decide) only [Mode.normal, Mode.process, Mode.step, lineEnd_eq_iff,
      apply_ite (Option.map Mode.handOn), Mode.map_handOn_tell, Option.map_none]
    rfl
  | endName read =>
    simp (disch := decide) only [Mode.normal, Mode.process, Mode.step, lineEnd_eq_iff,
      isBlank_lineEnd, name?_lineFeeds, apply_ite (Option.map Mode.handOn), Option.map_bind,
      Function.comp_def, Mode.map_handOn_go, Mode.map_handOn_tell, ← hpush read hkeeps]
    rfl
  | endGap name =>
    simp (disch := decide) only [Mode.normal, Mode.process, Mode.step, lineEnd_eq_iff,
      isBlank_lineEnd, apply_ite (Option.map Mode.handOn), Mode.map_handOn_go,
      Mode.map_handOn_tell, Option.map_none]
    rfl
  | bang =>
    simp (disch := decide) only [Mode.normal, Mode.process, Mode.step, lineEnd_eq_iff,
      apply_ite (Option.map Mode.handOn), Mode.map_handOn_go, Option.map_none]
  | bangHyphen =>
    simp (disch := decide) only [Mode.normal, Mode.process, Mode.step, lineEnd_eq_iff,
      apply_ite (Option.map Mode.handOn), Mode.map_handOn_go, Option.map_none, lineFeeds_nil]
  | comment read =>
    simp (disch := decide) only [Mode.normal, Mode.process, Mode.step, lineEnd_eq_iff,
      apply_ite (Option.map Mode.handOn), Mode.map_handOn_go, ← hpush read hkeeps]
  | commentHyphen read =>
    simp (disch := decide) only [Mode.normal, Mode.process, Mode.step, lineEnd_eq_iff,
      apply_ite (Option.map Mode.handOn), Mode.map_handOn_go, lineFeeds_hyphen]
  | commentEnd read =>
    simp (disch := decide) only [Mode.normal, Mode.process, Mode.step, lineEnd_eq_iff,
      apply_ite (Option.map Mode.handOn), Mode.map_handOn_tell, Option.map_none,
      ← normalText_ofList]
    rfl

theorem normalRead_concat (place : Place) (read : List Char) (hd : isBlank d = false) :
    place.normalRead (read ++ [d]) = place.normalRead read ++ [d] := by
  have hne : ∀ b, isBlank b = true → d ≠ b := fun b hb heq => by
    rw [heq, hb] at hd
    exact Bool.noConfusion hd
  have hfeed : d ≠ '\n' := hne '\n' (by decide)
  have hreturn : d ≠ '\r' := hne '\r' (by decide)
  have hlines : lineFeeds (read ++ [d]) = lineFeeds read ++ [d] := by
    rw [lineFeeds_concat, if_neg fun h => hfeed h.2, lineEnd_of_ne hreturn]
  cases place with
  | content => exact hlines
  | _ =>
    show spaces _ = spaces _ ++ [d]
    rw [hlines, spaces_concat, (spaceFor_eq_iff hd).mpr rfl]

theorem process_of_step (hkeeps : m.Keeps after) (hc : ¬ (after ∧ c = '\n'))
    (h : m.step c = some (k, e)) :
    m.normal.process (lineEnd c) = some (k.normal, e.map Event.normal) := by
  by_cases hm : ∀ place read name, m ≠ .entity place read name
  · rw [process_normal hkeeps hc hm, h]
    rfl
  · simp only [not_forall, not_not] at hm
    obtain ⟨place, read, name, rfl⟩ := hm
    by_cases hend : c = ';'
    · subst hend
      -- a plain reader knows five entities, and a processor knows them as well
      obtain ⟨d, hd, hgo⟩ := Option.bind_eq_some_iff.mp h
      obtain ⟨hblank, hsame, hreference⟩ := entity?_eq_some hd
      obtain ⟨rfl, rfl⟩ := Prod.mk.inj (Option.some.inj hgo)
      show (reference? (lineFeeds name)).bind _ = _
      rw [hsame, hreference, Option.bind_some, ← normalRead_concat place read hblank]
      rfl
    · have hstep : (Mode.entity place read name).step c
          = Mode.go (.entity place read (name ++ [c])) := if_neg hend
      have hpush : lineFeeds (name ++ [c]) = lineFeeds name ++ [lineEnd c] := by
        have hlast : name.getLast? = some '\r' ↔ after := hkeeps
        rw [lineFeeds_concat, if_neg (by rw [hlast]; exact hc)]
      have hend' : ¬ lineEnd c = ';' := by
        rw [lineEnd_eq_iff (by decide)]
        exact hend
      rw [hstep] at h
      obtain ⟨rfl, rfl⟩ := Prod.mk.inj (Option.some.inj h)
      show (if lineEnd c = ';' then _ else _) = _
      rw [if_neg hend', ← hpush]
      rfl

/-- a line feed right after a carriage return makes no difference -/
theorem normal_of_lineFeed (hkeeps : m.Keeps after) (hafter : after)
    (h : m.step '\n' = some (k, e)) : k.normal = m.normal ∧ e = none := by
  have hpush : ∀ read : List Char, (read.getLast? = some '\r' ↔ after) →
      lineFeeds (read ++ ['\n']) = lineFeeds read := by
    intro read hread
    rw [lineFeeds_concat, if_pos ⟨hread.mpr hafter, rfl⟩]
  have hname : ∀ read : List Char, (read.getLast? = some '\r' ↔ after) → name? read = none :=
    fun read hread => name?_eq_none (List.mem_of_getLast? (hread.mpr hafter)) (by decide)
  cases m with
  | data place read =>
    rcases place with _ | ⟨tag, name⟩
    · obtain ⟨rfl, rfl⟩ := Prod.mk.inj (Option.some.inj h)
      exact ⟨congrArg (Mode.data .content) (hpush read hkeeps), rfl⟩
    · obtain ⟨rfl, rfl⟩ := Prod.mk.inj (Option.some.inj h)
      exact ⟨congrArg (fun read => Mode.data _ (spaces read)) (hpush read hkeeps), rfl⟩
  | entity place read name =>
    obtain ⟨rfl, rfl⟩ := Prod.mk.inj (Option.some.inj h)
    exact ⟨congrArg (Mode.entity _ _) (hpush name hkeeps), rfl⟩
  | tagName read =>
    have hstep : (Mode.tagName read).step '\n'
        = (name? read).bind fun name => Mode.go (.gap ⟨name, []⟩) := rfl
    rw [hstep, hname read hkeeps] at h
    exact nomatch h
  | gap tag =>
    obtain ⟨rfl, rfl⟩ := Prod.mk.inj (Option.some.inj h)
    exact ⟨rfl, rfl⟩
  | attrName tag read =>
    obtain ⟨rfl, rfl⟩ := Prod.mk.inj (Option.some.inj h)
    exact ⟨congrArg (Mode.attrName _) (hpush read hkeeps), rfl⟩
  | endName read =>
    have hstep : (Mode.endName read).step '\n'
        = (name? read).bind fun name => Mode.go (.endGap name) := rfl
    rw [hstep, hname read hkeeps] at h
    exact nomatch h
  | endGap name =>
    obtain ⟨rfl, rfl⟩ := Prod.mk.inj (Option.some.inj h)
    exact ⟨rfl, rfl⟩
  | comment read =>
    obtain ⟨rfl, rfl⟩ := Prod.mk.inj (Option.some.inj h)
    exact ⟨congrArg Mode.comment (hpush read hkeeps), rfl⟩
  | _ => exact absurd hafter hkeeps

/-- a mode agrees with the character that led to it -/
theorem keeps_of_step (h : m.step c = some (k, e)) : k.Keeps (c = '\r') := by
  have hblank : isBlank '\r' = true := by decide
  have hlast : ∀ read : List Char, (read ++ [c]).getLast? = some '\r' ↔ c = '\r' := by
    intro read
    rw [List.getLast?_concat, Option.some.injEq]
  cases m with
  | data place read =>
    rcases place with _ | ⟨tag, name⟩
    · simp only [Mode.step, Mode.go] at h
      grind [Mode.Keeps]
    · simp only [Mode.step, Mode.go] at h
      grind [Mode.Keeps]
  | entity place read name =>
    cases hentity : entity? name with
    | none =>
      simp only [Mode.step, Mode.go, hentity, Option.bind_none] at h
      grind [Mode.Keeps]
    | some d =>
      have hd : isBlank d = false := (entity?_eq_some hentity).1
      simp only [Mode.step, Mode.go, hentity, Option.bind_some] at h
      grind [Mode.Keeps]
  | tagName read | attrName _ read | endName read =>
    cases hname : name? read with
    | none =>
      simp only [Mode.step, Mode.go, hname, Option.bind_none] at h
      grind [Mode.Keeps]
    | some name =>
      simp only [Mode.step, Mode.go, Mode.tell, hname, Option.bind_some] at h
      grind [Mode.Keeps]
  | _ =>
    simp only [Mode.step, Mode.go, Mode.tell] at h
    grind [Mode.Keeps]

end

/-! ## open elements -/

theorem normalText_eq_empty_iff {s : String} : normalText s = "" ↔ s = "" := by
  rw [normalText, ← String.toList_inj, String.toList_ofList, ← String.toList_inj]
  exact lineFeeds_eq_nil_iff

theorem all_isBlank_normalText (s : String) :
    (normalText s).toList.all isBlank = s.toList.all isBlank := by
  rw [normalText, String.toList_ofList, all_isBlank_lineFeeds]

def Open.normal (o : Open) : Open :=
  ⟨o.name, o.attrs.map normalAttr, o.before.map Tree.normal⟩

namespace Nest

def normal (n : Nest) : Nest := ⟨n.opens.map Open.normal, n.content.map Tree.normal⟩

section
variable {leaf : String → Bool} (n : Nest)

theorem normal_put (t : Tree) : (n.put t).normal = n.normal.put t.normal := by
  rw [put, normal, List.map_append]
  rfl

theorem inLeaf_normal : n.normal.inLeaf leaf = n.inLeaf leaf := by
  unfold inLeaf normal
  cases n.opens <;> rfl

/-- a text that is passed over still is, and no other one -/
theorem normal_addText (s : String) :
    (n.addText leaf s).normal = n.normal.addText leaf (normalText s) := by
  have hiff : (normalText s = "" ∨ n.normal.inLeaf leaf = false ∧ (normalText s).toList.all isBlank)
      ↔ (s = "" ∨ n.inLeaf leaf = false ∧ s.toList.all isBlank) := by
    rw [inLeaf_normal, all_isBlank_normalText, normalText_eq_empty_iff]
  unfold addText
  rw [if_congr hiff rfl rfl, apply_ite normal, normal_put, Tree.normal]

theorem normal_finish : n.finish.map (List.map Tree.normal) = n.normal.finish := by
  obtain ⟨opens, content⟩ := n
  cases opens <;> rfl

theorem normal_close (name : String) : (n.close name).map normal = n.normal.close name := by
  obtain ⟨opens, content⟩ := n
  cases opens with
  | nil => rfl
  | cons o rest =>
    show Option.map normal (if o.name = name then _ else none) = if o.name = name then _ else none
    rw [apply_ite (Option.map normal)]
    refine if_congr Iff.rfl ?_ rfl
    rw [Option.map_some, normal, List.map_append, List.map_singleton, Tree.normal,
      Tree.allNormal_eq_map]
    rfl

theorem normal_add (e : Event) : (n.add leaf e).map normal = n.normal.add leaf e.normal := by
  cases e with
  | text s => exact congrArg some (normal_addText n s)
  | comment body => exact congrArg some (normal_put n (.comment body))
  | startTag tag => rfl
  | emptyTag tag =>
    refine congrArg some ((normal_put n (.element tag.name tag.attrs [])).trans ?_)
    rw [Tree.normal, Tree.allNormal]
    rfl
  | endTag name => exact normal_close n name

end

end Nest

/-! ## texts -/

namespace State

def normal (st : State) : State := ⟨st.mode.normal, st.nest.normal⟩

section
variable {leaf : String → Bool}

theorem process_append (st : State) (a b : List Char) :
    st.process leaf (a ++ b) = (st.process leaf a).bind fun st => st.process leaf b := by
  induction a generalizing st with
  | nil => rfl
  | cons c rest ih =>
    rw [List.cons_append, process, process, Option.bind_assoc]
    exact congrArg _ (funext ih)

theorem process_singleton (st : State) (c : Char) :
    st.process leaf [c] = take leaf st.nest (st.mode.process c) := by
  rw [process]
  exact Option.bind_fun_some _

/-- where a step leads, and what a processor does meanwhile -/
theorem normal_step {st st' : State} {c : Char} {after : Prop} (hkeeps : st.mode.Keeps after)
    (h : st.step leaf c = some st') :
    st'.mode.Keeps (c = '\r') ∧ (after ∧ c = '\n' → st'.normal = st.normal) ∧
      (¬ (after ∧ c = '\n') → st.normal.process leaf [lineEnd c] = some st'.normal) := by
  obtain ⟨m, n⟩ := st
  unfold step at h
  split at h
  · exact nomatch h
  · next k hk =>
    obtain rfl := Option.some.inj h
    refine ⟨keeps_of_step hk, ?_, fun hc => ?_⟩
    · rintro ⟨hafter, rfl⟩
      exact congrArg (State.mk · n.normal) (normal_of_lineFeed hkeeps hafter hk).1
    · rw [process_singleton]
      show take leaf n.normal (m.normal.process (lineEnd c)) = _
      rw [process_of_step hkeeps hc hk]
      rfl
  · next k e hk =>
    obtain ⟨n', hn', rfl⟩ := Option.map_eq_some_iff.mp h
    refine ⟨keeps_of_step hk, ?_, fun hc => ?_⟩
    · rintro ⟨hafter, rfl⟩
      exact nomatch (normal_of_lineFeed hkeeps hafter hk).2
    · rw [process_singleton]
      show take leaf n.normal (m.normal.process (lineEnd c)) = _
      rw [process_of_step hkeeps hc hk]
      show (n.normal.add leaf e.normal).map _ = _
      rw [← Nest.normal_add, hn']
      rfl

/-- **A processor follows a plain reader through a text, whatever its line ends are.** -/
theorem process_of_run {s : List Char} {st : State} (h : start.run leaf s = some st) :
    start.process leaf (lineFeeds s) = some st.normal ∧
      st.mode.Keeps (s.getLast? = some '\r') := by
  induction s using List.reverseRecOn generalizing st with
  | nil =>
    obtain rfl := Option.some.inj h
    have hstart : start.normal = start := by
      show State.mk (.data .content (lineFeeds [])) _ = _
      rw [lineFeeds_nil]
      rfl
    rw [lineFeeds_nil, hstart]
    exact ⟨rfl, Iff.rfl⟩
  | append_singleton s c ih =>
    rw [run_append] at h
    obtain ⟨st₀, hst₀, hlast⟩ := Option.bind_eq_some_iff.mp h
    rw [run, Option.bind_eq_some_iff] at hlast
    obtain ⟨st', hstep, hst'⟩ := hlast
    obtain rfl := Option.some.inj hst'
    obtain ⟨hprocess, hkeeps⟩ := ih hst₀
    obtain ⟨hkeeps', hsame, hgo⟩ := normal_step hkeeps hstep
    rw [List.getLast?_concat, Option.some.injEq, lineFeeds_concat]
    refine ⟨?_, hkeeps'⟩
    by_cases hc : s.getLast? = some '\r' ∧ c = '\n'
    · rw [if_pos hc, hsame hc, hprocess]
    · rw [if_neg hc, process_append, hprocess]
      exact hgo hc

theorem normal_finish (st : State) :
    (st.finish leaf).map (List.map Tree.normal) = st.normal.finish leaf := by
  obtain ⟨m, n⟩ := st
  cases m with
  | data place read =>
    rcases place with _ | ⟨tag, name⟩
    · show Option.map _ (n.addText leaf (String.ofList read)).finish
        = (n.normal.addText leaf (String.ofList (lineFeeds read))).finish
      rw [Nest.normal_finish, Nest.normal_addText, normalText_ofList]
    · rfl
  | _ => rfl

end

end State

/-- no text with a character that is not legal is handed on -/
theorem legal_of_processed? {leaf : String → Bool} {s : String} {t : Tree}
    (h : processed? leaf s = some t) : Legal s := by
  unfold processed? at h
  split at h
  · next hlegal => exact List.all_eq_true.mp hlegal
  · exact nomatch h

/-- **A processor hands on what a plain reader reads, normalised.** -/
theorem processed?_of_document? {leaf : String → Bool} {s : String} {t : Tree} (hlegal : Legal s)
    (h : document? leaf s = some t) : processed? leaf s = some t.normal := by
  have hdeclared : '\r' ∉ declared.toList := by decide
  unfold document? at h
  split at h
  · next name attrs content hread =>
    obtain rfl := Option.some.inj h
    obtain ⟨rest, hrest, hforest⟩ := Option.bind_eq_some_iff.mp hread
    obtain ⟨st, hrun, hfinish⟩ := Option.bind_eq_some_iff.mp hforest
    obtain ⟨start, hs, hstart⟩ := List.dropPrefix?_eq_some_iff.mp hrest
    obtain rfl := eq_of_beq hstart
    have hlines : (lineFeeds s.toList).dropPrefix? declared.toList = some (lineFeeds rest) := by
      rw [hs, lineFeeds_append hdeclared]
      exact List.dropPrefix?_append_of_beq _ (beq_self_eq_true _)
    have hnormal : st.normal.finish leaf = some [(Tree.element name attrs content).normal] := by
      rw [← State.normal_finish, hfinish]
      rfl
    rw [processed?, if_pos (List.all_eq_true.mpr hlegal), hlines, Option.bind_some,
      (State.process_of_run hrun).1, Option.bind_some, hnormal, Tree.normal]
  · exact nomatch h

end Toolflow.Xml
