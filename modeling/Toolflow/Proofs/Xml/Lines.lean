import Toolflow.Proofs.Xml.Characters

/-!
# Lines and open elements

What is written of an item stands line by line, one line for each step, and a plain reader that
has read so many lines has so many elements open as the writer's level says.

* `outputs_line`        a line of the text is the line of a step, behind the lines of the steps
                        before it;
* `opens_addAll`        the open elements of the reader are the level of the writer;
* `exists_startTag`     an end tag among the steps of an item has its start tag there;
* `Indented`            each line of a text stands behind two spaces for every element around it,
                        and an end tag stands where its start tag stands;
* `indented_outputs`    so does each line that is written of an item.
-/

namespace Toolflow.Xml

/-! ## lines -/

theorem eq_of_lineFeeds {a b s t : List Char} (ha : '\n' ∉ a) (hb : '\n' ∉ b)
    (h : a ++ '\n' :: s = b ++ '\n' :: t) : a = b ∧ s = t := by
  induction a generalizing b with
  | nil =>
    cases b with
    | nil => exact ⟨rfl, (List.cons.inj h).2⟩
    | cons d b => exact absurd (List.mem_cons.mpr (.inl (List.cons.inj h).1)) hb
  | cons c a ih =>
    cases b with
    | nil => exact absurd (List.mem_cons.mpr (.inl (List.cons.inj h).1.symm)) ha
    | cons d b =>
      obtain ⟨rfl, hrest⟩ := List.cons.inj h
      obtain ⟨rfl, hsame⟩ := ih (fun hmem => ha (List.mem_cons_of_mem _ hmem))
        (fun hmem => hb (List.mem_cons_of_mem _ hmem)) hrest
      exact ⟨rfl, hsame⟩

/-- a step writes one line -/
def Step.OneLine (s : Step) : Prop := '\n' ∉ s.markup.toList

theorem Step.OneLine.notMem {s : Step} (h : s.OneLine) (level : Nat) :
    '\n' ∉ (indent level ++ s.markup).toList := by
  rw [String.toList_append, indent, String.toList_ofList, List.mem_append]
  rintro (hindent | hmarkup)
  · exact absurd (List.eq_of_mem_replicate hindent) (by decide)
  · exact h hmarkup

theorem toList_outputs_cons (level : Nat) (s : Step) (rest : List Step) :
    (outputs level (s :: rest)).toList = (indent (s.lineLevel level) ++ s.markup).toList ++
      '\n' :: (outputs (s.next level) rest).toList := by
  rw [outputs, Step.output, String.toList_append, String.toList_append, List.append_assoc]
  rfl

theorem toList_outputs_concat (level : Nat) (a : List Step) (s : Step) :
    (outputs level (a ++ [s])).toList = (outputs level a).toList ++
      (indent (s.lineLevel (nexts level a)) ++ s.markup).toList ++ ['\n'] := by
  rw [outputs_append, String.toList_append, toList_outputs_cons, List.append_assoc]
  rfl

/-- a line of the text is that of a step -/
theorem outputs_line {steps : List Step} (h : ∀ s ∈ steps, s.OneLine) {level : Nat}
    {before line after : List Char}
    (htext : (outputs level steps).toList = before ++ line ++ '\n' :: after)
    (hbefore : before = [] ∨ before.getLast? = some '\n') (hline : '\n' ∉ line) :
    ∃ a s b, steps = a ++ s :: b ∧ before = (outputs level a).toList ∧
      line = (indent (s.lineLevel (nexts level a)) ++ s.markup).toList := by
  induction steps generalizing level before with
  | nil => simp [outputs] at htext
  | cons s rest ih =>
    obtain ⟨hs, hrest⟩ := List.forall_mem_cons.mp h
    have hown := hs.notMem (s.lineLevel level)
    rw [toList_outputs_cons] at htext
    rcases hbefore with rfl | hlast
    · rw [List.nil_append] at htext
      have hsame := (eq_of_lineFeeds hline hown htext.symm).1
      exact ⟨[], s, rest, rfl, rfl, hsame⟩
    · -- the first line of what stands before is the line of the first step
      obtain ⟨first, more, hsplit, hfirst⟩ :=
        List.eq_append_cons_of_mem (List.mem_of_getLast? hlast)
      subst hsplit
      rw [List.append_assoc, List.append_assoc, List.cons_append, ← List.append_assoc] at htext
      obtain ⟨hsame, hmore⟩ := eq_of_lineFeeds hown hfirst htext
      have hmoreLast : more = [] ∨ more.getLast? = some '\n' := by
        cases more with
        | nil => exact .inl rfl
        | cons c more =>
          rw [List.getLast?_append_cons, List.getLast?_cons_cons] at hlast
          exact .inr hlast
      obtain ⟨a, t, b, rfl, rfl, hline⟩ := ih hrest hmore hmoreLast
      refine ⟨s :: a, t, b, rfl, ?_, hline⟩
      rw [toList_outputs_cons, hsame]

/-! ## open elements -/

section
variable {leaf : String → Bool} {n n' : Nest}

theorem Nest.length_opens_of_close {name : String} (h : n.add leaf (.endTag name) = some n') :
    n.opens.length = n'.opens.length + 1 := by
  rw [Nest.add, Nest.close] at h
  cases hopens : n.opens with
  | nil => simp [hopens] at h
  | cons o rest =>
    rw [hopens] at h
    obtain ⟨_, heq⟩ := Option.ite_none_right_eq_some.mp h
    rw [← Option.some.inj heq]
    rfl

/-- one step opens and closes for the reader what it opens and closes for the writer -/
theorem opens_addAll_events {s : Step} (hs : s.Readable leaf)
    (h : n.addAll leaf s.events = some n') : n'.opens.length = s.next n.opens.length := by
  cases s with
  | raw line => exact hs.elim
  | startTag name attrs =>
    rw [Step.events, Nest.addAll_singleton, Nest.add_startTag, Option.some.injEq] at h
    subst h
    rfl
  | endTag name =>
    rw [Step.events, Nest.addAll_singleton] at h
    rw [Step.next, Nest.length_opens_of_close h, Nat.add_sub_cancel]
  | text name attrs content =>
    rw [addAll_events_text, Option.some.injEq] at h
    subst h
    rfl
  | emptyTag | value | comment =>
    rw [Step.events, Nest.addAll_singleton, Nest.add, Option.some.injEq] at h
    subst h
    rfl

theorem opens_addAll {steps : List Step} (hsteps : ∀ s ∈ steps, s.Readable leaf)
    (h : n.addAll leaf (steps.flatMap Step.events) = some n') :
    n'.opens.length = nexts n.opens.length steps := by
  induction steps generalizing n with
  | nil =>
    cases h
    rfl
  | cons s rest ih =>
    rw [List.flatMap_cons, Nest.addAll_append] at h
    obtain ⟨m, hm, hn'⟩ := Option.bind_eq_some_iff.mp h
    rw [ih (fun t ht => hsteps t (List.mem_cons_of_mem _ ht)) hn',
      opens_addAll_events (hsteps s List.mem_cons_self) hm]
    rfl

/-! ## start tags -/

theorem eq_of_singleton_eq {s t : Step} {a b : List Step} (h : [s] = a ++ t :: b) : t = s := by
  have hmem : t ∈ a ++ t :: b := List.mem_append_right _ List.mem_cons_self
  rw [← h] at hmem
  exact List.mem_singleton.mp hmem

mutual

/-- an end tag stands behind the start tag and the items of an element of its name -/
theorem Item.exists_startTag {name : String} : (item : Item) → item.Readable leaf →
    ∀ {a b : List Step}, item.steps = a ++ .endTag name :: b → ∃ outer attrs items,
      (Item.container name attrs items).Readable leaf ∧
      a = outer ++ .startTag name attrs :: Item.stepsAll items
  | .container own attrs items, h, a, b, hsplit => by
    rw [Item.steps] at hsplit
    cases a with
    | nil => exact absurd (List.cons.inj hsplit).1 Step.noConfusion
    | cons start a =>
      have hinner : Item.stepsAll items ++ [.endTag own] = a ++ .endTag name :: b :=
        (List.cons.inj hsplit).2
      obtain rfl := (List.cons.inj hsplit).1
      rcases b.eq_nil_or_concat with rfl | ⟨inner, last, rfl⟩
      · -- it is the end tag of the container itself
        obtain ⟨rfl, hlast⟩ := List.append_inj' hinner rfl
        obtain rfl : own = name := Step.endTag.inj (List.cons.inj hlast).1
        exact ⟨[], attrs, items, h, rfl⟩
      · rw [List.concat_eq_append, ← List.cons_append, ← List.append_assoc] at hinner
        obtain ⟨hitems, _⟩ := List.append_inj' hinner rfl
        obtain ⟨outer, attrs', items', hreadable, rfl⟩ :=
          Item.exists_startTag_stepsAll items h.2.2.2 hitems
        exact ⟨.startTag own attrs :: outer, attrs', items', hreadable, rfl⟩
  | .leaf own attrs text, _, a, b, hsplit => by
    rw [Item.steps] at hsplit
    exact absurd (eq_of_singleton_eq hsplit) Step.noConfusion
  | .comment text, _, a, b, hsplit => by
    rw [Item.steps] at hsplit
    exact absurd (eq_of_singleton_eq hsplit) Step.noConfusion

theorem Item.exists_startTag_stepsAll {name : String} :
    (items : List Item) → Item.AllReadable leaf items →
    ∀ {a b : List Step}, Item.stepsAll items = a ++ .endTag name :: b → ∃ outer attrs inner,
      (Item.container name attrs inner).Readable leaf ∧
      a = outer ++ .startTag name attrs :: Item.stepsAll inner
  | [], _, a, b, hsplit => by
    rw [Item.stepsAll] at hsplit
    exact absurd hsplit.symm (by simp)
  | item :: rest, h, a, b, hsplit => by
    rw [Item.stepsAll] at hsplit
    rcases List.append_eq_append_iff.mp hsplit with ⟨behind, rfl, hrest⟩ | ⟨within, hitem, hrest⟩
    · obtain ⟨outer, attrs, inner, hreadable, rfl⟩ :=
        Item.exists_startTag_stepsAll rest h.2 hrest
      exact ⟨item.steps ++ outer, attrs, inner, hreadable, (List.append_assoc ..).symm⟩
    · cases within with
      | nil =>
        -- the steps of the first item end right before the end tag
        obtain ⟨outer, attrs, inner, _, hnone⟩ :=
          Item.exists_startTag_stepsAll rest h.2 (a := []) hrest.symm
        exact absurd hnone (by simp)
      | cons s within =>
        obtain ⟨rfl, _⟩ := List.cons.inj hrest
        exact Item.exists_startTag item h.1 hitem

end

theorem nexts_startTag (level : Nat) (outer : List Step) (name : String) (attrs : List Attr)
    (items : List Item) :
    nexts level (outer ++ .startTag name attrs :: Item.stepsAll items) = nexts level outer + 1 := by
  rw [nexts_append]
  exact Item.nexts_stepsAll (nexts level outer + 1) items

theorem level_pos_of_endTag {item : Item} (h : item.Readable leaf) {a b : List Step}
    {name : String} (hsplit : item.steps = a ++ .endTag name :: b) : 0 < nexts 0 a := by
  obtain ⟨outer, attrs, items, _, rfl⟩ := item.exists_startTag h hsplit
  rw [nexts_startTag]
  exact Nat.succ_pos _

/-! ## indentation -/

/-- the number of elements that are open after some of a text, which may declare itself XML -/
def openAfter? (leaf : String → Bool) (s : List Char) : Option Nat :=
  (State.start.run leaf ((s.dropPrefix? declared.toList).getD s)).map (·.nest.opens.length)

/-- a `<` and what follows, behind the indentation of a level -/
def tagAt (level : Nat) (rest : List Char) : List Char :=
  List.replicate (2 * level) ' ' ++ '<' :: rest

/-- a text ends with an element, whose start tag stands on a line of its own and at its depth -/
inductive EndsElement (leaf : String → Bool) (depth : Nat) : List Char → Prop
  | element {outer rest : List Char} {name : String} {attrs : List Attr} {content : List Tree} :
      (outer = [] ∨ outer.getLast? = some '\n') → openAfter? leaf outer = some depth →
      forest? leaf (tagAt depth rest) = some [.element name attrs content] →
      EndsElement leaf depth (outer ++ tagAt depth rest)

/-- A line stands behind two spaces for every element that is open around it, when `depth` of them
are open before it and `next` behind it.  If it is an end tag, the element that it ends is not
around it: it stands where the start tag of that element stands. -/
inductive StandsAt (leaf : String → Bool) (before : List Char) (depth next : Nat) :
    List Char → Prop
  | inside {rest : List Char} : rest.head? ≠ some '/' →
      StandsAt leaf before depth next (tagAt depth rest)
  | endTag {rest : List Char} : depth = next + 1 →
      EndsElement leaf next (before ++ tagAt next ('/' :: rest) ++ ['\n']) →
      StandsAt leaf before depth next (tagAt next ('/' :: rest))

/-- a text of lines, each of which stands where the elements around it put it -/
structure Indented (leaf : String → Bool) (text : List Char) : Prop where
  ends : text.getLast? = some '\n'
  line : ∀ before line after, text = before ++ line ++ '\n' :: after →
    (before = [] ∨ before.getLast? = some '\n') → '\n' ∉ line →
    ∃ depth next, openAfter? leaf before = some depth ∧
      openAfter? leaf (before ++ line ++ ['\n']) = some next ∧
      StandsAt leaf before depth next line

/-- markup that begins with a name is no end tag -/
theorem exists_rest_of_isName {name : String} (h : isName name.toList = true) (more : String) :
    ∃ rest, ("<" ++ (name ++ more)).toList = '<' :: rest ∧ rest.head? ≠ some '/' := by
  obtain ⟨c, rest, hname, hc, _⟩ := exists_cons_of_isName h
  refine ⟨c :: (rest ++ more.toList), ?_, fun hslash => ?_⟩
  · rw [String.toList_append, String.toList_append, hname]
    rfl
  · exact ne_of_isNameChar hc (d := '/') (by decide) (Option.some.inj hslash)

/-- the second character of a step tells whether it is an end tag -/
theorem exists_rest_markup {s : Step} (hs : s.Readable leaf) (h : ∀ name, s ≠ .endTag name) :
    ∃ rest, s.markup.toList = '<' :: rest ∧ rest.head? ≠ some '/' := by
  have hempty {name : String} (hname : isName name.toList = true) (attrs : List Attr) :
      ∃ rest, (emptyMarkup name attrs).toList = '<' :: rest ∧ rest.head? ≠ some '/' := by
    rw [emptyMarkup, String.append_assoc, String.append_assoc]
    exact exists_rest_of_isName hname _
  cases s with
  | raw line => exact hs.elim
  | startTag name attrs =>
    rw [Step.markup, startMarkup, String.append_assoc, String.append_assoc]
    exact exists_rest_of_isName hs.1 _
  | endTag name => exact absurd rfl (h name)
  | emptyTag name attrs => exact hempty hs.1 attrs
  | text name attrs content =>
    by_cases hcontent : content = ""
    · rw [Step.markup, if_pos hcontent]
      exact hempty hs.1 attrs
    · rw [Step.markup, if_neg hcontent, startMarkup]
      simp only [String.append_assoc]
      exact exists_rest_of_isName hs.1 _
  | value name content => exact hempty hs _
  | comment content =>
    rw [Step.markup, String.append_assoc, String.toList_append]
    exact ⟨'!' :: '-' :: '-' :: ' ' :: (commentBody content ++ " -->").toList, rfl, by simp⟩

theorem lineLevel_of_ne {s : Step} (h : ∀ name, s ≠ .endTag name) (level : Nat) :
    s.lineLevel level = level := by
  cases s with
  | endTag name => exact absurd rfl (h name)
  | _ => rfl

theorem toList_outputs_declared (steps : List Step) :
    (outputs 0 (.raw declared :: steps)).toList =
      declared.toList ++ '\n' :: (outputs 0 steps).toList :=
  toList_outputs_cons 0 (.raw declared) steps

theorem openAfter?_outputs {steps : List Step} (hsteps : ∀ s ∈ steps, s.Readable leaf)
    (h : Nest.empty.addAll leaf (steps.flatMap Step.events) = some n) :
    openAfter? leaf (outputs 0 (.raw declared :: steps)).toList = some (nexts 0 steps) := by
  have hblank : ['\n'].all isBlank = true := by decide
  have hlevel : n.opens.length = nexts 0 steps := opens_addAll hsteps h
  rw [toList_outputs_declared, openAfter?,
    List.dropPrefix?_append_of_beq _ (beq_self_eq_true _), Option.getD_some,
    ← List.singleton_append, State.start, State.run_append_of_eq (run_blanks [] ['\n'] hblank),
    List.nil_append, run_outputs hsteps Nest.free_empty hblank, h, Option.map_some,
    Option.map_some, hlevel]

theorem getLast?_outputs (level : Nat) (s : Step) (rest : List Step) :
    (outputs level (s :: rest)).toList.getLast? = some '\n' := by
  induction rest generalizing level s with
  | nil =>
    rw [toList_outputs_cons]
    exact List.getLast?_concat
  | cons t rest ih =>
    rw [toList_outputs_cons, List.getLast?_append_cons, ← List.singleton_append,
      List.getLast?_append, ih]
    rfl

theorem toList_indent_append (level : Nat) {markup : String} {rest : List Char}
    (h : markup.toList = '<' :: rest) : (indent level ++ markup).toList = tagAt level rest := by
  rw [String.toList_append, indent, String.toList_ofList, h, tagAt]

theorem tagAt_append (level : Nat) (rest more : List Char) :
    tagAt level rest ++ more = tagAt level (rest ++ more) := by
  rw [tagAt, tagAt, List.append_assoc, List.cons_append]

/-- the steps of an item that stand before some of them are read -/
theorem exists_addAll_before {item : Item} (h : item.Readable leaf) {a b : List Step}
    (hsplit : item.steps = a ++ b) :
    ∃ m, Nest.empty.addAll leaf (a.flatMap Step.events) = some m := by
  have hread := addAll_steps item h Nest.empty []
  rw [hsplit, List.flatMap_append, List.append_nil, Nest.addAll_append] at hread
  obtain ⟨m, hm, _⟩ := Option.bind_eq_some_iff.mp hread
  exact ⟨m, hm⟩

theorem openAfter?_steps {item : Item} (h : item.Readable leaf) {a b : List Step}
    (hsplit : item.steps = a ++ b) :
    openAfter? leaf (outputs 0 (.raw declared :: a)).toList = some (nexts 0 a) := by
  obtain ⟨m, hm⟩ := exists_addAll_before h hsplit
  refine openAfter?_outputs (fun s hs => item.readable_steps h s ?_) hm
  rw [hsplit]
  exact List.mem_append_left _ hs

/-- what is written of a container begins with its start tag and is read as one element -/
theorem exists_rest_container {name : String} {attrs : List Attr} {items : List Item}
    (h : (Item.container name attrs items).Readable leaf) (level : Nat) :
    ∃ rest, (outputs level (Item.container name attrs items).steps).toList = tagAt level rest ∧
      forest? leaf (tagAt level rest) = some [.element name attrs (Item.trees items)] := by
  have hstart : (Step.startTag name attrs).Readable leaf := ⟨h.1, h.2.1, h.2.2.1⟩
  obtain ⟨more, hmarkup, _⟩ := exists_rest_markup hstart fun _ => Step.noConfusion
  obtain ⟨rest, hrest⟩ : ∃ rest,
      (outputs level (Item.container name attrs items).steps).toList = tagAt level rest := by
    rw [Item.steps, toList_outputs_cons, toList_indent_append _ hmarkup, tagAt_append]
    exact ⟨_, rfl⟩
  have hadd := addAll_steps _ h Nest.empty []
  have hblanks : ([] : List Char).all isBlank = true := rfl
  have hread := forest?_outputs (Item.readable_steps _ h) hblanks level
  rw [List.append_nil] at hadd
  rw [hadd, List.nil_append, hrest] at hread
  exact ⟨rest, hrest, hread⟩

/-- what is written of an item up to an end tag ends with the element of that tag -/
theorem endsElement_outputs {item : Item} (h : item.Readable leaf) {a b : List Step}
    {name : String} (hsplit : item.steps = a ++ .endTag name :: b) :
    EndsElement leaf (nexts 0 a - 1)
      (outputs 0 (.raw declared :: (a ++ [.endTag name]))).toList := by
  obtain ⟨outer, attrs, items, hreadable, rfl⟩ := item.exists_startTag h hsplit
  have hsteps : .raw declared :: (outer ++ .startTag name attrs :: Item.stepsAll items ++
      [.endTag name]) = .raw declared :: outer ++ (Item.container name attrs items).steps := by
    rw [Item.steps, List.append_assoc, List.cons_append, List.cons_append]
  have hlevel : nexts 0 (.raw declared :: outer) = nexts 0 outer := rfl
  obtain ⟨rest, hrest, hread⟩ := exists_rest_container hreadable (nexts 0 outer)
  rw [List.append_assoc] at hsplit
  rw [hsteps, nexts_startTag, Nat.add_sub_cancel, outputs_append, String.toList_append, hlevel,
    hrest]
  exact .element (.inr (getLast?_outputs 0 _ outer)) (openAfter?_steps h hsplit) hread

/-- a line of a step, between the steps before it and those behind it -/
theorem standsAt_line {item : Item} (h : item.Readable leaf) {a b : List Step} {s : Step}
    (hsplit : item.steps = a ++ s :: b) :
    StandsAt leaf (outputs 0 (.raw declared :: a)).toList (nexts 0 a) (nexts 0 (a ++ [s]))
      (indent (s.lineLevel (nexts 0 a)) ++ s.markup).toList := by
  have hs : s.Readable leaf := item.readable_steps h s <| by
    rw [hsplit]
    exact List.mem_append_right _ List.mem_cons_self
  have hnext : nexts 0 (a ++ [s]) = s.next (nexts 0 a) := nexts_append 0 a [s]
  rw [hnext]
  by_cases hend : ∃ name, s = .endTag name
  · obtain ⟨name, rfl⟩ := hend
    have hmarkup : (endMarkup name).toList = '<' :: '/' :: (name ++ ">").toList := by
      rw [endMarkup, String.append_assoc, String.toList_append]
      rfl
    have hends : EndsElement leaf (nexts 0 a - 1) ((outputs 0 (.raw declared :: a)).toList ++
        (indent (nexts 0 a - 1) ++ endMarkup name).toList ++ ['\n']) := by
      have hends := endsElement_outputs h hsplit
      rw [← List.cons_append, toList_outputs_concat] at hends
      exact hends
    show StandsAt leaf _ _ (nexts 0 a - 1) (indent (nexts 0 a - 1) ++ endMarkup name).toList
    rw [toList_indent_append _ hmarkup] at hends ⊢
    exact .endTag (Nat.sub_add_cancel (level_pos_of_endTag h hsplit)).symm hends
  · have hne : ∀ name, s ≠ .endTag name := fun name heq => hend ⟨name, heq⟩
    obtain ⟨rest, hmarkup, hrest⟩ := exists_rest_markup hs hne
    rw [lineLevel_of_ne hne, toList_indent_append _ hmarkup]
    exact .inside hrest

/-! ## items -/

def notLineFeed (c : Char) : Bool := c ≠ '\n'

theorem within_notLineFeed {s : String} : Within notLineFeed s ↔ '\n' ∉ s.toList := by
  simp only [Within, notLineFeed, decide_eq_true_eq]
  exact ⟨fun h hmem => h _ hmem rfl, fun h c hc heq => h (heq ▸ hc)⟩

theorem includes_notLineFeed : Includes notLineFeed where
  printable c h := by
    refine decide_eq_true fun heq => ?_
    rw [heq] at h
    exact absurd h (by decide)
  name c h := by
    refine decide_eq_true fun heq => ?_
    rw [heq] at h
    exact absurd h (by decide)

theorem oneLine_declared : (Step.raw declared).OneLine :=
  within_notLineFeed.mp (show Within notLineFeed declared by decide)

/-- **What is written of an item stands behind two spaces for every element that is open around
it**, if none of its strings has a line feed. -/
theorem indented_outputs {item : Item} (h : item.Readable leaf)
    (hstrings : ∀ x ∈ item.tree.written, '\n' ∉ x.string.toList) :
    Indented leaf (outputs 0 (.raw declared :: item.steps)).toList where
  ends := getLast?_outputs 0 _ _
  line before line after htext hbefore hline := by
    have hwithin : ∀ s ∈ item.steps, ∀ x ∈ s.written, Within notLineFeed x.string :=
      (item.within_steps includes_notLineFeed).mpr fun x hx =>
        within_notLineFeed.mpr (hstrings x hx)
    have hone : ∀ s ∈ .raw declared :: item.steps, s.OneLine :=
      List.forall_mem_cons.mpr ⟨oneLine_declared, fun s hs => within_notLineFeed.mp
        ((within_markup includes_notLineFeed (item.readable_steps h s hs)).mpr (hwithin s hs))⟩
    obtain ⟨a, s, b, hsplit, rfl, rfl⟩ := outputs_line hone htext hbefore hline
    cases a with
    | nil =>
      obtain ⟨rfl, _⟩ := List.cons.inj hsplit
      have hfirst : ("?xml version=\"1.0\"?>".toList).head? ≠ some '/' := by decide
      exact ⟨0, 0, rfl, rfl, .inside hfirst⟩
    | cons first a =>
      have hitem : item.steps = a ++ s :: b := (List.cons.inj hsplit).2
      obtain rfl := (List.cons.inj hsplit).1
      have hnext : item.steps = a ++ [s] ++ b := by
        rw [hitem, List.append_assoc, List.singleton_append]
      refine ⟨_, _, openAfter?_steps h hitem, ?_, standsAt_line h hitem⟩
      rw [← toList_outputs_concat]
      exact openAfter?_steps h hnext

end

end Toolflow.Xml
