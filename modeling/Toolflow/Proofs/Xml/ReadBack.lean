import Toolflow.Proofs.Xml.Lexing
import Toolflow.Xml.Item

/-!
# What is written is read back

* `Step.events`      what a step says to a reader;
* `run_outputs`      steps that are written line by line are read as their events, because the
                     indentation and the line feeds between them are blank and stand in no leaf;
* `Item.tree`        the tree that an item stands for;
* `addAll_steps`     the events of an item put its tree into the nest and leave the open elements
                     alone;
* `document?_outputs`   so a text that is written from an item is read back as its tree.

`Readable` asks of steps and items what the reader asks of a text beyond matching tags: that names
are names, and that `leaf` names the elements with a text and no container.
-/

namespace Toolflow.Xml

/-! ## events -/

namespace Nest

def addAll (leaf : String → Bool) (n : Nest) : List Event → Option Nest
  | [] => some n
  | e :: rest => (n.add leaf e).bind fun n => n.addAll leaf rest

/-- no open element is a leaf -/
def Free (leaf : String → Bool) (n : Nest) : Prop := ∀ o ∈ n.opens, leaf o.name = false

section
variable {leaf : String → Bool} {n : Nest}

theorem addAll_append (a b : List Event) :
    n.addAll leaf (a ++ b) = (n.addAll leaf a).bind fun n => n.addAll leaf b := by
  induction a generalizing n with
  | nil => rfl
  | cons e rest ih =>
    show (n.add leaf e).bind (fun n => n.addAll leaf (rest ++ b)) = _
    cases h : n.add leaf e with
    | none => simp [addAll, h]
    | some n' => simpa [addAll, h] using ih

theorem addAll_singleton (e : Event) : n.addAll leaf [e] = n.add leaf e := by
  unfold addAll
  cases n.add leaf e <;> rfl

theorem free_empty : Free leaf .empty := fun _ ho => absurd ho List.not_mem_nil

theorem Free.inLeaf (h : n.Free leaf) : n.inLeaf leaf = false := by
  unfold Nest.inLeaf
  cases hn : n.opens with
  | nil => rfl
  | cons o rest =>
    apply h o
    rw [hn]
    exact List.mem_cons_self

theorem addText_blank (hfree : n.Free leaf) {s : List Char} (hs : s.all isBlank = true) :
    n.addText leaf (String.ofList s) = n :=
  if_pos (.inr ⟨hfree.inLeaf, by rw [String.toList_ofList]; exact hs⟩)

/-- the content of an element with a text and nothing else -/
def leafContent (leaf : String → Bool) (name content : String) : List Tree :=
  if content = "" ∨ (leaf name = false ∧ content.toList.all isBlank) then [] else [.text content]

theorem addText_open (o : Open) (opens : List Open) (content : String) :
    Nest.addText leaf ⟨o :: opens, []⟩ content
      = ⟨o :: opens, leafContent leaf o.name content⟩ := by
  unfold addText leafContent
  show (if content = "" ∨ (leaf o.name = false ∧ content.toList.all isBlank) then _ else _) = _
  by_cases h : content = "" ∨ (leaf o.name = false ∧ content.toList.all isBlank)
  · rw [if_pos h, if_pos h]
  · rw [if_neg h, if_neg h]
    rfl

theorem add_startTag (tag : Tag) :
    n.add leaf (.startTag tag) = some ⟨⟨tag.name, tag.attrs, n.content⟩ :: n.opens, []⟩ :=
  rfl

/-- an end tag that names the innermost open element closes it -/
theorem add_endTag (o : Open) (opens : List Open) (content : List Tree) :
    Nest.add leaf ⟨o :: opens, content⟩ (.endTag o.name)
      = some ⟨opens, o.before ++ [.element o.name o.attrs content]⟩ :=
  if_pos rfl

theorem addAll_text (name content : String) (attrs : List Attr) :
    n.addAll leaf [.startTag ⟨name, attrs⟩, .text content, .endTag name]
      = some (n.put (.element name attrs (leafContent leaf name content))) := by
  show (Nest.addText leaf ⟨⟨name, attrs, n.content⟩ :: n.opens, []⟩ content).addAll leaf
    [.endTag name] = _
  rw [addText_open, addAll_singleton]
  exact add_endTag ⟨name, attrs, n.content⟩ n.opens _

end

end Nest

/-! ## steps -/

namespace Step

def events : Step → List Event
  | raw _ => []
  | startTag name attrs => [.startTag ⟨name, attrs⟩]
  | endTag name => [.endTag name]
  | emptyTag name attrs => [.emptyTag ⟨name, attrs⟩]
  | text name attrs content =>
    if content = "" then [.emptyTag ⟨name, attrs⟩]
    else [.startTag ⟨name, attrs⟩, .text content, .endTag name]
  | value name content => [.emptyTag ⟨name, [("value", content)]⟩]
  | comment content => [.comment (commentText content)]

def Readable (leaf : String → Bool) : Step → Prop
  | raw _ => False
  | startTag name attrs => isName name.toList = true ∧ NamedAttrs attrs ∧ leaf name = false
  | endTag name => isName name.toList = true
  | emptyTag name attrs => isName name.toList = true ∧ NamedAttrs attrs
  | text name attrs _ => isName name.toList = true ∧ NamedAttrs attrs
  | value name _ => isName name.toList = true
  | comment _ => True

end Step

theorem namedAttrs_value (content : String) : NamedAttrs [("value", content)] := by
  rw [namedAttrs_cons]
  exact ⟨isName_ofList (by decide), namedAttrs_nil⟩

section
variable {leaf : String → Bool} {n : Nest}

theorem addAll_events_text (name content : String) (attrs : List Attr) :
    n.addAll leaf (Step.text name attrs content).events
      = some (n.put (.element name attrs (Nest.leafContent leaf name content))) := by
  by_cases hempty : content = ""
  · rw [hempty, Nest.leafContent, if_pos (.inl rfl)]
    rfl
  · show n.addAll leaf (if content = "" then _ else _) = _
    rw [if_neg hempty, Nest.addAll_text]

theorem Nest.Free.addAll_events (hfree : n.Free leaf) {s : Step} (hs : s.Readable leaf) {n' : Nest}
    (h : n.addAll leaf s.events = some n') : n'.Free leaf := by
  cases s with
  | raw line => exact hs.elim
  | startTag name attrs =>
    rw [Step.events, addAll_singleton, Nest.add, Option.some.injEq] at h
    subst h
    intro o ho
    rcases List.mem_cons.mp ho with rfl | ho
    · exact hs.2.2
    · exact hfree o ho
  | endTag name =>
    rw [Step.events, addAll_singleton, Nest.add, Nest.close] at h
    cases hn : n.opens with
    | nil => simp [hn] at h
    | cons o rest =>
      rw [hn] at h
      obtain ⟨_, heq⟩ := Option.ite_none_right_eq_some.mp h
      rw [← Option.some.inj heq]
      intro p hp
      apply hfree p
      rw [hn]
      exact List.mem_cons_of_mem _ hp
  | emptyTag name attrs =>
    rw [Step.events, addAll_singleton, Nest.add, Option.some.injEq] at h
    exact h ▸ hfree
  | text name attrs content =>
    rw [addAll_events_text, Option.some.injEq] at h
    exact h ▸ hfree
  | value name content =>
    rw [Step.events, addAll_singleton, Nest.add, Option.some.injEq] at h
    exact h ▸ hfree
  | comment content =>
    rw [Step.events, addAll_singleton, Nest.add, Option.some.injEq] at h
    exact h ▸ hfree

theorem run_markup {s : Step} (hs : s.Readable leaf) (read : List Char) :
    State.run leaf ⟨.data .content read, n⟩ s.markup.toList
      = ((n.addText leaf (String.ofList read)).addAll leaf s.events).map
        (⟨.data .content [], ·⟩) := by
  cases s with
  | raw line => exact hs.elim
  | startTag name attrs =>
    rw [Step.events, Nest.addAll_singleton]
    exact run_startMarkup hs.1 hs.2.1 read
  | endTag name =>
    rw [Step.events, Nest.addAll_singleton]
    exact run_endMarkup hs read
  | emptyTag name attrs =>
    rw [Step.events, Nest.addAll_singleton]
    exact run_emptyMarkup hs.1 hs.2 read
  | text name attrs content =>
    by_cases hempty : content = ""
    · have hmarkup : (Step.text name attrs content).markup = emptyMarkup name attrs :=
        if_pos hempty
      have hevents : (Step.text name attrs content).events = [.emptyTag ⟨name, attrs⟩] :=
        if_pos hempty
      rw [hmarkup, hevents, Nest.addAll_singleton]
      exact run_emptyMarkup hs.1 hs.2 read
    · have hmarkup : (Step.text name attrs content).markup
          = startMarkup name attrs ++ escape content ++ endMarkup name := if_neg hempty
      have hevents : (Step.text name attrs content).events
          = [.startTag ⟨name, attrs⟩, .text content, .endTag name] := if_neg hempty
      rw [hmarkup, hevents, String.toList_append, String.toList_append, List.append_assoc,
        State.run_append, run_startMarkup hs.1 hs.2, Nest.add_startTag, Option.map_some,
        Option.bind_some, State.run_append_of_eq (run_escape .content [] content), List.nil_append,
        run_endMarkup hs.1, String.ofList_toList, ← Nest.addAll_singleton]
      rfl
  | value name content =>
    rw [Step.events, Nest.addAll_singleton]
    exact run_emptyMarkup hs (namedAttrs_value content) read
  | comment content =>
    rw [Step.events, Nest.addAll_singleton]
    exact run_comment content read

theorem isBlank_indent (level : Nat) : (indent level).toList.all isBlank = true := by
  rw [indent, String.toList_ofList, List.all_eq_true]
  intro c hc
  rw [List.eq_of_mem_replicate hc]
  decide

theorem run_output {s : Step} (hs : s.Readable leaf) (hfree : n.Free leaf) {read : List Char}
    (hread : read.all isBlank = true) (level : Nat) :
    State.run leaf ⟨.data .content read, n⟩ (s.output level).toList
      = (n.addAll leaf s.events).map (⟨.data .content ['\n'], ·⟩) := by
  have hindent := isBlank_indent (s.lineLevel level)
  unfold Step.output
  rw [String.toList_append, String.toList_append, List.append_assoc,
    State.run_append_of_eq (run_blanks read _ hindent), State.run_append, run_markup hs,
    Nest.addText_blank hfree (by rw [List.all_append, hread, hindent]; rfl)]
  cases n.addAll leaf s.events <;> rfl

/-- the blank characters that stand before the next line -/
def pending (read : List Char) : List Step → List Char
  | [] => read
  | _ :: _ => ['\n']

theorem isBlank_pending {read : List Char} (hread : read.all isBlank = true) (steps : List Step) :
    (pending read steps).all isBlank = true := by
  cases steps with
  | nil => exact hread
  | cons s rest => rfl

/-- steps are read as their events, whatever is blank before them -/
theorem run_outputs {steps : List Step} (hsteps : ∀ s ∈ steps, s.Readable leaf)
    (hfree : n.Free leaf) {read : List Char} (hread : read.all isBlank = true) (level : Nat) :
    State.run leaf ⟨.data .content read, n⟩ (outputs level steps).toList
      = (n.addAll leaf (steps.flatMap Step.events)).map
        (⟨.data .content (pending read steps), ·⟩) := by
  induction steps generalizing n read level with
  | nil => rfl
  | cons s rest ih =>
    have hs : s.Readable leaf := hsteps s List.mem_cons_self
    unfold outputs
    rw [String.toList_append, State.run_append, run_output hs hfree hread, List.flatMap_cons,
      Nest.addAll_append]
    cases hn : n.addAll leaf s.events with
    | none => rfl
    | some n' =>
      have hblank : ['\n'].all isBlank = true := by decide
      have hnext := ih (fun t ht => hsteps t (List.mem_cons_of_mem _ ht))
        (hfree.addAll_events hs hn) hblank (s.next level)
      have hpending : pending ['\n'] rest = ['\n'] := by cases rest <;> rfl
      rw [hpending] at hnext
      exact hnext

/-- what a complete text holds -/
def Nest.finish (n : Nest) : Option (List Tree) :=
  if n.opens.isEmpty then some n.content else none

theorem finish_blank {read : List Char} (hread : read.all isBlank = true) :
    State.finish leaf ⟨.data .content read, n⟩ = n.finish := by
  show Nest.finish (n.addText leaf (String.ofList read)) = _
  cases hn : n.opens with
  | nil =>
    have hfree : n.Free leaf := fun o ho => by
      rw [hn] at ho
      exact absurd ho List.not_mem_nil
    rw [Nest.addText_blank hfree hread]
  | cons o rest =>
    have hopens : (n.addText leaf (String.ofList read)).opens = n.opens := by
      unfold Nest.addText
      split <;> rfl
    unfold Nest.finish
    rw [hopens, hn]
    rfl

theorem forest?_outputs {steps : List Step} (hsteps : ∀ s ∈ steps, s.Readable leaf)
    {blanks : List Char} (hblanks : blanks.all isBlank = true) (level : Nat) :
    forest? leaf (blanks ++ (outputs level steps).toList)
      = (Nest.empty.addAll leaf (steps.flatMap Step.events)).bind Nest.finish := by
  unfold forest? State.start
  rw [State.run_append_of_eq (run_blanks [] blanks hblanks), List.nil_append,
    run_outputs hsteps Nest.free_empty hblanks]
  cases Nest.empty.addAll leaf (steps.flatMap Step.events) with
  | none => rfl
  | some n => exact finish_blank (isBlank_pending hblanks steps)

end

/-! ## items -/

namespace Item

mutual

/-- the tree that an item stands for -/
def tree : Item → Tree
  | container name attrs items => .element name attrs (trees items)
  | leaf name attrs text => .element name attrs (if text = "" then [] else [.text text])
  | comment text => .comment (commentText text)

def trees : List Item → List Tree
  | [] => []
  | item :: rest => item.tree :: trees rest

end

theorem trees_eq_map (items : List Item) : trees items = items.map tree := by
  induction items with
  | nil => rfl
  | cons item rest ih => rw [trees, ih, List.map_cons]

mutual

/-- names are names, and exactly the elements with a text are leaves -/
def Readable (leaf : String → Bool) : Item → Prop
  | container name attrs items =>
    isName name.toList = true ∧ NamedAttrs attrs ∧ leaf name = false ∧ AllReadable leaf items
  | .leaf name attrs text =>
    isName name.toList = true ∧ NamedAttrs attrs ∧ (text ≠ "" → leaf name = true)
  | comment _ => True

def AllReadable (leaf : String → Bool) : List Item → Prop
  | [] => True
  | item :: rest => item.Readable leaf ∧ AllReadable leaf rest

end

section
variable {leaf : String → Bool} {name : String} {attrs : List Attr} {items : List Item}

theorem allReadable_iff : AllReadable leaf items ↔ ∀ item ∈ items, item.Readable leaf := by
  induction items with
  | nil => simp [AllReadable]
  | cons item rest ih => simp [AllReadable, ih]

@[simp] theorem readable_container_iff : (container name attrs items).Readable leaf ↔
    isName name.toList = true ∧ NamedAttrs attrs ∧ leaf name = false ∧
      ∀ item ∈ items, item.Readable leaf := by
  rw [← allReadable_iff]
  rfl

@[simp] theorem readable_leaf_iff {text : String} : (Item.leaf name attrs text).Readable leaf ↔
    isName name.toList = true ∧ NamedAttrs attrs ∧ (text ≠ "" → leaf name = true) :=
  Iff.rfl

@[simp] theorem readable_empty_iff : (empty name attrs).Readable leaf ↔
    isName name.toList = true ∧ NamedAttrs attrs := by
  rw [Item.empty, readable_leaf_iff]
  exact ⟨fun h => ⟨h.1, h.2.1⟩, fun h => ⟨h.1, h.2, fun hne => absurd rfl hne⟩⟩

@[simp] theorem readable_value_iff {text : String} : (value name text).Readable leaf ↔
    isName name.toList = true := by
  show (empty name [("value", text)]).Readable leaf ↔ _
  rw [readable_empty_iff]
  exact ⟨fun h => h.1, fun h => ⟨h, namedAttrs_value text⟩⟩

@[simp] theorem readable_comment {text : String} : (comment text).Readable leaf := True.intro

end

end Item

section
variable {leaf : String → Bool}

mutual

theorem Item.readable_steps : (item : Item) → item.Readable leaf →
    ∀ s ∈ item.steps, s.Readable leaf
  | .container name attrs items, h => by
    obtain ⟨hname, hattrs, hleaf, hitems⟩ := h
    intro s hs
    rw [Item.steps] at hs
    rcases List.mem_cons.mp hs with rfl | hs
    · exact ⟨hname, hattrs, hleaf⟩
    · rcases List.mem_append.mp hs with hs | hs
      · exact Item.readable_stepsAll items hitems s hs
      · rw [List.mem_singleton.mp hs]
        exact hname
  | .leaf name attrs text, h => by
    intro s hs
    rw [Item.steps] at hs
    rw [List.mem_singleton.mp hs]
    exact ⟨h.1, h.2.1⟩
  | .comment text, _ => by
    intro s hs
    rw [Item.steps] at hs
    rw [List.mem_singleton.mp hs]
    exact True.intro

theorem Item.readable_stepsAll : (items : List Item) → Item.AllReadable leaf items →
    ∀ s ∈ Item.stepsAll items, s.Readable leaf
  | [], _ => by simp [Item.stepsAll]
  | item :: rest, h => by
    intro s hs
    rw [Item.stepsAll] at hs
    rcases List.mem_append.mp hs with hs | hs
    · exact Item.readable_steps item h.1 s hs
    · exact Item.readable_stepsAll rest h.2 s hs

end

mutual

/-- the open elements before an item are those after it, and its tree is the next one they hold -/
theorem addAll_steps : (item : Item) → item.Readable leaf → ∀ (n : Nest) (rest : List Event),
    n.addAll leaf (item.steps.flatMap Step.events ++ rest) = (n.put item.tree).addAll leaf rest
  | .container name attrs items, h, n, rest => by
    have hitems := addAll_stepsAll items h.2.2.2 ⟨⟨name, attrs, n.content⟩ :: n.opens, []⟩
      (.endTag name :: rest)
    rw [Item.steps, List.flatMap_cons, List.flatMap_append, List.flatMap_singleton,
      List.append_assoc, List.append_assoc]
    show Nest.addAll leaf ⟨⟨name, attrs, n.content⟩ :: n.opens, []⟩
      ((Item.stepsAll items).flatMap Step.events ++ .endTag name :: rest) = _
    rw [hitems, Nest.addAll, Nest.add_endTag ⟨name, attrs, n.content⟩, Option.bind_some, Item.tree]
    rfl
  | .leaf name attrs text, h, n, rest => by
    have htree : (Item.leaf name attrs text).tree
        = .element name attrs (Nest.leafContent leaf name text) := by
      unfold Item.tree Nest.leafContent
      by_cases hempty : text = ""
      · rw [if_pos hempty, if_pos (.inl hempty)]
      · have hleaf := h.2.2 hempty
        rw [if_neg hempty, if_neg (by simp [hempty, hleaf])]
    rw [Item.steps, List.flatMap_singleton, Nest.addAll_append, addAll_events_text, htree]
    rfl
  | .comment text, _, n, rest => by
    rw [Item.steps, Item.tree]
    rfl

theorem addAll_stepsAll : (items : List Item) → Item.AllReadable leaf items →
    ∀ (n : Nest) (rest : List Event),
      n.addAll leaf ((Item.stepsAll items).flatMap Step.events ++ rest)
        = Nest.addAll leaf ⟨n.opens, n.content ++ Item.trees items⟩ rest
  | [], _, n, rest => by
    rw [Item.stepsAll, Item.trees, List.append_nil]
    rfl
  | item :: items, h, n, rest => by
    rw [Item.stepsAll, Item.trees, List.flatMap_append, List.append_assoc,
      addAll_steps item h.1 n, addAll_stepsAll items h.2 (n.put item.tree) rest]
    show Nest.addAll leaf ⟨n.opens, n.content ++ [item.tree] ++ Item.trees items⟩ rest = _
    rw [List.append_assoc]
    rfl

end

/-- **An item is read back as its tree.** -/
theorem document?_outputs {name : String} {attrs : List Attr} {items : List Item}
    (h : (Item.container name attrs items).Readable leaf) :
    document? leaf (declared ++ "\n" ++ outputs 0 (Item.container name attrs items).steps)
      = some (.element name attrs (items.map Item.tree)) := by
  have htext : (declared ++ "\n" ++ outputs 0 (Item.container name attrs items).steps).toList
      = declared.toList
        ++ (['\n'] ++ (outputs 0 (Item.container name attrs items).steps).toList) := by
    simp
  have hblank : ['\n'].all isBlank = true := by decide
  have hread := forest?_outputs (Item.readable_steps _ h) hblank 0
  have hadd := addAll_steps _ h Nest.empty []
  rw [List.append_nil] at hadd
  unfold document?
  rw [htext, List.dropPrefix?_append_of_beq _ (beq_self_eq_true _), Option.bind_some, hread, hadd,
    Item.tree, Item.trees_eq_map]
  rfl

end

end Toolflow.Xml
