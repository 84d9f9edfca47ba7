import Toolflow.Proofs.Xml.ReadBack

/-!
# Steps and the forest that they describe

A document is written from one tree, but a writer takes its steps one at a time, whatever they are.
Here any steps are looked at that open and close elements in turn.

* `Matched`      every end tag names the innermost open element, and none is open at the end;
* `Describes`    the forest that such steps describe, with the raw strings;
* `Matched.exists_describes`, `Describes.unique`   there is one, and no other;
* `Tree.allVisible`   a forest without its blank texts, which is all that is lost;
* `Describes.addAll`  the events of the steps put this forest into a nest;
* `steps_read_back`   so a reader who knows of no leaves finds it in what was written, and two
                 runs of a writer give one text only if they describe the same.

Nothing is asked of the order of the steps beyond that, and a blank text is dropped wherever it is.
-/

namespace Toolflow.Xml

/-! ## forests -/

/-- what a step describes that neither opens nor closes an element -/
def Step.tree? : Step → Option Tree
  | emptyTag name attrs => some (.element name attrs [])
  | text name attrs content =>
    some (.element name attrs (if content = "" then [] else [.text content]))
  | value name content => some (.element name [("value", content)] [])
  | comment content => some (.comment (commentText content))
  | raw _ | startTag _ _ | endTag _ => none

inductive Describes : List Step → List Tree → Prop
  | nil : Describes [] []
  | line {s : Step} {t : Tree} {rest : List Step} {trees : List Tree} (hs : s.tree? = some t)
    (hrest : Describes rest trees) : Describes (s :: rest) (t :: trees)
  | element (name : String) (attrs : List Attr) {inner rest : List Step} {content trees : List Tree}
    (hinner : Describes inner content) (hrest : Describes rest trees) :
    Describes (.startTag name attrs :: (inner ++ .endTag name :: rest))
      (.element name attrs content :: trees)

/-- nothing follows, or the end of an element -/
def AtEnd (steps : List Step) : Prop := ∀ s ∈ steps.head?, ∃ name, s = .endTag name

theorem atEnd_endTag (name : String) (rest : List Step) : AtEnd (.endTag name :: rest) := by
  intro s hs
  exact ⟨name, (Option.some.inj hs).symm⟩

/-- no step that describes something stands at the end of an element -/
theorem Describes.eq_nil_of_atEnd {steps rest : List Step} {trees : List Tree}
    (h : Describes steps trees) (hend : AtEnd (steps ++ rest)) : steps = [] ∧ trees = [] := by
  cases h with
  | nil => exact ⟨rfl, rfl⟩
  | line hs _ =>
    obtain ⟨name, rfl⟩ := hend _ rfl
    cases hs
  | element name attrs _ _ =>
    obtain ⟨_, hname⟩ := hend _ rfl
    cases hname

/-- where a description ends is seen from what follows it -/
theorem Describes.unique_append {a b x y : List Step} {trees trees' : List Tree}
    (ha : Describes a trees) (hb : Describes b trees') (hx : AtEnd x) (hy : AtEnd y)
    (heq : a ++ x = b ++ y) : a = b ∧ trees = trees' := by
  induction ha generalizing b x y trees' with
  | nil =>
    have hend : AtEnd (b ++ y) := by
      rw [← heq]
      exact hx
    obtain ⟨rfl, rfl⟩ := hb.eq_nil_of_atEnd hend
    exact ⟨rfl, rfl⟩
  | line hs hrest ih =>
    cases hb with
    | nil =>
      obtain ⟨hnil, _⟩ := (Describes.line hs hrest).eq_nil_of_atEnd (by rw [heq]; exact hy)
      cases hnil
    | line hs' hrest' =>
      obtain ⟨rfl, htail⟩ := List.cons.inj heq
      obtain ⟨rfl, rfl⟩ := ih hrest' hx hy htail
      obtain rfl := Option.some.inj (hs.symm.trans hs')
      exact ⟨rfl, rfl⟩
    | element name attrs _ _ =>
      rw [(List.cons.inj heq).1] at hs
      cases hs
  | @element name attrs inner rest content trees hinner hrest ihinner ihrest =>
    cases hb with
    | nil =>
      have hend : AtEnd (.startTag name attrs :: (inner ++ .endTag name :: rest) ++ x) := by
        rw [heq]
        exact hy
      obtain ⟨hnil, _⟩ := (Describes.element name attrs hinner hrest).eq_nil_of_atEnd hend
      cases hnil
    | line hs' _ =>
      rw [← (List.cons.inj heq).1] at hs'
      cases hs'
    | @element _ _ inner' rest' content' trees' hinner' hrest' =>
      obtain ⟨hstart, htail⟩ := List.cons.inj heq
      obtain ⟨rfl, rfl⟩ := Step.startTag.inj hstart
      have hbehind : inner ++ .endTag name :: (rest ++ x)
          = inner' ++ .endTag name :: (rest' ++ y) := by
        simpa using htail
      -- the two end tags are the first ones that the content of the element does not open
      obtain ⟨rfl, rfl⟩ := ihinner hinner' (atEnd_endTag name _) (atEnd_endTag name _) hbehind
      have hafter : rest ++ x = rest' ++ y :=
        (List.cons.inj (List.append_cancel_left hbehind)).2
      obtain ⟨rfl, rfl⟩ := ihrest hrest' hx hy hafter
      exact ⟨rfl, rfl⟩

theorem Describes.unique {steps : List Step} {trees trees' : List Tree}
    (h : Describes steps trees) (h' : Describes steps trees') : trees = trees' := by
  have hend : AtEnd [] := fun s hs => by cases hs
  exact (h.unique_append h' hend hend rfl).2

/-! ## matching tags -/

/-- the open elements after a step, the innermost one first -/
def Step.opens (opens : List String) : Step → Option (List String)
  | startTag name _ => some (name :: opens)
  | endTag name =>
    match opens with
    | [] => none
    | o :: rest => if o = name then some rest else none
  | _ => some opens

def opensAfter (opens : List String) : List Step → Option (List String)
  | [] => some opens
  | s :: rest => (s.opens opens).bind fun opens => opensAfter opens rest

def Matched (steps : List Step) : Prop := opensAfter [] steps = some []

/-- what some steps are that close all these elements: what is in the innermost one, its end tag
and steps that close the others -/
inductive Closes : List String → List Step → Prop
  | none {steps : List Step} {trees : List Tree} (h : Describes steps trees) : Closes [] steps
  | one (name : String) {opens : List String} {inner rest : List Step} {content : List Tree}
    (hinner : Describes inner content) (hrest : Closes opens rest) :
    Closes (name :: opens) (inner ++ .endTag name :: rest)

section
variable {opens : List String} {steps : List Step}

theorem Closes.line {s : Step} {t : Tree} (hs : s.tree? = some t) (h : Closes opens steps) :
    Closes opens (s :: steps) := by
  cases h with
  | none h => exact .none (.line hs h)
  | one name hinner hrest => exact .one name (.line hs hinner) hrest

theorem Closes.startTag {name : String} (attrs : List Attr) (h : Closes (name :: opens) steps) :
    Closes opens (.startTag name attrs :: steps) := by
  cases h with
  | one _ hinner hrest =>
    cases hrest with
    | none hrest => exact .none (.element name attrs hinner hrest)
    | @one outer opens inner rest content hcontent hrest =>
      have hcons := Closes.one outer (Describes.element name attrs hinner hcontent) hrest
      simpa using hcons

theorem closes_of_opensAfter (hraw : ∀ line, .raw line ∉ steps)
    (h : opensAfter opens steps = some []) : Closes opens steps := by
  induction steps generalizing opens with
  | nil =>
    obtain rfl := Option.some.inj h
    exact .none .nil
  | cons s rest ih =>
    have hrest : ∀ line, .raw line ∉ rest := fun line hmem =>
      hraw line (List.mem_cons_of_mem s hmem)
    cases s with
    | raw line => exact absurd List.mem_cons_self (hraw line)
    | startTag name attrs => exact .startTag attrs (ih hrest h)
    | endTag name =>
      cases opens with
      | nil => cases h
      | cons o opens =>
        obtain ⟨after, hopens, h⟩ := Option.bind_eq_some_iff.mp h
        obtain ⟨rfl, hafter⟩ := Option.ite_none_right_eq_some.mp hopens
        obtain rfl := Option.some.inj hafter
        exact .one o .nil (ih hrest h)
    | emptyTag name attrs => exact (ih hrest h).line rfl
    | text name attrs content => exact (ih hrest h).line rfl
    | value name content => exact (ih hrest h).line rfl
    | comment content => exact (ih hrest h).line rfl

theorem Matched.exists_describes (hraw : ∀ line, .raw line ∉ steps) (h : Matched steps) :
    ∃ trees, Describes steps trees := by
  cases closes_of_opensAfter hraw h with
  | none h => exact ⟨_, h⟩

end

/-! ## what a reader finds -/

namespace Tree

mutual

/-- the tree without its blank texts; a blank text leaves nothing -/
def visible : Tree → List Tree
  | element name attrs content => [element name attrs (allVisible content)]
  | text s => if s.toList.all isBlank then [] else [text s]
  | comment body => [comment body]

def allVisible : List Tree → List Tree
  | [] => []
  | t :: rest => t.visible ++ allVisible rest

end

end Tree

/-- no element holds its text as it is where that is blank -/
def noLeaf (_ : String) : Bool := false

theorem leafContent_noLeaf (name content : String) :
    Nest.leafContent noLeaf name content
      = Tree.allVisible (if content = "" then [] else [.text content]) := by
  unfold Nest.leafContent noLeaf
  by_cases hempty : content = ""
  · rw [if_pos (.inl hempty), if_pos hempty]
    rfl
  · by_cases hblank : content.toList.all isBlank = true
    · simp [hempty, hblank, Tree.allVisible, Tree.visible]
    · simp [hempty, hblank, Tree.allVisible, Tree.visible]

theorem addAll_line {s : Step} {t : Tree} (hs : s.tree? = some t) (n : Nest) :
    n.addAll noLeaf s.events = some ⟨n.opens, n.content ++ t.visible⟩ := by
  cases s with
  | raw line => cases hs
  | startTag name attrs => cases hs
  | endTag name => cases hs
  | emptyTag name attrs =>
    obtain rfl := Option.some.inj hs
    rfl
  | text name attrs content =>
    obtain rfl := Option.some.inj hs
    rw [addAll_events_text, leafContent_noLeaf]
    rfl
  | value name content =>
    obtain rfl := Option.some.inj hs
    rfl
  | comment content =>
    obtain rfl := Option.some.inj hs
    rfl

/-- the events of described steps put what is described into the nest, whatever is open -/
theorem Describes.addAll {steps : List Step} {trees : List Tree} (h : Describes steps trees)
    (n : Nest) : n.addAll noLeaf (steps.flatMap Step.events)
      = some ⟨n.opens, n.content ++ Tree.allVisible trees⟩ := by
  induction h generalizing n with
  | nil =>
    rw [Tree.allVisible, List.append_nil]
    rfl
  | line hs hrest ih =>
    rw [List.flatMap_cons, Nest.addAll_append, addAll_line hs, Option.bind_some, ih,
      Tree.allVisible, List.append_assoc]
  | @element name attrs inner rest content trees hinner hrest ihinner ihrest =>
    have hopen := ihinner ⟨⟨name, attrs, n.content⟩ :: n.opens, []⟩
    have hclose : Nest.add noLeaf ⟨⟨name, attrs, n.content⟩ :: n.opens, Tree.allVisible content⟩
        (.endTag name)
        = some ⟨n.opens, n.content ++ [.element name attrs (Tree.allVisible content)]⟩ :=
      Nest.add_endTag ⟨name, attrs, n.content⟩ n.opens _
    rw [List.flatMap_cons, List.flatMap_append, List.flatMap_cons, Nest.addAll_append, Step.events,
      Nest.addAll_singleton, Nest.add_startTag, Option.bind_some, Nest.addAll_append, hopen,
      Option.bind_some, List.nil_append, Nest.addAll_append, Step.events, Nest.addAll_singleton,
      hclose, Option.bind_some, ihrest, Tree.allVisible, Tree.visible, List.append_assoc]

/-! ## what is written -/

/-- elements and attributes have names, and nothing is written raw -/
def Step.Named : Step → Prop
  | raw _ => False
  | startTag name attrs | emptyTag name attrs | text name attrs _ =>
    isName name.toList = true ∧ NamedAttrs attrs
  | endTag name | value name _ => isName name.toList = true
  | comment _ => True

section
variable {steps : List Step} (hnamed : ∀ s ∈ steps, s.Named)
include hnamed

theorem readable_of_named : ∀ s ∈ steps, s.Readable noLeaf := by
  intro s hs
  have h := hnamed s hs
  cases s with
  | startTag name attrs => exact ⟨h.1, h.2, rfl⟩
  | _ => exact h

theorem not_raw_of_named (line : String) : .raw line ∉ steps :=
  fun hmem => hnamed _ hmem

theorem forest?_of_describes {trees : List Tree} (h : Describes steps trees) :
    forest? noLeaf (Writer.empty.writeAll steps).text.toList = some (Tree.allVisible trees) := by
  have htext : (Writer.empty.writeAll steps).text = outputs 0 steps := by
    rw [Writer.writeAll_eq]
    exact String.empty_append
  have hblanks : ([] : List Char).all isBlank = true := rfl
  have hread := forest?_outputs (readable_of_named hnamed) hblanks 0
  rw [htext, ← List.nil_append (outputs 0 steps).toList, hread, h.addAll]
  rfl

end

/-- **What a writer is told comes back**, but for texts that are blank. -/
theorem steps_read_back {steps : List Step} (hnamed : ∀ s ∈ steps, s.Named)
    (hmatched : Matched steps) :
    ∃ forest, Describes steps forest ∧ (∀ other, Describes steps other → other = forest) ∧
      forest? noLeaf (Writer.empty.writeAll steps).text.toList
        = some (Tree.allVisible forest) ∧
      ∀ others forest', (∀ s ∈ others, s.Named) → Describes others forest' →
        (Writer.empty.writeAll others).text = (Writer.empty.writeAll steps).text →
        Tree.allVisible forest' = Tree.allVisible forest := by
  obtain ⟨forest, h⟩ := hmatched.exists_describes (not_raw_of_named hnamed)
  have hread := forest?_of_describes hnamed h
  refine ⟨forest, h, fun other hother => hother.unique h, hread, ?_⟩
  intro others forest' hothers h' htext
  have hread' := forest?_of_describes hothers h'
  rw [htext, hread] at hread'
  exact (Option.some.inj hread').symm

/-- elements in elements, a text that is blank and one that is not, and two comments -/
def sampleSteps : List Step := [
  .comment "a--b", .startTag "x" [("k", "<\"&\">")], .text "y" [] " ", .startTag "x" [],
  .text "z" [("k", ""), ("l", "'")] " 1 < 2 ", .endTag "x", .value "v" "-", .comment "",
  .endTag "x", .emptyTag "y" []]

theorem named_sampleSteps : ∀ s ∈ sampleSteps, s.Named := by
  obtain ⟨hx, hy, hz, hv, hk, hl⟩ : isName ['x'] = true ∧ isName ['y'] = true
      ∧ isName ['z'] = true ∧ isName ['v'] = true ∧ isName ['k'] = true ∧ isName ['l'] = true := by
    decide
  simp [sampleSteps, Step.Named, hx, hy, hz, hv, hk, hl]

theorem steps_read_back_sample :
    (∀ s ∈ sampleSteps, s.Named) ∧ Matched sampleSteps ∧
      ∃ forest, Describes sampleSteps forest ∧
        (∀ other, Describes sampleSteps other → other = forest) ∧
        forest? noLeaf (Writer.empty.writeAll sampleSteps).text.toList
          = some (Tree.allVisible forest) ∧
        ∀ others forest', (∀ s ∈ others, s.Named) → Describes others forest' →
          (Writer.empty.writeAll others).text = (Writer.empty.writeAll sampleSteps).text →
          Tree.allVisible forest' = Tree.allVisible forest :=
  ⟨named_sampleSteps, rfl, steps_read_back named_sampleSteps rfl⟩

end Toolflow.Xml
