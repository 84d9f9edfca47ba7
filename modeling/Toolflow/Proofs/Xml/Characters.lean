import Toolflow.Proofs.Xml.ReadBack
import Toolflow.Proofs.Xml.Written

/-!
# The characters of what is written

* `Within p s`       all characters of a string are of the kind `p`;
* `Includes p`       the kind has all printable characters of ASCII and all characters of names,
                     and so everything that is written around the given strings;
* `within_escape`, `within_commentBody`   what is escaped is within if and only if it was before;
* `within_markup`    the markup of a step is within if and only if the strings are that the step
                     is given;
* `Item.within_steps`   the steps of an item are given the strings of its tree.

Escaping takes care of the five reserved characters and of hyphens, and of nothing else.
-/

namespace Toolflow.Xml

def Within (p : Char → Bool) (s : String) : Prop := ∀ c ∈ s.toList, p c = true

instance (p : Char → Bool) : DecidablePred (Within p) := fun s =>
  List.decidableBAll (fun c => p c = true) s.toList

structure Includes (p : Char → Bool) : Prop where
  printable : ∀ c, isPrintable c = true → p c = true
  name : ∀ c, isNameChar c = true → p c = true

section
variable {p : Char → Bool}

theorem within_append {a b : String} : Within p (a ++ b) ↔ Within p a ∧ Within p b := by
  unfold Within
  rw [String.toList_append]
  exact List.forall_mem_append

theorem within_ofList {s : List Char} : Within p (String.ofList s) ↔ ∀ c ∈ s, p c = true := by
  rw [Within, String.toList_ofList]

/-- a text without a character -/
theorem within_empty : Within p "" := List.forall_mem_nil _

variable (hp : Includes p)
include hp

theorem IsPlain.within {s : String} (h : IsPlain s) : Within p s :=
  fun c hc => hp.printable c (h c hc)

/-- a fixed string -/
theorem within_of_printable {s : List Char} (h : s.all isPrintable = true) :
    Within p (String.ofList s) :=
  (isPlain_ofList h).within hp

theorem within_of_isName {s : String} (h : isName s.toList = true) : Within p s := by
  obtain ⟨c, rest, hs, hc, hrest⟩ := exists_cons_of_isName h
  rw [Within, hs]
  exact List.forall_mem_cons.mpr ⟨hp.name c hc, fun d hd => hp.name d (hrest d hd)⟩

/-! ## escaped text -/

theorem within_escapeChar (c : Char) : (∀ d ∈ escapeChar c, p d = true) ↔ p c = true := by
  have hfixed {s : List Char} (h : s.all isPrintable = true) : ∀ d ∈ s, p d = true :=
    fun d hd => hp.printable d (List.all_eq_true.mp h d hd)
  unfold escapeChar
  split
  case h_6 => exact List.forall_mem_singleton
  all_goals exact iff_of_true (hfixed (by decide)) (hp.printable _ (by decide))

theorem within_escapeChars (s : List Char) :
    (∀ d ∈ escapeChars s, p d = true) ↔ ∀ c ∈ s, p c = true := by
  induction s with
  | nil => rfl
  | cons c rest ih =>
    rw [escapeChars_cons, List.forall_mem_append, within_escapeChar hp, ih, List.forall_mem_cons]

theorem within_escape {s : String} : Within p (escape s) ↔ Within p s := by
  rw [escape_eq, within_ofList, within_escapeChars hp]
  rfl

theorem within_separateHyphens (s : List Char) :
    (∀ d ∈ separateHyphens s, p d = true) ↔ ∀ c ∈ s, p c = true := by
  induction s with
  | nil => rfl
  | cons c rest ih =>
    have hspace : p ' ' = true := hp.printable ' ' (by decide)
    rw [separateHyphens, List.forall_mem_cons, ← ih]
    split
    · rw [List.forall_mem_cons, List.forall_mem_cons]
      exact and_congr_right fun _ => and_iff_right hspace
    · exact List.forall_mem_cons

theorem within_commentBody {s : String} : Within p (commentBody s) ↔ Within p s := by
  rw [commentBody_eq, within_ofList, within_separateHyphens hp, within_escapeChars hp]
  rfl

theorem within_commentText {s : String} : Within p (commentText s) ↔ Within p s := by
  have hspace : Within p " " := within_of_printable hp (by decide)
  rw [commentText_eq, within_append, within_append, within_commentBody hp]
  exact ⟨fun h => h.1.2, fun h => ⟨⟨hspace, h⟩, hspace⟩⟩

/-! ## markup -/

theorem within_indent (level : Nat) : Within p (indent level) := by
  rw [indent, within_ofList]
  intro c hc
  rw [List.eq_of_mem_replicate hc]
  exact hp.printable ' ' (by decide)

theorem within_attrsMarkup {attrs : List Attr} (h : NamedAttrs attrs) :
    Within p (attrsMarkup attrs) ↔ ∀ a ∈ attrs, Within p a.2 := by
  induction attrs with
  | nil => exact iff_of_true within_empty (List.forall_mem_nil _)
  | cons a rest ih =>
    rw [namedAttrs_cons] at h
    have hmarkup : attrsMarkup (a :: rest)
        = " " ++ a.1 ++ "=\"" ++ escape a.2 ++ "\"" ++ attrsMarkup rest := String.join_cons
    have hspace : Within p " " := within_of_printable hp (by decide)
    have hequals : Within p "=\"" := within_of_printable hp (by decide)
    have hquote : Within p "\"" := within_of_printable hp (by decide)
    have hname : Within p a.1 := within_of_isName hp h.1
    simp only [hmarkup, within_append, within_escape hp, hspace, hequals, hquote, hname, ih h.2,
      true_and, and_true, List.forall_mem_cons]

section
variable {name : String} {attrs : List Attr} (hname : isName name.toList = true)
include hname

theorem within_endMarkup : Within p (endMarkup name) := by
  unfold endMarkup
  rw [within_append, within_append]
  exact ⟨⟨within_of_printable hp (by decide), within_of_isName hp hname⟩,
    within_of_printable hp (by decide)⟩

variable (hattrs : NamedAttrs attrs)
include hattrs

theorem within_startMarkup : Within p (startMarkup name attrs) ↔ ∀ a ∈ attrs, Within p a.2 := by
  have hopen : Within p "<" := within_of_printable hp (by decide)
  have hclose : Within p ">" := within_of_printable hp (by decide)
  simp only [startMarkup, within_append, within_attrsMarkup hp hattrs, hopen, hclose,
    within_of_isName hp hname, true_and, and_true]

theorem within_emptyMarkup : Within p (emptyMarkup name attrs) ↔ ∀ a ∈ attrs, Within p a.2 := by
  have hopen : Within p "<" := within_of_printable hp (by decide)
  have hclose : Within p " />" := within_of_printable hp (by decide)
  simp only [emptyMarkup, within_append, within_attrsMarkup hp hattrs, hopen, hclose,
    within_of_isName hp hname, true_and, and_true]

end

end

/-! ## steps -/

/-- the strings that a step is given -/
def Step.written : Step → List Written
  | raw _ | endTag _ => []
  | startTag _ attrs | emptyTag _ attrs => attrs.map fun a => .value a.2
  | text _ attrs content => attrs.map (fun a => .value a.2) ++ [.text content]
  | value _ content => [.value content]
  | comment content => [.comment content]

theorem within_markup {p : Char → Bool} (hp : Includes p) {leaf : String → Bool} {s : Step}
    (h : s.Readable leaf) :
    Within p s.markup ↔ ∀ x ∈ s.written, Within p x.string := by
  cases s with
  | raw line => exact h.elim
  | startTag name attrs =>
    rw [Step.written, List.forall_mem_map]
    exact within_startMarkup hp h.1 h.2.1
  | endTag name => exact iff_of_true (within_endMarkup hp h) (List.forall_mem_nil _)
  | emptyTag name attrs =>
    rw [Step.written, List.forall_mem_map]
    exact within_emptyMarkup hp h.1 h.2
  | text name attrs content =>
    rw [Step.written, List.forall_mem_append, List.forall_mem_map, List.forall_mem_singleton]
    by_cases hempty : content = ""
    · rw [Step.markup, if_pos hempty, within_emptyMarkup hp h.1 h.2, hempty]
      exact (and_iff_left within_empty).symm
    · rw [Step.markup, if_neg hempty, within_append, within_append, within_startMarkup hp h.1 h.2,
        within_escape hp]
      exact and_iff_left (within_endMarkup hp h.1)
  | value name content =>
    rw [Step.markup, within_emptyMarkup hp h (namedAttrs_value content), Step.written,
      List.forall_mem_singleton, List.forall_mem_singleton]
    rfl
  | comment content =>
    have hopen : Within p "<!-- " := within_of_printable hp (by decide)
    have hclose : Within p " -->" := within_of_printable hp (by decide)
    rw [Step.markup, within_append, within_append, within_commentBody hp, Step.written,
      List.forall_mem_singleton]
    exact ⟨fun h => h.1.2, fun h => ⟨⟨hopen, h⟩, hclose⟩⟩

/-! ## items -/

section
variable {p : Char → Bool}

mutual

/-- the steps of an item are given the strings of its tree -/
theorem Item.within_steps (hp : Includes p) : (item : Item) →
    ((∀ s ∈ item.steps, ∀ x ∈ s.written, Within p x.string) ↔
      ∀ x ∈ item.tree.written, Within p x.string)
  | .container name attrs items => by
    have ih := Item.within_stepsAll hp items
    have hstart : (Step.startTag name attrs).written = attrs.map fun a => .value a.2 := rfl
    rw [Item.steps, List.forall_mem_cons, List.forall_mem_append, List.forall_mem_singleton, ih,
      Item.tree, Tree.forall_written_element, hstart, List.forall_mem_map, Item.trees_eq_map,
      List.forall_mem_map]
    exact and_congr_right fun _ => and_iff_left (List.forall_mem_nil _)
  | .leaf name attrs text => by
    rw [Item.steps, List.forall_mem_singleton, Step.written, List.forall_mem_append,
      List.forall_mem_map, List.forall_mem_singleton, Item.tree, Tree.forall_written_element]
    refine and_congr_right fun _ => ?_
    by_cases hempty : text = ""
    · rw [if_pos hempty, hempty]
      exact iff_of_true within_empty (List.forall_mem_nil _)
    · rw [if_neg hempty, List.forall_mem_singleton, Tree.forall_written_text]
  | .comment text => by
    rw [Item.steps, List.forall_mem_singleton, Step.written, List.forall_mem_singleton, Item.tree,
      Tree.forall_written_comment]
    exact (within_commentText hp).symm

theorem Item.within_stepsAll (hp : Includes p) : (items : List Item) →
    ((∀ s ∈ Item.stepsAll items, ∀ x ∈ s.written, Within p x.string) ↔
      ∀ item ∈ items, ∀ x ∈ item.tree.written, Within p x.string)
  | [] => by
    rw [Item.stepsAll]
    exact iff_of_true (List.forall_mem_nil _) (List.forall_mem_nil _)
  | item :: rest => by
    rw [Item.stepsAll, List.forall_mem_append, List.forall_mem_cons, Item.within_steps hp item,
      Item.within_stepsAll hp rest]

end

end

end Toolflow.Xml
