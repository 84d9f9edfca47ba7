import Mathlib.Data.List.Basic
import Toolflow.Proofs.Xml.Reader

/-!
# The strings of a tree

Besides its names a tree holds strings, and where a string stands decides how it is written and
how it is read.

* `Written`        a string and where it stands: in an attribute, as a text or in a comment;
* `Tree.written`   the strings of a tree, in the order of the text that it is read from;
* `IsPlain`        a string of the printable characters of ASCII, which is what every fixed string
                   of a document is.
-/

namespace Toolflow.Xml

inductive Written where
  | value (s : String)
  | text (s : String)
  | comment (s : String)
  deriving Repr, DecidableEq

def Written.string : Written → String
  | value s | text s | comment s => s

namespace Tree

mutual

def written : Tree → List Written
  | element _ attrs content => attrs.map (fun a => .value a.2) ++ allWritten content
  | text s => [.text s]
  | comment s => [.comment s]

def allWritten : List Tree → List Written
  | [] => []
  | t :: rest => t.written ++ allWritten rest

end

theorem allWritten_eq_flatMap (trees : List Tree) : allWritten trees = trees.flatMap written := by
  induction trees with
  | nil => rfl
  | cons t rest ih => rw [allWritten, ih, List.flatMap_cons]

section
variable {P : Written → Prop}

theorem forall_written_element {name : String} {attrs : List Attr} {content : List Tree} :
    (∀ x ∈ (element name attrs content).written, P x) ↔
      (∀ a ∈ attrs, P (.value a.2)) ∧ ∀ t ∈ content, ∀ x ∈ t.written, P x := by
  rw [written, List.forall_mem_append, List.forall_mem_map, allWritten_eq_flatMap]
  refine and_congr_right fun _ => ?_
  constructor
  · exact fun h t ht x hx => h x (List.mem_flatMap.mpr ⟨t, ht, hx⟩)
  · intro h x hx
    obtain ⟨t, ht, hxt⟩ := List.mem_flatMap.mp hx
    exact h t ht x hxt

/-- an element without attributes -/
theorem forall_written_inside {name : String} {content : List Tree} :
    (∀ x ∈ (element name [] content).written, P x) ↔ ∀ t ∈ content, ∀ x ∈ t.written, P x := by
  rw [forall_written_element]
  exact and_iff_right (List.forall_mem_nil _)

theorem forall_written_text {s : String} : (∀ x ∈ (Tree.text s).written, P x) ↔ P (.text s) :=
  List.forall_mem_singleton

theorem forall_written_comment {s : String} :
    (∀ x ∈ (Tree.comment s).written, P x) ↔ P (.comment s) :=
  List.forall_mem_singleton

end

end Tree

/-! ## plain strings -/

/-- a printable character of ASCII -/
def isPrintable (c : Char) : Bool := 0x20 ≤ c.toNat && c.toNat ≤ 0x7e

def IsPlain (s : String) : Prop := ∀ c ∈ s.toList, isPrintable c = true

instance : DecidablePred IsPlain := fun s =>
  List.decidableBAll (fun c => isPrintable c = true) s.toList

/-- all strings of the tree are plain -/
def Tree.IsPlain (t : Tree) : Prop := ∀ x ∈ t.written, Xml.IsPlain x.string

instance : DecidablePred Tree.IsPlain := fun t =>
  List.decidableBAll (fun x : Written => Xml.IsPlain x.string) t.written

theorem isPlain_ofList {s : List Char} (h : s.all isPrintable = true) :
    IsPlain (String.ofList s) := by
  unfold IsPlain
  rw [String.toList_ofList]
  exact List.all_eq_true.mp h

/-- a number is written in digits -/
theorem isPlain_toString (n : Nat) : IsPlain (toString n) := by
  intro c hc
  have hdigits : (toString n).toList = Nat.toDigits 10 n := Nat.toList_repr
  rw [hdigits] at hc
  have hdigit : c.isDigit = true := Nat.isDigit_of_mem_toDigits (by decide) (by decide) hc
  obtain ⟨hlow, hhigh⟩ := Char.isDigit_iff_toNat.mp hdigit
  rw [isPrintable, Bool.and_eq_true, decide_eq_true_iff, decide_eq_true_iff]
  simp only [Char.reduceToNat] at hlow hhigh
  omega

end Toolflow.Xml
