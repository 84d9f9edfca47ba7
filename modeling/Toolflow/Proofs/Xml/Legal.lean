import Toolflow.Proofs.Xml.Characters

/-!
# Characters that XML allows

* `isLegal`, `Legal`   the characters that may stand in a text of XML, and strings of them;
* `includes_isLegal`   all characters that are written around the given strings are legal;
* `legal_outputs_steps`   so a tree that is written is legal if and only if its strings are.

There is no way to write a character that is not legal, not even by its number.
-/

namespace Toolflow.Xml

def isLegal (c : Char) : Bool :=
  c = '\t' || c = '\n' || c = '\r' || (0x20 ≤ c.toNat && c.toNat ≤ 0xd7ff)
    || (0xe000 ≤ c.toNat && c.toNat ≤ 0xfffd) || (0x10000 ≤ c.toNat && c.toNat ≤ 0x10ffff)

def Legal (s : String) : Prop := ∀ c ∈ s.toList, isLegal c = true

instance : DecidablePred Legal := fun s =>
  List.decidableBAll (fun c => isLegal c = true) s.toList

theorem isLegal_of_le {c : Char} (hlow : 0x20 ≤ c.toNat) (hhigh : c.toNat ≤ 0xd7ff) :
    isLegal c = true := by
  simp [isLegal, hlow, hhigh]

/-- the ranges of the characters of names lie inside those of the legal characters -/
theorem isLegal_of_isNameChar {c : Char} (h : isNameChar c = true) : isLegal c = true := by
  have hrange : 0x20 ≤ c.toNat ∧ c.toNat ≤ 0xd7ff ∨ 0xe000 ≤ c.toNat ∧ c.toNat ≤ 0xfffd ∨
      0x10000 ≤ c.toNat ∧ c.toNat ≤ 0x10ffff := by
    simp only [isNameChar, isNameStart, Bool.or_eq_true, Bool.and_eq_true, decide_eq_true_eq,
      Char.le_def, UInt32.le_iff_toNat_le, Char.toNat_val, Char.reduceToNat, ← Char.toNat_inj] at h
    omega
  unfold isLegal
  rcases hrange with ⟨hlow, hhigh⟩ | ⟨hlow, hhigh⟩ | ⟨hlow, hhigh⟩
  · simp [hlow, hhigh]
  · simp [hlow, hhigh]
  · simp [hlow, hhigh]

theorem includes_isLegal : Includes isLegal where
  printable c h := by
    rw [isPrintable, Bool.and_eq_true, decide_eq_true_iff, decide_eq_true_iff] at h
    exact isLegal_of_le h.1 (Nat.le_trans h.2 (by decide))
  name _ h := isLegal_of_isNameChar h

theorem legal_append {a b : String} : Legal (a ++ b) ↔ Legal a ∧ Legal b := within_append

theorem legal_outputs {leaf : String → Bool} {steps : List Step}
    (h : ∀ s ∈ steps, s.Readable leaf) (level : Nat) :
    Legal (outputs level steps) ↔ ∀ s ∈ steps, ∀ x ∈ s.written, Legal x.string := by
  induction steps generalizing level with
  | nil => exact iff_of_true within_empty (List.forall_mem_nil _)
  | cons s rest ih =>
    rw [List.forall_mem_cons] at h ⊢
    have hline : Legal "\n" := by decide
    have hindent : Legal (indent (s.lineLevel level)) := within_indent includes_isLegal _
    have hmarkup : Legal s.markup ↔ ∀ x ∈ s.written, Legal x.string :=
      within_markup includes_isLegal h.1
    rw [outputs, Step.output, legal_append, legal_append, legal_append, hmarkup,
      ih h.2 (s.next level)]
    refine and_congr_left fun _ => ?_
    exact ⟨fun hlegal => hlegal.1.2, fun hlegal => ⟨⟨hindent, hlegal⟩, hline⟩⟩

/-- **What is written of a tree is legal if and only if the strings of the tree are.** -/
theorem legal_outputs_steps {leaf : String → Bool} {item : Item} (h : item.Readable leaf)
    (level : Nat) :
    Legal (outputs level item.steps) ↔ ∀ x ∈ item.tree.written, Legal x.string :=
  (legal_outputs (Item.readable_steps item h) level).trans (item.within_steps includes_isLegal)

end Toolflow.Xml
