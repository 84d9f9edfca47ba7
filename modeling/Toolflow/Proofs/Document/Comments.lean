import Toolflow.Document.Basic
import Toolflow.Proofs.Xml.Entities
import Toolflow.Proofs.Xml.ReadBack

/-!
# Comments end where they are meant to end

A comment goes on until two hyphens meet, so what is written in it must keep them apart.

* `Apart`             no two hyphens meet, and none is last;
* `apart_cons_iff`    that is a condition on each hyphen and what follows it, which is where
                      `separateHyphens` puts its spaces;
* `exists_pieces`     the spaces are all that it adds: the text and what is made of it are the same
                      pieces, joined by a hyphen and by a hyphen with a space;
* `Apart.end_eq`      behind such a text two hyphens meet for the first time where the comment ends;
* `comment_safe`      all of it for every text, and for the comment in place of a tool.
-/

namespace Toolflow

namespace Xml

/-! ## hyphens -/

structure Apart (t : List Char) : Prop where
  meet : ¬ ['-', '-'] <:+: t
  last : t.getLast? ≠ some '-'

section
variable {s t : List Char}

theorem apart_nil : Apart [] := ⟨by decide, by decide⟩

/-- a hyphen has something behind it, and that is no hyphen -/
theorem apart_cons_iff {c : Char} :
    Apart (c :: t) ↔ ¬ (c = '-' ∧ t.head?.getD '-' = '-') ∧ Apart t := by
  have hmeet : ['-', '-'] <:+: c :: t ↔ (c = '-' ∧ t.head? = some '-') ∨ ['-', '-'] <:+: t := by
    rw [List.infix_cons_iff, List.cons_prefix_cons, eq_comm]
    cases t with
    | nil => simp
    | cons d rest => simp [List.cons_prefix_cons, eq_comm]
  constructor
  · intro h
    have hrest : Apart t := by
      refine ⟨fun hinfix => h.meet (hmeet.mpr (.inr hinfix)), fun hlast => h.last ?_⟩
      rw [List.getLast?_cons, hlast]
      rfl
    refine ⟨?_, hrest⟩
    rintro ⟨hc, hnext⟩
    cases t with
    | nil => exact h.last (by rw [hc]; rfl)
    | cons d rest => exact h.meet (hmeet.mpr (.inl ⟨hc, congrArg some hnext⟩))
  · rintro ⟨hc, h⟩
    constructor
    · intro hinfix
      rcases hmeet.mp hinfix with ⟨hhyphen, hnext⟩ | hinfix
      · exact hc ⟨hhyphen, by rw [hnext]; rfl⟩
      · exact h.meet hinfix
    · intro hlast
      cases t with
      | nil => exact hc ⟨Option.some.inj hlast, rfl⟩
      | cons d rest => exact h.last hlast

theorem apart_cons_of_ne {c : Char} (hc : c ≠ '-') : Apart (c :: t) ↔ Apart t := by
  rw [apart_cons_iff]
  exact and_iff_right fun h => hc h.1

theorem Apart.append (hs : Apart s) (ht : Apart t) : Apart (s ++ t) := by
  induction s with
  | nil => exact ht
  | cons c rest ih =>
    obtain ⟨hc, hrest⟩ := apart_cons_iff.mp hs
    refine apart_cons_iff.mpr ⟨fun ⟨hhyphen, hnext⟩ => hc ⟨hhyphen, ?_⟩, ih hrest⟩
    -- what follows the hyphen is still in the first of the two
    cases rest with
    | nil => rfl
    | cons d rest => exact hnext

theorem apart_separateHyphens (s : List Char) : Apart (separateHyphens s) := by
  induction s with
  | nil => exact apart_nil
  | cons c rest ih =>
    rw [separateHyphens_cons, spaceAfter]
    by_cases hmeet : some c = some '-' ∧ rest.head?.getD '-' = '-'
    · rw [if_pos hmeet]
      have hspace : Apart (' ' :: separateHyphens rest) := (apart_cons_of_ne (by decide)).mpr ih
      have hnext : ' ' ≠ '-' := by decide
      exact apart_cons_iff.mpr ⟨fun h => hnext h.2, hspace⟩
    · rw [if_neg hmeet, List.nil_append]
      refine apart_cons_iff.mpr ⟨?_, ih⟩
      rw [head?_separateHyphens]
      exact fun h => hmeet ⟨congrArg some h.1, h.2⟩

theorem separateHyphens_eq_self_iff : separateHyphens s = s ↔ Apart s := by
  constructor
  · intro h
    rw [← h]
    exact apart_separateHyphens s
  · intro h
    induction s with
    | nil => rfl
    | cons c rest ih =>
      obtain ⟨hc, hrest⟩ := apart_cons_iff.mp h
      rw [separateHyphens, if_neg hc, ih hrest]

/-- nothing is lost or moved, and nothing but a space behind a hyphen is new -/
theorem exists_pieces (s : List Char) : ∃ first more,
    separateHyphens s = ['-', ' '].intercalate (first :: more) ∧
      s = ['-'].intercalate (first :: more) := by
  induction s with
  | nil => exact ⟨[], [], rfl, rfl⟩
  | cons c rest ih =>
    obtain ⟨first, more, hspaced, hplain⟩ := ih
    rw [separateHyphens]
    by_cases hmeet : c = '-' ∧ rest.head?.getD '-' = '-'
    · refine ⟨[], first :: more, ?_, ?_⟩
      · rw [if_pos hmeet, hspaced, hmeet.1]
        rfl
      · rw [hmeet.1, hplain]
        rfl
    · refine ⟨c :: first, more, ?_, ?_⟩
      · rw [if_neg hmeet, hspaced]
        cases more <;> rfl
      · rw [hplain]
        cases more <;> rfl

theorem eq_space_of_mem_spaceAfter {c : Char} {last : Option Char} (h : c ∈ spaceAfter last s) :
    c = ' ' := by
  unfold spaceAfter at h
  split at h
  · exact List.mem_singleton.mp h
  · exact absurd h List.not_mem_nil

theorem mem_of_mem_separateHyphens {c : Char} (h : c ∈ separateHyphens s) : c = ' ' ∨ c ∈ s := by
  induction s with
  | nil => exact absurd h List.not_mem_nil
  | cons d rest ih =>
    rw [separateHyphens_cons] at h
    rcases List.mem_cons.mp h with rfl | h
    · exact .inr List.mem_cons_self
    · rcases List.mem_append.mp h with hspace | hrest
      · exact .inl (eq_space_of_mem_spaceAfter hspace)
      · exact (ih hrest).imp_right (List.mem_cons_of_mem d)

/-- behind a text that keeps its hyphens apart they meet for the first time at the end -/
theorem Apart.end_eq (h : Apart t) {inner behind : List Char}
    (heq : t ++ ['-', '-', '>'] = inner ++ '-' :: '-' :: behind) : inner = t ∧ behind = ['>'] := by
  induction t generalizing inner with
  | nil =>
    match inner, heq with
    | [], heq => exact ⟨rfl, by simpa using heq.symm⟩
    | [a], heq => simp at heq
    | [a, b], heq => simp at heq
    | a :: b :: c :: inner, heq => simp at heq
  | cons c rest ih =>
    obtain ⟨hc, hrest⟩ := apart_cons_iff.mp h
    cases inner with
    | nil =>
      obtain ⟨hhyphen, hnext⟩ := List.cons.inj heq
      refine absurd ⟨hhyphen, ?_⟩ hc
      cases rest with
      | nil => rfl
      | cons d rest => exact (List.cons.inj hnext).1
    | cons a inner =>
      obtain ⟨rfl, hafter⟩ := List.cons.inj heq
      obtain ⟨rfl, hbehind⟩ := ih hrest hafter
      exact ⟨rfl, hbehind⟩

end

/-! ## comments -/

/-- the text in a comment is safe, and the comment that is written for it ends at its own end -/
structure SafeComment (s : String) : Prop where
  apart : Apart (commentBody s).toList
  no_tag : ∀ c ∈ ['<', '>'], c ∉ (commentBody s).toList
  /-- the escaped text comes back when some spaces behind hyphens are taken out -/
  spaced : ∃ pieces, (commentBody s).toList = ['-', ' '].intercalate pieces ∧
    (escape s).toList = ['-'].intercalate pieces
  same_iff : commentBody s = escape s ↔ Apart (escape s).toList
  ends : ∃ body, (Step.comment s).markup = "<!--" ++ body ++ "-->" ∧
    ∀ inner behind, (Step.comment s).markup = "<!--" ++ inner ++ "--" ++ behind →
      inner = body ∧ behind = ">"
  /-- a reader finds this one comment, and nothing behind it -/
  read : ∀ leaf level, forest? leaf (outputs level [.comment s]).toList
    = some [.comment (commentText s)]

theorem apart_commentText (s : String) : Apart (commentText s).toList := by
  have hspace : Apart [' '] := (apart_cons_of_ne (by decide)).mpr apart_nil
  have htext : (commentText s).toList
      = [' '] ++ separateHyphens (escapeChars s.toList) ++ [' '] := by
    simp [commentText_eq, toList_commentBody]
  rw [htext]
  exact (hspace.append (apart_separateHyphens _)).append hspace

theorem markup_comment (s : String) :
    (Step.comment s).markup = "<!--" ++ commentText s ++ "-->" := by
  apply String.toList_inj.mp
  simp [Step.markup, commentText_eq]

theorem ends_comment {s inner behind : String}
    (h : (Step.comment s).markup = "<!--" ++ inner ++ "--" ++ behind) :
    inner = commentText s ∧ behind = ">" := by
  have heq : (commentText s).toList ++ ['-', '-', '>']
      = inner.toList ++ '-' :: '-' :: behind.toList := by
    rw [markup_comment] at h
    simpa using congrArg String.toList h
  obtain ⟨hinner, hbehind⟩ := (apart_commentText s).end_eq heq
  exact ⟨String.toList_inj.mp hinner, String.toList_inj.mp hbehind⟩

theorem read_comment (leaf : String → Bool) (level : Nat) (s : String) :
    forest? leaf (outputs level [.comment s]).toList = some [.comment (commentText s)] := by
  have hsteps : ∀ step ∈ [Step.comment s], step.Readable leaf :=
    List.forall_mem_singleton.mpr True.intro
  have hblanks : ([] : List Char).all isBlank = true := rfl
  exact forest?_outputs hsteps hblanks level

theorem safeComment (s : String) : SafeComment s where
  apart := by
    rw [toList_commentBody]
    exact apart_separateHyphens _
  no_tag := by
    intro c hc hmem
    rw [toList_commentBody] at hmem
    rcases mem_of_mem_separateHyphens hmem with rfl | hmem
    · exact absurd hc (by decide)
    · have hother : c ∈ ['<', '>', '\'', '"'] := List.mem_append_left ['\'', '"'] hc
      exact (escaped_escapeChars s.toList).absent c hother hmem
  spaced := by
    obtain ⟨first, more, hspaced, hplain⟩ := exists_pieces (escapeChars s.toList)
    rw [toList_commentBody, toList_escape]
    exact ⟨first :: more, hspaced, hplain⟩
  same_iff := by
    rw [← String.toList_inj, toList_commentBody, toList_escape]
    exact separateHyphens_eq_self_iff
  ends := ⟨commentText s, markup_comment s, fun _ _ => ends_comment⟩
  read := fun leaf level => read_comment leaf level s

end Xml

open Xml

/-- **Comments are safe and end where they are meant to**, whatever they are on, and also in place
of a tool. -/
theorem comment_safe :
    (∀ s, SafeComment s) ∧ ∀ n : Node, ∃ s, (Document.unmappedItem n).steps = [.comment s] ∧
      s = "UNMAPPED NODE: " ++ n.kindName ++ " - " ++ n.source ∧ SafeComment s := by
  refine ⟨safeComment, fun n => ⟨_, rfl, ?_, safeComment _⟩⟩
  simp [toString]

example : commentBody "a --> b -" = "a - -&gt; b - " := by decide

end Toolflow
