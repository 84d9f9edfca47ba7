import Mathlib.Data.List.Forall2
import Mathlib.Data.List.TakeWhile
import Mathlib.Tactic.SplitIfs
import Toolflow.Proofs.Document.Graph

/-!
# File formats and extensions

The format of a file goes by the letters behind the last point of its name.

* `SpelledLike s word`   `s` is the word, each letter of it small or capital;
* `HasExtension name word`   the name ends with a point and such a spelling of the word;
* `IsBare name word`     the name is such a spelling itself, and so it has no point;
* `lower_extension_iff`  the text that the format goes by is a spelling of the word in these two
                         cases and in no other: without a point it is the whole name;
* `FollowsExtension`     what the format says about the name;
* `named_file`           the files of a document, read or written, each with the code of its
                         format;
* `format_follows_extension`   both for all names and all documents;
* `format_without_point` a name without a point has no extension, and still its format need not be
                         the one of a name without an extension.
-/

namespace Toolflow

open Xml

namespace FileFormat

/-! ## words in small and capital letters -/

def SpelledLike (s word : List Char) : Prop :=
  List.Forall₂ (fun c letter => c = letter ∨ c = letter.toUpper) s word

/-- the name ends with a point and the word -/
def HasExtension (name word : String) : Prop :=
  ∃ stem tail, name = stem ++ "." ++ tail ∧ SpelledLike tail.toList word.toList

/-- the name is the word, without any point -/
def IsBare (name word : String) : Prop :=
  '.' ∉ name.toList ∧ SpelledLike name.toList word.toList

theorem toNat_toLower (c : Char) :
    c.toLower.toNat = if 65 ≤ c.toNat ∧ c.toNat ≤ 90 then c.toNat + 32 else c.toNat := by
  unfold Char.toLower
  split
  · next hcapital =>
    have h : 65 ≤ c.toNat ∧ c.toNat ≤ 90 := hcapital
    rw [if_pos h]
    show (c.toNat + 32) % 4294967296 = c.toNat + 32
    omega
  · next hother => exact (if_neg hother).symm

theorem toNat_toUpper {c : Char} (h : 97 ≤ c.toNat ∧ c.toNat ≤ 122) :
    c.toUpper.toNat = c.toNat - 32 := by
  have hsmall : 'a'.val ≤ c.val ∧ c.val ≤ 'z'.val := h
  have hval : (c.val + ('A'.val - 'a'.val)).toNat = c.toNat - 32 := by
    rw [UInt32.toNat_add]
    -- the step down is added as 2^32 - 32
    show (c.toNat + 4294967264) % 4294967296 = c.toNat - 32
    omega
  unfold Char.toUpper
  rw [dif_pos hsmall]
  exact hval

/-- no character but a small letter of ASCII and its capital has this small letter -/
theorem toLower_eq_iff {letter : Char} (h : letter.isLower = true) (c : Char) :
    c.toLower = letter ↔ c = letter ∨ c = letter.toUpper := by
  have hletter : 97 ≤ letter.toNat ∧ letter.toNat ≤ 122 := by
    obtain ⟨hfirst, hlast⟩ := Bool.and_eq_true_iff.mp h
    exact ⟨of_decide_eq_true hfirst, of_decide_eq_true hlast⟩
  rw [← Char.toNat_inj, ← Char.toNat_inj, ← Char.toNat_inj, toNat_toLower, toNat_toUpper hletter]
  split_ifs <;> omega

section
variable {word : List Char} (hword : ∀ letter ∈ word, letter.isLower = true)
include hword

theorem lower_eq_iff (s : List Char) : lower s = word ↔ SpelledLike s word := by
  unfold lower SpelledLike
  induction word generalizing s with
  | nil => rw [List.map_eq_nil_iff, List.forall₂_nil_right_iff]
  | cons letter rest ih =>
    obtain ⟨hletter, hrest⟩ := List.forall_mem_cons.mp hword
    cases s with
    | nil => exact iff_of_false (List.cons_ne_nil _ _).symm fun h => nomatch h
    | cons c s =>
      rw [List.map_cons, List.cons.injEq, List.forall₂_cons, toLower_eq_iff hletter, ih hrest]

theorem point_notMem {s : List Char} (h : SpelledLike s word) : '.' ∉ s := by
  intro hmem
  have hpoint : Char.toLower '.' ∈ word := by
    rw [← (lower_eq_iff hword s).mpr h]
    exact List.mem_map_of_mem hmem
  exact absurd (hword _ hpoint) (by decide)

end

/-! ## extensions -/

theorem exists_stem {name : List Char} (h : '.' ∈ name) :
    ∃ stem, name = stem ++ '.' :: extension name := by
  obtain ⟨tail, stem, hsplit, htail⟩ :=
    List.eq_append_cons_of_mem (List.mem_reverse.mpr h)
  have hname : name = stem.reverse ++ '.' :: tail.reverse := by
    rw [← List.reverse_reverse name, hsplit]
    simp
  refine ⟨stem.reverse, ?_⟩
  conv_rhs => rw [hname]
  rw [extension_append_cons (fun hmem => htail (List.mem_reverse.mp hmem)), ← hname]

theorem lower_extension_iff {word : String}
    (hword : ∀ letter ∈ word.toList, letter.isLower = true) (name : String) :
    lower (extension name.toList) = word.toList ↔ HasExtension name word ∨ IsBare name word := by
  rw [lower_eq_iff hword]
  constructor
  · intro h
    by_cases hpoint : '.' ∈ name.toList
    · obtain ⟨stem, hstem⟩ := exists_stem hpoint
      refine .inl ⟨String.ofList stem, String.ofList (extension name.toList), ?_, ?_⟩
      · apply String.toList_inj.mp
        simpa using hstem
      · rw [String.toList_ofList]
        exact h
    · rw [extension_of_notMem hpoint] at h
      exact .inr ⟨hpoint, h⟩
  · rintro (⟨stem, tail, rfl, htail⟩ | ⟨hpoint, hname⟩)
    · have hsplit : (stem ++ "." ++ tail).toList = stem.toList ++ '.' :: tail.toList := by simp
      rw [hsplit, extension_append_cons (point_notMem hword htail)]
      exact htail
    · rw [extension_of_notMem hpoint]
      exact hname

/-- what stands before a point does not matter -/
theorem extension_behind_point (stem tail : List Char) :
    extension (stem ++ '.' :: tail) = extension ('.' :: tail) := by
  have hreverse : (stem ++ '.' :: tail).reverse = ('.' :: tail).reverse ++ stem.reverse := by simp
  have hpoint : '.' ∈ ('.' :: tail).reverse := List.mem_reverse.mpr List.mem_cons_self
  unfold extension
  rw [hreverse, List.takeWhile_append, if_neg]
  -- not all of it is taken, for the point is not
  intro hlength
  have hall := (List.takeWhile_prefix _).eq_of_length hlength
  exact absurd rfl (of_decide_eq_true (List.takeWhile_eq_self_iff.mp hall '.' hpoint))

/-! ## codes -/

structure FollowsExtension (name : String) : Prop where
  yxdb : (ofName name).code = 19 ↔ HasExtension name "yxdb" ∨ IsBare name "yxdb"
  xlsx : (ofName name).code = 25 ↔ HasExtension name "xlsx" ∨ IsBare name "xlsx"
  other : (ofName name).code = 0 ↔ ¬ (HasExtension name "yxdb" ∨ IsBare name "yxdb") ∧
    ¬ (HasExtension name "xlsx" ∨ IsBare name "xlsx")
  behind_point : ∀ stem, ofName (stem ++ "." ++ name) = ofName ("." ++ name)

theorem ofName_eq (name : String) : ofName name =
    if lower (extension name.toList) = "yxdb".toList then .yxdb
    else if lower (extension name.toList) = "xlsx".toList then .xlsx
    else .csv :=
  rfl

theorem followsExtension (name : String) : FollowsExtension name := by
  have hyxdb := @lower_extension_iff "yxdb" (List.all_eq_true.mp rfl) name
  have hxlsx := @lower_extension_iff "xlsx" (List.all_eq_true.mp rfl) name
  constructor
  · rw [← hyxdb, ofName_eq]
    split_ifs with h h'
    · exact iff_of_true rfl h
    · exact iff_of_false (by decide) h
    · exact iff_of_false (by decide) h
  · rw [← hxlsx, ofName_eq]
    split_ifs with h h'
    · exact iff_of_false (by decide) (by rw [h]; decide)
    · exact iff_of_true rfl h'
    · exact iff_of_false (by decide) h'
  · rw [← hyxdb, ← hxlsx, ofName_eq]
    split_ifs with h h'
    · exact iff_of_false (by decide) fun hneither => hneither.1 h
    · exact iff_of_false (by decide) fun hneither => hneither.2 h'
    · exact iff_of_true rfl ⟨h, h'⟩
  · intro stem
    have hlong : (stem ++ "." ++ name).toList = stem.toList ++ '.' :: name.toList := by simp
    have hshort : ("." ++ name).toList = '.' :: name.toList := by simp
    rw [ofName_eq, ofName_eq, hlong, hshort, extension_behind_point]

end FileFormat

/-! ## files of a document -/

/-- the file that is read or written -/
def Settings.file? : Settings → Option String
  | input table => some (inputFile table)
  | output table => some (outputFile table)
  | _ => none

namespace Document

theorem named_leaf_self (name : String) (attrs : List Attr) (text : String) :
    (Tree.leaf name attrs text).named name = [Tree.leaf name attrs text] := by
  unfold Tree.leaf
  rw [Tree.named_self]
  split <;> rfl

/-- only the settings that name a file are drawn with one -/
theorem named_file_content (s : Settings) :
    Tree.allNamed "File" s.content = (s.file?.map fileTree).toList := by
  have hfile (name : String) : (fileTree name).named "File" = [fileTree name] :=
    named_leaf_self "File" _ name
  cases s with
  | input table =>
    simp [Settings.content, Tree.allNamed, hfile, named_leaf, Tree.named_of_ne, Settings.file?]
  | output table =>
    simp [Settings.content, Tree.allNamed, hfile, named_leaf, named_value, Tree.named_of_ne,
      Settings.file?]
  | filter expression => simp [Settings.content, Tree.allNamed, named_leaf, Settings.file?]
  | summarize groups aggregations =>
    simp [Settings.content, Tree.named_of_ne, Tree.allNamed_eq_flatMap, named_groupTree,
      named_aggregation, Settings.file?]
  | formula assignments =>
    simp [Settings.content, Tree.allNamed, named_entries, Assignment.tree, named_empty,
      Settings.file?]
  | sort terms =>
    simp [Settings.content, Tree.allNamed, named_entries, SortTerm.tree, named_empty,
      Settings.file?]
  | join pairs =>
    simp [Settings.content, Tree.allNamed, named_entries, Match.tree, named_empty, Settings.file?]
  | select columns =>
    simp [Settings.content, Tree.allNamed, named_entries, Column.tree, named_empty,
      Settings.file?]
  | sample count method => simp [Settings.content, Tree.allNamed, named_leaf, Settings.file?]
  | unique fields =>
    simp [Settings.content, Tree.allNamed, named_entries, uniqueTree, named_empty, Settings.file?]
  | unmapped => rfl

theorem named_file_nodeTree (i : Nat) (n : Node) :
    (nodeTree i n).named "File" = (n.settings.file?.map fileTree).toList := by
  unfold nodeTree
  cases hkind : n.kind? with
  | none =>
    have hsettings : n.settings = .unmapped := by
      unfold Node.kind? at hkind
      cases hs : n.settings with
      | unmapped => rfl
      | _ => rw [hs] at hkind; exact nomatch hkind
    rw [hsettings]
    exact Tree.named_comment _
  | some kind =>
    simp [toolTree, Tree.allNamed, Tree.named_of_ne, annotationTree, named_leaf, named_value,
      named_empty, named_file_content]

/-- **The files of a document are those that its nodes read or write**, in their order. -/
theorem named_file (w : Workflow) :
    (documentTree w).named "File" = (w.nodes.filterMap (·.settings.file?)).map fileTree := by
  have hwires : Tree.allNamed "File" (((Layout.ofWorkflow w).wires w.links).map wireTree) = [] :=
    Tree.allNamed_eq_nil fun t ht => by
      obtain ⟨wire, _, rfl⟩ := List.mem_map.mp ht
      rfl
  have hproperties : propertiesTree.named "File" = [] := rfl
  have hnodes : Tree.allNamed "File" (w.nodes.zipIdx.map fun x => nodeTree x.2 x.1)
      = (w.nodes.filterMap (·.settings.file?)).map fileTree := by
    rw [Tree.allNamed_eq_flatMap, List.flatMap_map, List.map_filterMap,
      List.filterMap_eq_flatMap_toList]
    conv_rhs => rw [← List.zipIdx_map_fst 0 w.nodes, List.flatMap_map]
    exact List.flatMap_congr fun x _ => named_file_nodeTree x.2 x.1
  simp [documentTree, Tree.named_of_ne, Tree.allNamed, hnodes, hwires, hproperties]

end Document

/-- **The format of a file follows the extension of its name**, in every document and whether the
file is read or written; a name without a point is taken for an extension. -/
theorem format_follows_extension (name : String) (w : Workflow) :
    FileFormat.FollowsExtension name ∧
      ∃ doc, Xml.document? Document.isLeaf w.compile.document = some doc ∧
        doc.named "File" = (w.nodes.filterMap (·.settings.file?)).map fun file =>
          .leaf "File" [("FileFormat", toString (FileFormat.ofName file).code)] file :=
  ⟨FileFormat.followsExtension name,
    Document.documentTree w, Document.document?_compile w, Document.named_file w⟩

/-- a name that is no extension of anything -/
theorem format_without_point : '.' ∉ "yxdb".toList ∧
    ¬ FileFormat.HasExtension "yxdb" "yxdb" ∧ (FileFormat.ofName "yxdb").code = 19 := by
  refine ⟨by decide, ?_, rfl⟩
  rintro ⟨stem, tail, hname, _⟩
  have hpoint : '.' ∈ "yxdb".toList := by
    rw [hname]
    simp
  exact absurd hpoint (by decide)

end Toolflow
