import Toolflow.Proofs.Xml.Written

/-!
# Normalised strings

What an XML processor makes of the white space in a text before it hands it on.

* `lineFeeds`      every line end becomes one line feed, wherever it stands;
* `spaces`         every blank character of an attribute becomes a space, after that;
* `normalText`, `normalValue`   what is handed on of a text and of the value of an attribute;
* `Tree.normal`    what is handed on of a tree, and `Written.normal` of one of its strings;
* `Written.Survives`   a string without the characters that are changed where it stands;
* `Tree.normal_eq_self_iff`   a tree is handed on as it is if and only if its strings survive.

Characters that were written as entities are not changed, but the only entities that are written
are those of the five reserved characters.
-/

namespace Toolflow.Xml

/-! ## line ends -/

/-- the two characters of a line end, or a carriage return alone, as one line feed -/
def lineFeeds : List Char → List Char
  | '\r' :: '\n' :: rest => '\n' :: lineFeeds rest
  | '\r' :: rest => '\n' :: lineFeeds rest
  | c :: rest => c :: lineFeeds rest
  | [] => []

/-- a line feed for a carriage return -/
def lineEnd (c : Char) : Char := if c = '\r' then '\n' else c

theorem lineEnd_of_ne {c : Char} (h : c ≠ '\r') : lineEnd c = c := if_neg h

theorem lineFeeds_nil : lineFeeds [] = [] := by
  rw [lineFeeds]

theorem lineFeeds_cons_of_ne {c : Char} (h : c ≠ '\r') (rest : List Char) :
    lineFeeds (c :: rest) = c :: lineFeeds rest := by
  rw [lineFeeds]
  · exact fun _ hc => absurd hc h
  · exact h

theorem lineFeeds_pair (rest : List Char) :
    lineFeeds ('\r' :: '\n' :: rest) = '\n' :: lineFeeds rest := by
  rw [lineFeeds]

theorem lineFeeds_return {rest : List Char} (h : rest.head? ≠ some '\n') :
    lineFeeds ('\r' :: rest) = '\n' :: lineFeeds rest := by
  rw [lineFeeds]
  rintro rest' rfl
  exact h rfl

/-- a line feed is added for the last character, unless it ends a line end that is there -/
theorem lineFeeds_concat (s : List Char) (c : Char) :
    lineFeeds (s ++ [c]) =
      if s.getLast? = some '\r' ∧ c = '\n' then lineFeeds s else lineFeeds s ++ [lineEnd c] := by
  fun_induction lineFeeds s with
  | case1 rest ih =>
    have hlast : ('\r' :: '\n' :: rest).getLast? = some '\r' ↔ rest.getLast? = some '\r' := by
      cases rest <;> simp
    rw [List.cons_append, List.cons_append, lineFeeds_pair, ih]
    simp only [hlast]
    split <;> rfl
  | case2 rest hrest ih =>
    cases rest with
    | nil =>
      by_cases hc : c = '\n'
      · subst hc
        rw [if_pos ⟨rfl, rfl⟩]
        exact lineFeeds_pair []
      · have hhead : [c].head? ≠ some '\n' := fun h => hc (Option.some.inj h)
        rw [if_neg fun h => hc h.2]
        exact (lineFeeds_return hhead).trans (congrArg ('\n' :: ·) ih)
    | cons d rest =>
      have hhead : (d :: (rest ++ [c])).head? ≠ some '\n' := fun h =>
        hrest rest (congrArg (· :: rest) (Option.some.inj h))
      have hlast : ('\r' :: d :: rest).getLast? = (d :: rest).getLast? := List.getLast?_cons_cons
      rw [hlast]
      show lineFeeds ('\r' :: d :: (rest ++ [c])) = _
      rw [lineFeeds_return hhead]
      show '\n' :: lineFeeds (d :: rest ++ [c]) = _
      rw [ih]
      split <;> rfl
  | case3 d rest _ hd ih =>
    have hlast : (d :: rest).getLast? = some '\r' ↔ rest.getLast? = some '\r' := by
      cases rest with
      | nil => exact iff_of_false (fun h => hd (Option.some.inj h)) (fun h => nomatch h)
      | cons e rest => rw [List.getLast?_cons_cons]
    rw [List.cons_append, lineFeeds_cons_of_ne hd, ih]
    simp only [hlast]
    split <;> rfl
  | case4 =>
    rw [List.nil_append, if_neg fun h => nomatch h.1]
    by_cases hc : c = '\r'
    · rw [hc]
      exact lineFeeds_return (fun h => nomatch h)
    · rw [lineFeeds_cons_of_ne hc, lineEnd_of_ne hc]
      exact congrArg (c :: ·) lineFeeds_nil

theorem lineFeeds_singleton (c : Char) : lineFeeds [c] = [lineEnd c] := by
  have hconcat := lineFeeds_concat [] c
  rw [if_neg fun h => nomatch h.1, lineFeeds_nil] at hconcat
  exact hconcat

section
variable {s : List Char}

theorem lineFeeds_eq_nil_iff : lineFeeds s = [] ↔ s = [] := by
  constructor
  · intro h
    fun_cases lineFeeds s with
    | case4 => rfl
    | _ => simp [lineFeeds] at h
  · rintro rfl
    exact lineFeeds_nil

theorem notMem_lineFeeds (s : List Char) : '\r' ∉ lineFeeds s := by
  fun_induction lineFeeds s with
  | case1 rest ih => exact List.not_mem_cons_of_ne_of_not_mem (by decide) ih
  | case2 rest _ ih => exact List.not_mem_cons_of_ne_of_not_mem (by decide) ih
  | case3 d rest _ hd ih => exact List.not_mem_cons_of_ne_of_not_mem (fun h => hd h.symm) ih
  | case4 => exact List.not_mem_nil

theorem lineFeed_mem_lineFeeds (h : '\r' ∈ s) : '\n' ∈ lineFeeds s := by
  fun_induction lineFeeds s with
  | case1 rest _ => exact List.mem_cons_self
  | case2 rest _ _ => exact List.mem_cons_self
  | case3 d rest _ hd ih =>
    rcases List.mem_cons.mp h with heq | hrest
    · exact absurd heq.symm hd
    · exact List.mem_cons_of_mem _ (ih hrest)
  | case4 => exact absurd h List.not_mem_nil

theorem lineFeeds_append (h : '\r' ∉ s) (rest : List Char) :
    lineFeeds (s ++ rest) = s ++ lineFeeds rest := by
  induction s with
  | nil => rfl
  | cons c s ih =>
    rw [List.mem_cons, not_or] at h
    rw [List.cons_append, lineFeeds_cons_of_ne (Ne.symm h.1), ih h.2]
    rfl

/-- **A text keeps its line ends if it has no carriage return.** -/
theorem lineFeeds_eq_self_iff : lineFeeds s = s ↔ '\r' ∉ s := by
  constructor
  · intro h
    rw [← h]
    exact notMem_lineFeeds s
  · intro h
    have happend := lineFeeds_append h []
    rw [lineFeeds_nil, List.append_nil] at happend
    exact happend

theorem all_isBlank_lineFeeds (s : List Char) : (lineFeeds s).all isBlank = s.all isBlank := by
  have hfeed : isBlank '\n' = true := by decide
  have hreturn : isBlank '\r' = true := by decide
  fun_induction lineFeeds s with
  | case1 rest ih => simp only [List.all_cons, ih, hfeed, hreturn, Bool.true_and]
  | case2 rest _ ih => simp only [List.all_cons, ih, hfeed, hreturn, Bool.true_and]
  | case3 d rest _ _ ih => simp only [List.all_cons, ih]
  | case4 => rfl

end

/-! ## strings -/

/-- a space for a blank character -/
def spaceFor (c : Char) : Char := if isBlank c then ' ' else c

def spaces (s : List Char) : List Char := s.map spaceFor

def normalText (s : String) : String := String.ofList (lineFeeds s.toList)

def normalValue (s : String) : String := String.ofList (spaces (lineFeeds s.toList))

theorem normalText_ofList (s : List Char) :
    normalText (String.ofList s) = String.ofList (lineFeeds s) := by
  rw [normalText, String.toList_ofList]

theorem normalValue_ofList (s : List Char) :
    normalValue (String.ofList s) = String.ofList (spaces (lineFeeds s)) := by
  rw [normalValue, String.toList_ofList]

theorem spaces_concat (s : List Char) (c : Char) :
    spaces (s ++ [c]) = spaces s ++ [spaceFor c] :=
  List.map_append

/-- the only blank characters that are left are spaces -/
theorem eq_space_of_mem_spaces {s : List Char} {c : Char} (h : c ∈ spaces s)
    (hc : isBlank c = true) : c = ' ' := by
  obtain ⟨d, _, rfl⟩ := List.mem_map.mp h
  by_cases hd : isBlank d = true
  · exact if_pos hd
  · rw [spaceFor, if_neg hd] at hc
    exact absurd hc hd

theorem spaces_eq_self {s : List Char} (h : ∀ c ∈ s, isBlank c = true → c = ' ') :
    spaces s = s := by
  have hself : ∀ c ∈ s, spaceFor c = id c := by
    intro c hc
    by_cases hblank : isBlank c = true
    · rw [spaceFor, if_pos hblank, h c hc hblank]
      rfl
    · exact if_neg hblank
  rw [spaces, List.map_congr_left hself, List.map_id]

theorem isBlank_iff {c : Char} :
    isBlank c = true ↔ c = ' ' ∨ c = '\n' ∨ c = '\t' ∨ c = '\r' := by
  simp only [isBlank, Bool.or_eq_true, decide_eq_true_iff, or_assoc]

theorem normalText_eq_self_iff {s : String} : normalText s = s ↔ '\r' ∉ s.toList := by
  rw [← lineFeeds_eq_self_iff, normalText, ← String.toList_inj, String.toList_ofList]

theorem normalValue_eq_self_iff {s : String} :
    normalValue s = s ↔ '\t' ∉ s.toList ∧ '\n' ∉ s.toList ∧ '\r' ∉ s.toList := by
  rw [normalValue, ← String.toList_inj, String.toList_ofList]
  constructor
  · intro h
    have hspace : ∀ c ∈ s.toList, isBlank c = true → c = ' ' := by
      rw [← h]
      exact fun c => eq_space_of_mem_spaces
    have hne : ∀ c, isBlank c = true → c ≠ ' ' → c ∉ s.toList := fun c hc hne hmem =>
      hne (hspace c hmem hc)
    exact ⟨hne '\t' (by decide) (by decide), hne '\n' (by decide) (by decide),
      hne '\r' (by decide) (by decide)⟩
  · rintro ⟨htab, hfeed, hreturn⟩
    rw [lineFeeds_eq_self_iff.mpr hreturn]
    refine spaces_eq_self fun c hc hblank => ?_
    obtain rfl | rfl | rfl | rfl := isBlank_iff.mp hblank
    · rfl
    · exact absurd hc hfeed
    · exact absurd hc htab
    · exact absurd hc hreturn

/-! ## trees -/

namespace Written

/-- the string as it is handed on -/
def normal : Written → Written
  | value s => value (normalValue s)
  | text s => text (normalText s)
  | comment s => comment (normalText s)

/-- the string has none of the characters that are changed where it stands -/
def Survives : Written → Prop
  | value s => '\t' ∉ s.toList ∧ '\n' ∉ s.toList ∧ '\r' ∉ s.toList
  | text s | comment s => '\r' ∉ s.toList

instance : DecidablePred Survives
  | value _ => inferInstanceAs (Decidable (_ ∧ _ ∧ _))
  | text _ | comment _ => inferInstanceAs (Decidable (_ ∉ _))

theorem normal_eq_self_iff (x : Written) : x.normal = x ↔ x.Survives := by
  cases x with
  | value s => exact (value.injEq _ _).to_iff.trans normalValue_eq_self_iff
  | text s => exact (text.injEq _ _).to_iff.trans normalText_eq_self_iff
  | comment s => exact (comment.injEq _ _).to_iff.trans normalText_eq_self_iff

/-- nothing is changed of a plain string -/
theorem survives_of_isPlain {x : Written} (h : IsPlain x.string) : x.Survives := by
  have hne : ∀ c, isPrintable c = false → c ∉ x.string.toList := fun c hc hmem => by
    rw [h c hmem] at hc
    exact Bool.noConfusion hc
  have hreturn := hne '\r' (by decide)
  cases x with
  | value s => exact ⟨hne '\t' (by decide), hne '\n' (by decide), hreturn⟩
  | text s => exact hreturn
  | comment s => exact hreturn

end Written

def normalAttr (a : Attr) : Attr := (a.1, normalValue a.2)

namespace Tree

mutual

/-- the tree with its strings as they are handed on -/
def normal : Tree → Tree
  | element name attrs content => .element name (attrs.map normalAttr) (allNormal content)
  | text s => .text (normalText s)
  | comment s => .comment (normalText s)

def allNormal : List Tree → List Tree
  | [] => []
  | t :: rest => t.normal :: allNormal rest

end

theorem allNormal_eq_map (trees : List Tree) : allNormal trees = trees.map normal := by
  induction trees with
  | nil => rfl
  | cons t rest ih => rw [allNormal, ih, List.map_cons]

theorem map_normalAttr_eq_self_iff {attrs : List Attr} :
    attrs.map normalAttr = attrs ↔ ∀ a ∈ attrs, (Written.value a.2).Survives := by
  induction attrs with
  | nil => exact iff_of_true rfl (List.forall_mem_nil _)
  | cons a rest ih =>
    have hattr : normalAttr a = a ↔ (Written.value a.2).Survives :=
      Iff.trans ⟨fun h => congrArg Prod.snd h, fun h => Prod.ext rfl h⟩ normalValue_eq_self_iff
    rw [List.map_cons, List.cons.injEq, hattr, ih, List.forall_mem_cons]

mutual

/-- the strings of a tree are handed on one by one -/
theorem written_normal : (t : Tree) → t.normal.written = t.written.map Written.normal
  | element name attrs content => by
    rw [normal, written, written, allWritten_allNormal content, List.map_append, List.map_map,
      List.map_map]
    rfl
  | text _ => rfl
  | comment _ => rfl

theorem allWritten_allNormal : (trees : List Tree) →
    allWritten (allNormal trees) = (allWritten trees).map Written.normal
  | [] => rfl
  | t :: rest => by
    rw [allNormal, allWritten, allWritten, written_normal t, allWritten_allNormal rest,
      List.map_append]

end

mutual

/-- **A tree is handed on as it is if and only if its strings survive.** -/
theorem normal_eq_self_iff : (t : Tree) → (t.normal = t ↔ ∀ x ∈ t.written, x.Survives)
  | element name attrs content => by
    rw [normal, forall_written_element, ← map_normalAttr_eq_self_iff,
      ← allNormal_eq_self_iff content, element.injEq]
    exact and_iff_right rfl
  | text s => by
    rw [normal, forall_written_text, text.injEq]
    exact normalText_eq_self_iff
  | comment s => by
    rw [normal, forall_written_comment, comment.injEq]
    exact normalText_eq_self_iff

theorem allNormal_eq_self_iff : (trees : List Tree) →
    (allNormal trees = trees ↔ ∀ t ∈ trees, ∀ x ∈ t.written, x.Survives)
  | [] => iff_of_true rfl (List.forall_mem_nil _)
  | t :: rest => by
    rw [allNormal, List.cons.injEq, normal_eq_self_iff t, allNormal_eq_self_iff rest,
      List.forall_mem_cons]

end

/-- nothing is changed of a tree that holds nothing but plain strings -/
theorem IsPlain.normal_eq {t : Tree} (h : t.IsPlain) : t.normal = t :=
  t.normal_eq_self_iff.mpr fun x hx => Written.survives_of_isPlain (h x hx)

end Tree

end Toolflow.Xml
