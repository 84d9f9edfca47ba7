import Mathlib.Data.List.Forall2

/-!
# Lists with one entry for each of some numbers

Notices, wires and arcs are found in one pass over a numbered list: the pass looks at an element
and its number, and either gives one entry or none.

* `hits f l`     the numbers of the elements of `l` for which `f` gives an entry;
* `OneEach P R l`  `l` has one entry for each number with `P`, in the order of the numbers, and `R`
                 says which entry belongs to which number.

`oneEach_filterMap` says that such a pass is such a list, and `forall₂_hits`, `zipWith_hits` that
two passes which find something at the same places go hand in hand.
-/

namespace Toolflow

section
variable {α β γ : Type}

/-- the numbers of the elements for which there is an entry -/
def hits (f : Nat → α → Option β) (l : List α) : List Nat :=
  (l.zipIdx.filter fun x => (f x.2 x.1).isSome).map Prod.snd

theorem mem_hits {f : Nat → α → Option β} {l : List α} {i : Nat} :
    i ∈ hits f l ↔ ∃ a, l[i]? = some a ∧ (f i a).isSome := by
  unfold hits
  constructor
  · intro h
    obtain ⟨⟨a, j⟩, hx, rfl⟩ := List.mem_map.mp h
    obtain ⟨hmem, hsome⟩ := List.mem_filter.mp hx
    exact ⟨a, List.mk_mem_zipIdx_iff_getElem?.mp hmem, hsome⟩
  · rintro ⟨a, ha, hsome⟩
    exact List.mem_map.mpr
      ⟨(a, i), List.mem_filter.mpr ⟨List.mk_mem_zipIdx_iff_getElem?.mpr ha, hsome⟩, rfl⟩

theorem pairwise_hits (f : Nat → α → Option β) (l : List α) : (hits f l).Pairwise (· < ·) := by
  have hsub : (hits f l).Sublist (l.zipIdx.map Prod.snd) := List.filter_sublist.map _
  rw [List.zipIdx_map_snd] at hsub
  exact List.Pairwise.sublist hsub List.pairwise_lt_range'

/-- a pass keeps what it finds, in order -/
theorem forall₂_filterMap (g : γ → Option β) (xs : List γ) :
    List.Forall₂ (fun x b => x ∈ xs ∧ g x = some b) (xs.filter fun x => (g x).isSome)
      (xs.filterMap g) := by
  induction xs with
  | nil => exact .nil
  | cons x xs ih =>
    have ih' := ih.imp (S := fun y b => y ∈ x :: xs ∧ g y = some b)
      (fun y b h => ⟨List.mem_cons_of_mem _ h.1, h.2⟩)
    cases hx : g x with
    | none => simpa [hx] using ih'
    | some b =>
      rw [List.filter_cons_of_pos (by simp [hx]), List.filterMap_cons_some hx]
      exact .cons ⟨List.mem_cons_self, hx⟩ ih'

theorem forall₂_hits (f : Nat → α → Option β) (l : List α) :
    List.Forall₂ (fun i b => ∃ a, l[i]? = some a ∧ f i a = some b) (hits f l)
      (l.zipIdx.filterMap fun x => f x.2 x.1) := by
  unfold hits
  rw [List.forall₂_map_left_iff]
  refine (forall₂_filterMap (fun x : α × Nat => f x.2 x.1) l.zipIdx).imp ?_
  rintro ⟨a, i⟩ b ⟨hmem, hf⟩
  exact ⟨a, List.mk_mem_zipIdx_iff_getElem?.mp hmem, hf⟩

theorem exists_getElem?_of_forall₂ {R : α → β → Prop} {a : List α} {b : List β}
    (h : List.Forall₂ R a b) {i : Nat} {x : α} (hx : a[i]? = some x) :
    ∃ y, b[i]? = some y ∧ R x y := by
  obtain ⟨hlt, rfl⟩ := List.getElem?_eq_some_iff.mp hx
  have hlt' : i < b.length := h.length_eq ▸ hlt
  exact ⟨b[i], List.getElem?_eq_getElem hlt', h.get hlt hlt'⟩

/-- what belongs together still does when an entry of each list is replaced -/
theorem forall₂_set {R : α → β → Prop} {a : List α} {b : List β} {x : α} {y : β}
    (h : List.Forall₂ R a b) (hxy : R x y) (i : Nat) :
    List.Forall₂ R (a.set i x) (b.set i y) := by
  induction h generalizing i with
  | nil => exact .nil
  | cons hhead htail ih =>
    cases i with
    | zero => exact .cons hxy htail
    | succ i => exact .cons hhead (ih i)

/-- what belongs together still does when an entry of each list is taken out -/
theorem forall₂_eraseIdx {R : α → β → Prop} {a : List α} {b : List β} (h : List.Forall₂ R a b)
    (i : Nat) : List.Forall₂ R (a.eraseIdx i) (b.eraseIdx i) := by
  induction h generalizing i with
  | nil => exact .nil
  | cons hhead htail ih =>
    cases i with
    | zero => exact htail
    | succ i => exact .cons hhead (ih i)

/-- an entry for which a pass has nothing can be taken out -/
theorem filterMap_eraseIdx {f : α → Option β} {l : List α} {i : Nat} {x : α} (hx : l[i]? = some x)
    (hf : f x = none) : (l.eraseIdx i).filterMap f = l.filterMap f := by
  induction l generalizing i with
  | nil => rfl
  | cons y rest ih =>
    cases i with
    | zero =>
      obtain rfl : y = x := Option.some.inj hx
      rw [List.filterMap_cons_none hf]
      rfl
    | succ i =>
      have hrest := ih (i := i) hx
      rw [List.eraseIdx_cons_succ, List.filterMap_cons, List.filterMap_cons, hrest]

theorem map_eq_of_forall₂ {R : α → β → Prop} {f : α → γ} {g : β → γ}
    (hR : ∀ x y, R x y → f x = g y) {a : List α} {b : List β} (h : List.Forall₂ R a b) :
    a.map f = b.map g := by
  induction h with
  | nil => rfl
  | cons hxy _ ih => rw [List.map_cons, List.map_cons, hR _ _ hxy, ih]

theorem filterMap_eq_of_forall₂ {R : α → β → Prop} {f : α → Option γ} {g : β → Option γ}
    (hR : ∀ x y, R x y → f x = g y) {a : List α} {b : List β} (h : List.Forall₂ R a b) :
    a.filterMap f = b.filterMap g := by
  induction h with
  | nil => rfl
  | cons hxy _ ih => rw [List.filterMap_cons, List.filterMap_cons, hR _ _ hxy, ih]

/-- where every entry has one that it belongs to, there is a list of these -/
theorem exists_forall₂ {R : α → β → Prop} {a : List α} (h : ∀ x ∈ a, ∃ y, R x y) :
    ∃ b, List.Forall₂ R a b := by
  induction a with
  | nil => exact ⟨[], .nil⟩
  | cons x rest ih =>
    obtain ⟨y, hxy⟩ := h x List.mem_cons_self
    obtain ⟨b, hb⟩ := ih fun z hz => h z (List.mem_cons_of_mem x hz)
    exact ⟨y :: b, .cons hxy hb⟩

/-! ## two passes over one list -/

/-- where a second pass has an entry for each one of the first, it has these, in order -/
theorem sublistForall₂_filterMap {δ : Type} {R : γ → δ → Prop} {f : α → Option γ}
    {g : α → Option δ} (h : ∀ x c, f x = some c → ∃ d, g x = some d ∧ R c d) (l : List α) :
    List.SublistForall₂ R (l.filterMap f) (l.filterMap g) := by
  induction l with
  | nil => exact .nil
  | cons x rest ih =>
    cases hf : f x with
    | none =>
      rw [List.filterMap_cons_none hf]
      cases hg : g x with
      | none =>
        rw [List.filterMap_cons_none hg]
        exact ih
      | some d =>
        rw [List.filterMap_cons_some hg]
        exact .cons_right ih
    | some c =>
      obtain ⟨d, hd, hcd⟩ := h x c hf
      rw [List.filterMap_cons_some hf, List.filterMap_cons_some hd]
      exact .cons hcd ih

theorem sublist_filterMap {f g : α → Option β} (h : ∀ x b, f x = some b → g x = some b)
    (l : List α) : (l.filterMap f).Sublist (l.filterMap g) := by
  have hpasses : List.SublistForall₂ Eq (l.filterMap f) (l.filterMap g) :=
    sublistForall₂_filterMap (fun x b hb => ⟨b, h x b hb, rfl⟩) l
  obtain ⟨kept, heq, hsub⟩ := List.sublistForall₂_iff.mp hpasses
  rw [List.forall₂_eq_eq_eq] at heq
  rw [heq]
  exact hsub

/-- a pass over a longer list begins with the entries that it had -/
theorem prefix_filterMap_zipIdx {f g : α × Nat → Option β} {a : List α}
    (h : ∀ x ∈ a.zipIdx, f x = g x) (b : List α) :
    a.zipIdx.filterMap f <+: (a ++ b).zipIdx.filterMap g := by
  rw [List.zipIdx_append, List.filterMap_append, List.filterMap_congr h]
  exact List.prefix_append _ _

/-- what a second pass makes of the entries of the first and their numbers -/
theorem zipWith_hits (f : Nat → α → Option β) (h : Nat → β → γ) (l : List α) :
    l.zipIdx.filterMap (fun x => (f x.2 x.1).map (h x.2))
      = List.zipWith h (hits f l) (l.zipIdx.filterMap fun x => f x.2 x.1) := by
  unfold hits
  induction l.zipIdx with
  | nil => rfl
  | cons x xs ih =>
    cases hx : f x.2 x.1 with
    | none => simpa [hx] using ih
    | some b => simpa [hx] using ih

/-- one entry for each number with `P`, in ascending order -/
def OneEach (P : Nat → Prop) (R : Nat → β → Prop) (l : List β) : Prop :=
  ∃ is : List Nat, is.Pairwise (· < ·) ∧ (∀ i, i ∈ is ↔ P i) ∧ List.Forall₂ R is l

theorem oneEach_filterMap (f : Nat → α → Option β) (l : List α) :
    OneEach (fun i => ∃ a, l[i]? = some a ∧ (f i a).isSome)
      (fun i b => ∃ a, l[i]? = some a ∧ f i a = some b) (l.zipIdx.filterMap fun x => f x.2 x.1) :=
  ⟨hits f l, pairwise_hits f l, fun _ => mem_hits, forall₂_hits f l⟩

theorem OneEach.imp {P Q : Nat → Prop} {R S : Nat → β → Prop} {l : List β} (h : OneEach P R l)
    (hP : ∀ i, P i ↔ Q i) (hR : ∀ i b, R i b → S i b) : OneEach Q S l := by
  obtain ⟨is, hlt, hmem, hall⟩ := h
  exact ⟨is, hlt, fun i => (hmem i).trans (hP i), hall.imp hR⟩

theorem OneEach.exists_of_mem {P : Nat → Prop} {R : Nat → β → Prop} {l : List β}
    (h : OneEach P R l) {b : β} (hb : b ∈ l) : ∃ i, R i b := by
  obtain ⟨is, _, _, hall⟩ := h
  obtain ⟨k, hk⟩ := List.mem_iff_getElem?.mp hb
  have hlt : k < is.length := by
    rw [hall.length_eq]
    exact (List.getElem?_eq_some_iff.mp hk).1
  refine ⟨is[k], ?_⟩
  obtain ⟨hlt', rfl⟩ := List.getElem?_eq_some_iff.mp hk
  exact hall.get hlt hlt'

theorem OneEach.eq_nil_iff {P : Nat → Prop} {R : Nat → β → Prop} {l : List β}
    (h : OneEach P R l) : l = [] ↔ ∀ i, ¬ P i := by
  obtain ⟨is, _, hmem, hall⟩ := h
  constructor
  · rintro rfl i hi
    have hnil : is = [] := List.forall₂_nil_right_iff.mp hall
    have hi' : i ∈ is := (hmem i).mpr hi
    rw [hnil] at hi'
    exact List.not_mem_nil hi'
  · intro hnone
    have hnil : is = [] := List.eq_nil_iff_forall_not_mem.mpr fun i hi => hnone i ((hmem i).mp hi)
    rw [hnil] at hall
    exact List.forall₂_nil_left_iff.mp hall

end

end Toolflow
