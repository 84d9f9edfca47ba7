import Mathlib.Data.Fintype.EquivFin
import Mathlib.Data.List.Forall2
import Mathlib.Data.List.Nodup
import Mathlib.Data.List.Perm.Basic

/-!
# Entries that carry a number

Tools, links and notices are known by the number of the element that they were found at.

* `numbered f l`     what a pass finds in `l`, each with the number of its element;
* `Moved σ a b`      `b` holds the elements of `a`, and the one at the index `i` of `a` stands at
                     the index `σ i` of `b`;
* `Renumbered σ a b`   `b` holds the entries of `a` under the numbers that `σ` gives them, sorted
                     by these.

A pass that looks at the elements alone finds in a moved list what it found before, under the new
numbers (`Moved.renumbered`).
-/

namespace Toolflow

section
variable {α β γ : Type}

/-! ## passes -/

/-- the entries that are found, each with the number of its element -/
def numbered (f : α → Option β) (l : List α) : List (Nat × β) :=
  l.zipIdx.filterMap fun x => (f x.1).map (x.2, ·)

theorem mem_numbered {f : α → Option β} {l : List α} {i : Nat} {b : β} :
    (i, b) ∈ numbered f l ↔ ∃ a, l[i]? = some a ∧ f a = some b := by
  unfold numbered
  rw [List.mem_filterMap]
  constructor
  · rintro ⟨⟨a, j⟩, hmem, hfound⟩
    obtain ⟨c, hc, heq⟩ := Option.map_eq_some_iff.mp hfound
    obtain ⟨rfl, rfl⟩ := Prod.mk.inj heq
    exact ⟨a, List.mk_mem_zipIdx_iff_getElem?.mp hmem, hc⟩
  · rintro ⟨a, ha, hb⟩
    refine ⟨(a, i), List.mk_mem_zipIdx_iff_getElem?.mpr ha, ?_⟩
    show (f a).map (i, ·) = _
    rw [hb]
    rfl

theorem pairwise_zipIdx (l : List α) : l.zipIdx.Pairwise fun x y => x.2 < y.2 := by
  have hsnd : (l.zipIdx.map Prod.snd).Pairwise (· < ·) := by
    rw [List.zipIdx_map_snd]
    exact List.pairwise_lt_range'
  exact List.pairwise_map.mp hsnd

theorem pairwise_numbered (f : α → Option β) (l : List α) :
    (numbered f l).Pairwise fun x y => x.1 < y.1 := by
  refine (pairwise_zipIdx l).filterMap _ ?_
  intro x y hxy b hb c hc
  obtain ⟨_, _, rfl⟩ := Option.map_eq_some_iff.mp hb
  obtain ⟨_, _, rfl⟩ := Option.map_eq_some_iff.mp hc
  exact hxy

theorem map_snd_numbered (f : α → Option β) (l : List α) :
    (numbered f l).map Prod.snd = l.filterMap f := by
  unfold numbered
  rw [List.map_filterMap]
  conv_rhs => rw [← List.zipIdx_map_fst 0 l]
  rw [List.filterMap_map]
  refine congrArg (List.filterMap · l.zipIdx) (funext fun x => ?_)
  show ((f x.1).map (x.2, ·)).map Prod.snd = f x.1
  rw [Option.map_map]
  exact Option.map_id'

/-- a pass whose entries are made from what is found and its number -/
theorem filterMap_zipIdx (f : α → Option β) (g : Nat → β → γ) (l : List α) :
    l.zipIdx.filterMap (fun x => (f x.1).map (g x.2))
      = (numbered f l).map fun x => g x.1 x.2 := by
  unfold numbered
  rw [List.map_filterMap]
  refine congrArg (List.filterMap · l.zipIdx) (funext fun x => ?_)
  rw [Option.map_map]
  rfl

theorem filter_zipIdx (l : List α) (start i : Nat) :
    (l.zipIdx start).filter (fun x => x.2 = start + i)
      = (l[i]?.map fun a => (a, start + i)).toList := by
  induction l generalizing start i with
  | nil => rfl
  | cons a rest ih =>
    rw [List.zipIdx_cons]
    cases i with
    | zero =>
      have hrest : (rest.zipIdx (start + 1)).filter (fun x => x.2 = start + 0) = [] := by
        refine List.filter_eq_nil_iff.mpr fun x hx => ?_
        have hle := (List.mem_zipIdx hx).1
        rw [decide_eq_true_iff]
        omega
      rw [List.filter_cons, if_pos (decide_eq_true (Nat.add_zero start).symm), hrest]
      rfl
    | succ i =>
      have hne : ¬ decide (start = start + (i + 1)) = true := by
        rw [decide_eq_true_iff]
        omega
      rw [List.filter_cons, if_neg hne, show start + (i + 1) = start + 1 + i by omega, ih]
      rfl

/-- of each number there is the entry of its element, if there is one -/
theorem filter_numbered (f : α → Option β) (l : List α) (i : Nat) :
    (numbered f l).filter (fun x => x.1 = i) = ((l[i]?.bind f).map (i, ·)).toList := by
  have hpass : (numbered f l).filter (fun x => x.1 = i)
      = (l.zipIdx.filter fun x => x.2 = 0 + i).filterMap fun x => (f x.1).map (x.2, ·) := by
    unfold numbered
    rw [List.filter_filterMap, List.filterMap_filter]
    refine congrArg (List.filterMap · l.zipIdx) (funext fun x => ?_)
    rw [Nat.zero_add]
    by_cases hx : x.2 = i
    · cases f x.1 <;> simp [hx]
    · cases f x.1 <;> simp [hx]
  rw [hpass, filter_zipIdx, Nat.zero_add]
  cases l[i]? with
  | none => rfl
  | some a => cases h : f a <;> simp [h]

/-- with another element at the index `i`, a pass finds the same before and behind it -/
theorem exists_numbered_set (f : α → Option β) {l : List α} {i : Nat} (hi : i < l.length) :
    ∃ before behind, ∀ a, numbered f (l.set i a)
      = before ++ ((f a).map (i, ·)).toList ++ behind := by
  refine ⟨numbered f (l.take i), ((l.drop (i + 1)).zipIdx (i + 1)).filterMap
    fun x => (f x.1).map (x.2, ·), fun a => ?_⟩
  have htake : (l.take i).length = i := List.length_take_of_le (Nat.le_of_lt hi)
  rw [numbered, List.set_eq_take_append_cons_drop, if_pos hi, List.zipIdx_append,
    List.filterMap_append, List.zipIdx_cons, htake, Nat.zero_add, List.filterMap_cons, numbered,
    List.append_assoc]
  cases f a <;> rfl

/-! ## moved lists -/

/-- the element at each index `i` of `a` stands at the index `σ i` of `b`, and `b` has no more -/
structure Moved (σ : Nat → Nat) (a b : List α) : Prop where
  length_eq : b.length = a.length
  injective : ∀ i j, i < a.length → j < a.length → σ i = σ j → i = j
  getElem?_eq : ∀ i, i < a.length → b[σ i]? = a[i]?

namespace Moved

variable {σ : Nat → Nat} {a b : List α}

theorem lt_length (h : Moved σ a b) {i : Nat} (hi : i < a.length) : σ i < a.length := by
  have hget := h.getElem?_eq i hi
  rw [List.getElem?_eq_getElem hi] at hget
  rw [← h.length_eq]
  exact (List.getElem?_eq_some_iff.mp hget).1

theorem getElem?_of_some (h : Moved σ a b) {i : Nat} {x : α} (hx : a[i]? = some x) :
    b[σ i]? = some x := by
  rw [h.getElem?_eq i (List.getElem?_eq_some_iff.mp hx).1, hx]

/-- every index of `b` is the new one of some index of `a` -/
theorem exists_eq (h : Moved σ a b) {j : Nat} (hj : j < a.length) :
    ∃ i, i < a.length ∧ σ i = j := by
  have hinj : Function.Injective fun i : Fin a.length => (⟨σ i, h.lt_length i.2⟩ : Fin a.length) :=
    fun i k hik => Fin.ext (h.injective i k i.2 k.2 (Fin.mk.inj hik))
  obtain ⟨i, hi⟩ := Finite.surjective_of_injective hinj ⟨j, hj⟩
  exact ⟨i, i.2, Fin.mk.inj hi⟩

theorem exists_getElem? (h : Moved σ a b) {j : Nat} {x : α} (hx : b[j]? = some x) :
    ∃ i, σ i = j ∧ a[i]? = some x := by
  have hj : j < a.length := by
    rw [← h.length_eq]
    exact (List.getElem?_eq_some_iff.mp hx).1
  obtain ⟨i, hi, rfl⟩ := h.exists_eq hj
  exact ⟨i, rfl, by rw [← h.getElem?_eq i hi, hx]⟩

theorem mem_iff (h : Moved σ a b) {x : α} : x ∈ b ↔ x ∈ a := by
  rw [List.mem_iff_getElem?, List.mem_iff_getElem?]
  constructor
  · rintro ⟨j, hj⟩
    obtain ⟨i, _, hi⟩ := h.exists_getElem? hj
    exact ⟨i, hi⟩
  · rintro ⟨i, hi⟩
    exact ⟨σ i, h.getElem?_of_some hi⟩

theorem zipIdx_perm (h : Moved σ a b) :
    b.zipIdx.Perm (a.zipIdx.map fun x => (x.1, σ x.2)) := by
  have hnodup : ∀ l : List α, l.zipIdx.Nodup := fun l =>
    (pairwise_zipIdx l).imp fun hlt heq => Nat.ne_of_lt hlt (congrArg Prod.snd heq)
  have hmap : (a.zipIdx.map fun x => (x.1, σ x.2)).Nodup := by
    refine (hnodup a).map_on ?_
    rintro ⟨x, i⟩ hx ⟨y, j⟩ hy heq
    obtain ⟨rfl, hij⟩ := Prod.mk.inj heq
    have hi := (List.getElem?_eq_some_iff.mp (List.mk_mem_zipIdx_iff_getElem?.mp hx)).1
    have hj := (List.getElem?_eq_some_iff.mp (List.mk_mem_zipIdx_iff_getElem?.mp hy)).1
    rw [h.injective i j hi hj hij]
  rw [List.perm_ext_iff_of_nodup (hnodup b) hmap]
  rintro ⟨x, j⟩
  rw [List.mk_mem_zipIdx_iff_getElem?, List.mem_map]
  constructor
  · intro hx
    obtain ⟨i, rfl, hi⟩ := h.exists_getElem? hx
    exact ⟨(x, i), List.mk_mem_zipIdx_iff_getElem?.mpr hi, rfl⟩
  · rintro ⟨⟨y, i⟩, hy, heq⟩
    obtain ⟨rfl, rfl⟩ := Prod.mk.inj heq
    exact h.getElem?_of_some (List.mk_mem_zipIdx_iff_getElem?.mp hy)

theorem perm (h : Moved σ a b) : b.Perm a := by
  have hperm := h.zipIdx_perm.map Prod.fst
  rw [List.zipIdx_map_fst, List.map_map] at hperm
  rw [← List.zipIdx_map_fst 0 a]
  exact hperm

/-- a list of the same length can be moved along -/
theorem exists_moved (h : Moved σ a b) {c : List β} (hlen : c.length = a.length) :
    ∃ d, Moved σ c d := by
  choose τ hlt hσ using fun j : Fin a.length => h.exists_eq j.2
  have hτ : ∀ j, τ j < c.length := fun j => hlen ▸ hlt j
  refine ⟨List.ofFn fun j => c.get ⟨τ j, hτ j⟩, ?_, ?_, fun i hi => ?_⟩
  · rw [List.length_ofFn, hlen]
  · rw [hlen]
    exact h.injective
  · have hi' : i < a.length := hlen ▸ hi
    have heq : τ ⟨σ i, h.lt_length hi'⟩ = i := h.injective _ _ (hlt _) hi' (hσ _)
    rw [List.getElem?_ofFn, dif_pos (h.lt_length hi'), List.getElem?_eq_getElem hi,
      Option.some.injEq, List.get_eq_getElem]
    simp only [heq]

/-- what belongs together still does when both lists are moved -/
theorem forall₂ (h : Moved σ a b) {R : α → β → Prop} {c d : List β} (hR : List.Forall₂ R a c)
    (hcd : Moved σ c d) : List.Forall₂ R b d := by
  rw [List.forall₂_iff_get]
  refine ⟨by rw [h.length_eq, hcd.length_eq, hR.length_eq], fun j hb hd => ?_⟩
  obtain ⟨i, rfl, hi⟩ := h.exists_getElem? (List.getElem?_eq_getElem hb)
  obtain ⟨hlt, hx⟩ := List.getElem?_eq_some_iff.mp hi
  have hlt' : i < c.length := hR.length_eq ▸ hlt
  have hy := hcd.getElem?_of_some (List.getElem?_eq_getElem hlt')
  rw [List.getElem?_eq_getElem hd, Option.some.injEq] at hy
  rw [List.get_eq_getElem, List.get_eq_getElem, ← hx, hy]
  exact hR.get hlt hlt'

end Moved

/-- the index of an element after the first `n` elements and the `m` behind them changed places -/
def exchange (n m i : Nat) : Nat := if i < n then i + m else i - n

theorem moved_append_comm (a b : List α) :
    Moved (exchange a.length b.length) (a ++ b) (b ++ a) := by
  unfold exchange
  refine ⟨by rw [List.length_append, List.length_append, Nat.add_comm], fun i j hi hj hij => ?_,
    fun i hi => ?_⟩
  · rw [List.length_append] at hi hj
    split at hij <;> split at hij <;> omega
  · split
    · next hlt =>
      rw [List.getElem?_append_right (Nat.le_add_left _ _), List.getElem?_append_left hlt,
        Nat.add_sub_cancel]
    · next hle =>
      rw [List.length_append] at hi
      rw [List.getElem?_append_left (by omega), List.getElem?_append_right (by omega)]

/-! ## renumbered entries -/

/-- the entries of `a` under new numbers; both lists are sorted by their numbers -/
structure Renumbered (σ : Nat → Nat) (a b : List (Nat × β)) : Prop where
  ascending_before : a.Pairwise fun x y => x.1 < y.1
  ascending_after : b.Pairwise fun x y => x.1 < y.1
  perm : b.Perm (a.map fun x => (σ x.1, x.2))

theorem Moved.renumbered {σ : Nat → Nat} {a b : List α} (h : Moved σ a b) (f : α → Option β) :
    Renumbered σ (numbered f a) (numbered f b) := by
  refine ⟨pairwise_numbered f a, pairwise_numbered f b, ?_⟩
  have hperm := h.zipIdx_perm.filterMap fun x => (f x.1).map (x.2, ·)
  rw [List.filterMap_map] at hperm
  have hnumbers : (numbered f a).map (fun x => (σ x.1, x.2))
      = a.zipIdx.filterMap ((fun x => (f x.1).map (x.2, ·)) ∘ fun x => (x.1, σ x.2)) := by
    unfold numbered
    rw [List.map_filterMap]
    refine congrArg (List.filterMap · a.zipIdx) (funext fun x => ?_)
    rw [Option.map_map]
    rfl
  rw [hnumbers]
  exact hperm

end

end Toolflow
