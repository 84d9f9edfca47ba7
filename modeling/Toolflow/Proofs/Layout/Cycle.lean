import Mathlib.Data.Fintype.Card
import Mathlib.Data.Fintype.EquivFin
import Mathlib.Data.Fintype.Sets
import Mathlib.Data.List.Chain
import Mathlib.Logic.Relation
import Mathlib.Order.WellFounded
import Toolflow.Layout.Cycle
import Toolflow.Proofs.Layout.Accounting

/-!
# Pruning finds exactly the cycles

`Arc.cyclic` drops, round after round, the arcs that no arc leads to.

* `Arc.Precedes arcs a b`   both are arcs of the list, and `b` begins where `a` ends;
* `Arc.cyclic_iff`          something is left exactly if some arc leads back to itself;
* `Circuit nodes links c`   the links `c` go from node to node and end where they began;
* `Layout.cyclic_ofNodes_iff`   on the layout of the nodes, pruning finds exactly the circuits.

Nothing that lies on a cycle is ever dropped, because the arc before it on the cycle stays too
(`Arc.transGen_prune`).  And after as many rounds as there are arcs a further round drops nothing
(`Arc.prune_core`); then every arc has one before it, and a finite list has no room for that
without a cycle.
-/

namespace Toolflow

open Relation (TransGen)

namespace Arc

/-- both are arcs of the list, and the second begins where the first ends -/
def Precedes (arcs : List Arc) (a b : Arc) : Prop := a ∈ arcs ∧ b ∈ arcs ∧ a.head = b.tail

theorem Precedes.mono {small large : List Arc} (h : small ⊆ large) {a b : Arc}
    (hab : Precedes small a b) : Precedes large a b :=
  ⟨h hab.1, h hab.2.1, hab.2.2⟩

/-! ## what pruning keeps -/

theorem mem_prune_of_transGen {arcs : List Arc} {a b : Arc} (h : TransGen (Precedes arcs) a b) :
    b ∈ prune arcs := by
  cases h with
  | single hab => exact mem_prune.mpr ⟨hab.2.1, a, hab.1, hab.2.2⟩
  | tail _ hcb => exact mem_prune.mpr ⟨hcb.2.1, _, hcb.1, hcb.2.2⟩

theorem transGen_prune {arcs : List Arc} {a b : Arc} (hcycle : TransGen (Precedes arcs) a a)
    (h : TransGen (Precedes arcs) a b) : TransGen (Precedes (prune arcs)) a b := by
  induction h with
  | single hab =>
    exact .single ⟨mem_prune_of_transGen hcycle, mem_prune_of_transGen (.single hab), hab.2.2⟩
  | tail hab hbc ih =>
    exact ih.tail ⟨mem_prune_of_transGen hab, mem_prune_of_transGen (hab.tail hbc), hbc.2.2⟩

theorem transGen_pruneTimes (n : Nat) {arcs : List Arc} {a : Arc}
    (h : TransGen (Precedes arcs) a a) : TransGen (Precedes (pruneTimes n arcs)) a a := by
  induction n generalizing arcs with
  | zero => exact h
  | succ n ih => exact ih (transGen_prune h h)

/-! ## what is left has no beginning -/

theorem pruneTimes_of_fixed {arcs : List Arc} (h : prune arcs = arcs) (n : Nat) :
    pruneTimes n arcs = arcs := by
  induction n with
  | zero => rfl
  | succ n ih =>
    show pruneTimes n (prune arcs) = arcs
    rw [h, ih]

theorem prune_eq_self_or_lt (arcs : List Arc) :
    prune arcs = arcs ∨ (prune arcs).length < arcs.length := by
  rcases Nat.lt_or_eq_of_le (length_prune_le arcs) with hlt | heq
  · exact .inr hlt
  · exact .inl (List.filter_sublist.eq_of_length heq)

/-- enough rounds leave nothing more to drop -/
theorem prune_pruneTimes {n : Nat} {arcs : List Arc} (h : arcs.length ≤ n) :
    prune (pruneTimes n arcs) = pruneTimes n arcs := by
  induction n generalizing arcs with
  | zero =>
    have hnil : arcs = [] := List.eq_nil_of_length_eq_zero (Nat.le_zero.mp h)
    rw [hnil]
    rfl
  | succ n ih =>
    rcases prune_eq_self_or_lt arcs with hfix | hlt
    · rw [pruneTimes_of_fixed hfix, hfix]
    · exact ih (by omega)

theorem prune_core (arcs : List Arc) : prune (core arcs) = core arcs :=
  prune_pruneTimes (Nat.le_refl _)

theorem pruneTimes_subset (n : Nat) (arcs : List Arc) : pruneTimes n arcs ⊆ arcs := by
  induction n generalizing arcs with
  | zero => exact List.Subset.refl _
  | succ n ih => exact fun a ha => (mem_prune.mp (ih (prune arcs) ha)).1

/-- a list in which every arc has one before it, and which is not empty, has a cycle -/
theorem exists_transGen_of_prune_eq {arcs : List Arc} (hne : arcs ≠ [])
    (hfix : prune arcs = arcs) : ∃ a, TransGen (Precedes arcs) a a := by
  by_contra hnone
  let r : {a // a ∈ arcs} → {a // a ∈ arcs} → Prop := fun a b => TransGen (Precedes arcs) a b
  have : Std.Irrefl r := ⟨fun a ha => hnone ⟨a, ha⟩⟩
  have : IsTrans _ r := ⟨fun _ _ _ hab hbc => TransGen.trans hab hbc⟩
  have hwf : WellFounded r := Finite.wellFounded_of_trans_of_irrefl r
  obtain ⟨a₀, ha₀⟩ := List.exists_mem_of_ne_nil arcs hne
  obtain ⟨a, _, hmin⟩ := hwf.has_min Set.univ ⟨⟨a₀, ha₀⟩, trivial⟩
  -- the arc before a first one would come before it
  have ha : a.1 ∈ prune arcs := hfix.symm ▸ a.2
  obtain ⟨_, b, hb, hab⟩ := mem_prune.mp ha
  exact hmin ⟨b, hb⟩ trivial (.single ⟨hb, a.2, hab⟩)

/-- **Pruning leaves something exactly if some arc leads back to itself.** -/
theorem cyclic_iff {arcs : List Arc} :
    cyclic arcs = true ↔ ∃ a, TransGen (Precedes arcs) a a := by
  have hcyclic : cyclic arcs = true ↔ core arcs ≠ [] := by
    unfold cyclic
    rw [Bool.not_eq_true', List.isEmpty_eq_false_iff]
  rw [hcyclic]
  constructor
  · intro hne
    obtain ⟨a, ha⟩ := exists_transGen_of_prune_eq hne (prune_core arcs)
    exact ⟨a, TransGen.mono (fun _ _ => Precedes.mono (pruneTimes_subset _ _)) _ _ ha⟩
  · rintro ⟨a, ha⟩ hnil
    have hmem := mem_prune_of_transGen (transGen_pruneTimes arcs.length ha)
    rw [show pruneTimes arcs.length arcs = [] from hnil] at hmem
    exact List.not_mem_nil hmem

end Arc

/-! ## circuits of links -/

/-- a link of the list whose ends are nodes -/
def Usable (nodes : List Node) (links : List Link) (l : Link) : Prop :=
  l ∈ links ∧ Named nodes l.source ∧ Named nodes l.target

/-- links between nodes, each of which ends where the next one begins, the last where the first
one begins -/
structure Circuit (nodes : List Node) (links : List Link) (c : List Link) : Prop where
  ne_nil : c ≠ []
  usable : ∀ l ∈ c, Usable nodes links l
  chain : c.IsChain fun a b => a.target = b.source
  closes : (c.getLast ne_nil).target = (c.head ne_nil).source

section
variable {nodes : List Node} {links : List Link}

/-- two usable links, of which the second begins where the first ends -/
def Leads (nodes : List Node) (links : List Link) (a b : Link) : Prop :=
  Usable nodes links a ∧ Usable nodes links b ∧ a.target = b.source

theorem exists_chain_of_transGen {a b : Link} (h : TransGen (Leads nodes links) a b) :
    ∃ rest, (a :: rest).IsChain (fun x y => x.target = y.source) ∧
      (∀ l ∈ a :: rest, Usable nodes links l) ∧
      ((a :: rest).getLast (List.cons_ne_nil _ _)).target = b.source := by
  induction h with
  | single hab =>
    refine ⟨[], List.isChain_singleton a, fun l hl => ?_, hab.2.2⟩
    rw [List.mem_singleton.mp hl]
    exact hab.1
  | @tail b c _ hbc ih =>
    obtain ⟨rest, hchain, husable, hlast⟩ := ih
    refine ⟨rest ++ [b], ?_, fun l hl => ?_, ?_⟩
    · refine hchain.append (List.isChain_singleton b) fun x hx y hy => ?_
      rw [List.getLast?_eq_getLast_of_ne_nil (List.cons_ne_nil _ _), Option.mem_some_iff] at hx
      rw [List.head?_singleton, Option.mem_some_iff] at hy
      rw [← hx, ← hy]
      exact hlast
    · rcases List.mem_append.mp (show l ∈ (a :: rest) ++ [b] from hl) with hl | hl
      · exact husable l hl
      · rw [List.mem_singleton.mp hl]
        exact hbc.1
    · have hb : (a :: (rest ++ [b])).getLast (List.cons_ne_nil _ _) = b :=
        List.getLast_append_singleton (a :: rest)
      rw [hb]
      exact hbc.2.2

theorem transGen_of_chain {a b : Link} {rest : List Link}
    (hchain : (a :: rest).IsChain fun x y => x.target = y.source)
    (husable : ∀ l ∈ a :: rest, Usable nodes links l) (hb : Usable nodes links b)
    (hlast : ((a :: rest).getLast (List.cons_ne_nil _ _)).target = b.source) :
    TransGen (Leads nodes links) a b := by
  induction rest generalizing a with
  | nil => exact .single ⟨husable a List.mem_cons_self, hb, hlast⟩
  | cons x rest ih =>
    have hx : ∀ l ∈ x :: rest, Usable nodes links l := fun l hl =>
      husable l (List.mem_cons_of_mem _ hl)
    have hstep : Leads nodes links a x :=
      ⟨husable a List.mem_cons_self, hx x List.mem_cons_self,
        (List.isChain_cons_cons.mp hchain).1⟩
    rw [List.getLast_cons (List.cons_ne_nil x rest)] at hlast
    exact .head hstep (ih (List.isChain_cons_cons.mp hchain).2 hx hlast)

theorem exists_circuit_iff :
    (∃ c, Circuit nodes links c) ↔ ∃ l, TransGen (Leads nodes links) l l := by
  constructor
  · rintro ⟨c, h⟩
    cases c with
    | nil => exact absurd rfl h.ne_nil
    | cons a rest =>
      exact ⟨a, transGen_of_chain h.chain h.usable (h.usable a List.mem_cons_self) h.closes⟩
  · rintro ⟨l, h⟩
    obtain ⟨rest, hchain, husable, hlast⟩ := exists_chain_of_transGen h
    exact ⟨l :: rest, List.cons_ne_nil _ _, husable, hchain, hlast⟩

end

/-! ## links and their arcs -/

/-- steps of one kind follow each other as steps of another kind do, if each step is one -/
theorem transGen_of_related {α β : Type} {r : α → α → Prop} {s : β → β → Prop} {C : α → β → Prop}
    (htotal : ∀ a b, r a b → ∃ x, C a x)
    (hstep : ∀ a b x y, r a b → C a x → C b y → s x y) {a b : α} {x y : β}
    (h : TransGen r a b) (hx : C a x) (hy : C b y) : TransGen s x y := by
  induction h generalizing y with
  | single hab => exact .single (hstep _ _ _ _ hab hx hy)
  | tail _ hbc ih =>
    obtain ⟨z, hz⟩ := htotal _ _ hbc
    exact (ih hz).tail (hstep _ _ _ _ hbc hz hy)

theorem first_of_transGen {α : Type} {r : α → α → Prop} {a b : α} (h : TransGen r a b) :
    ∃ c, r a c := by
  obtain ⟨c, hac, _⟩ := TransGen.head'_iff.mp h
  exact ⟨c, hac⟩

namespace Layout

/-- the arc is made from the link -/
def Carries (layout : Layout) (links : List Link) (a : Arc) (l : Link) : Prop :=
  links[a.link]? = some l ∧ layout.arc? a.link l = some a

theorem mem_arcs_iff {layout : Layout} {links : List Link} {a : Arc} :
    a ∈ layout.arcs links ↔ ∃ l, layout.Carries links a l := by
  unfold arcs Carries
  rw [List.mem_filterMap]
  constructor
  · rintro ⟨⟨l, i⟩, hmem, ha⟩
    replace ha : layout.arc? i l = some a := ha
    obtain ⟨p, q, _, _, hpq⟩ := arc?_eq_some_iff.mp ha
    have hi : a.link = i := congrArg Arc.link hpq
    rw [hi]
    exact ⟨l, List.mk_mem_zipIdx_iff_getElem?.mp hmem, ha⟩
  · rintro ⟨l, hl, ha⟩
    exact ⟨(l, a.link), List.mk_mem_zipIdx_iff_getElem?.mpr hl, ha⟩

section
variable {nodes : List Node} {links : List Link}

theorem usable_of_carries {a : Arc} {l : Link} (h : (ofNodes nodes).Carries links a l) :
    Usable nodes links l := by
  obtain ⟨p, q, hp, hq, _⟩ := arc?_eq_some_iff.mp h.2
  exact ⟨List.mem_of_getElem? h.1, isSome_find?_ofNodes.mp (Option.isSome_of_eq_some hp),
    isSome_find?_ofNodes.mp (Option.isSome_of_eq_some hq)⟩

theorem exists_carries {l : Link} (h : Usable nodes links l) :
    ∃ a, (ofNodes nodes).Carries links a l := by
  obtain ⟨hmem, hsource, htarget⟩ := h
  obtain ⟨i, hi⟩ := List.mem_iff_getElem?.mp hmem
  obtain ⟨p, hp⟩ := Option.isSome_iff_exists.mp (isSome_find?_ofNodes.mpr hsource)
  obtain ⟨q, hq⟩ := Option.isSome_iff_exists.mp (isSome_find?_ofNodes.mpr htarget)
  exact ⟨⟨p.tool - 1, q.tool - 1, i⟩, hi, arc?_eq_some_iff.mpr ⟨p, q, hp, hq, rfl⟩⟩

/-- arcs meet in a vertex where their links meet in a name -/
theorem head_eq_tail_iff {a b : Arc} {l m : Link} (ha : (ofNodes nodes).Carries links a l)
    (hb : (ofNodes nodes).Carries links b m) : a.head = b.tail ↔ l.target = m.source := by
  obtain ⟨_, q, _, hq, ha'⟩ := arc?_eq_some_iff.mp ha.2
  obtain ⟨p, _, hp, _, hb'⟩ := arc?_eq_some_iff.mp hb.2
  have hhead : a.head = q.tool - 1 := congrArg Arc.head ha'
  have htail : b.tail = p.tool - 1 := congrArg Arc.tail hb'
  rw [hhead, htail]
  constructor
  · intro h
    have hq1 := tool_pos hq
    have hp1 := tool_pos hp
    exact name_eq_of_tool_eq hq hp (by omega)
  · intro h
    rw [h, hp, Option.some.injEq] at hq
    rw [hq]

theorem leads_of_precedes {a b : Arc} {l m : Link}
    (h : Arc.Precedes ((ofNodes nodes).arcs links) a b) (ha : (ofNodes nodes).Carries links a l)
    (hb : (ofNodes nodes).Carries links b m) : Leads nodes links l m :=
  ⟨usable_of_carries ha, usable_of_carries hb, (head_eq_tail_iff ha hb).mp h.2.2⟩

theorem precedes_of_leads {a b : Arc} {l m : Link} (h : Leads nodes links l m)
    (ha : (ofNodes nodes).Carries links a l) (hb : (ofNodes nodes).Carries links b m) :
    Arc.Precedes ((ofNodes nodes).arcs links) a b :=
  ⟨mem_arcs_iff.mpr ⟨l, ha⟩, mem_arcs_iff.mpr ⟨m, hb⟩, (head_eq_tail_iff ha hb).mpr h.2.2⟩

/-- **On the layout of some nodes, the links form a cycle exactly if they hold a circuit.** -/
theorem cyclic_ofNodes_iff :
    (ofNodes nodes).cyclic links = true ↔ ∃ c, Circuit nodes links c := by
  unfold cyclic
  rw [Arc.cyclic_iff, exists_circuit_iff]
  constructor
  · rintro ⟨a, h⟩
    obtain ⟨c, hac⟩ := first_of_transGen h
    obtain ⟨l, hl⟩ := mem_arcs_iff.mp hac.1
    exact ⟨l, transGen_of_related (C := fun a l => (ofNodes nodes).Carries links a l)
      (fun _ _ hab => mem_arcs_iff.mp hab.1) (fun _ _ _ _ => leads_of_precedes) h hl hl⟩
  · rintro ⟨l, h⟩
    obtain ⟨m, hlm⟩ := first_of_transGen h
    obtain ⟨a, ha⟩ := exists_carries hlm.1
    exact ⟨a, transGen_of_related (C := fun l a => (ofNodes nodes).Carries links a l)
      (fun _ _ hlm => exists_carries hlm.1) (fun _ _ _ _ => precedes_of_leads) h ha ha⟩

end

end Layout

end Toolflow
