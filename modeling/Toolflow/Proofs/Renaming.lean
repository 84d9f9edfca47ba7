import Mathlib.Logic.Equiv.Basic
import Toolflow.Proofs.Workflow.Relabelling
import Toolflow.Proofs.Workflow.Replacing

/-!
# Descriptions with other names

What becomes of an output when the nodes of a description get other names, and the connections
follow.

* `Json.mapAt key f value`   the object with `f` applied under a key;
* `Json.renameNames r value`   the description in which every name of a node, and every end of a
                       connection that is a string, is replaced by its image under `r`;
* `Workflow.ReadFrom.renameNames`   it describes the same workflow under other names;
* `renaming_renames_notices`   where `r` keeps names apart and the empty string as it is, the
                       document does not change, and the notices change in the names alone.

The empty string must stay, because it stands for an end that is no string: if another name became
empty, or the empty string a name, such an end would be taken for a node, or a node be refused.
-/

namespace Toolflow

namespace Json

/-! ## changing a value -/

def mapMembers (key : String) (f : Json → Json) (members : Members) : Members :=
  members.map fun p => (p.1, if p.1 = key then f p.2 else p.2)

/-- the object with this done to what it has under the key; every other value as it is -/
def mapAt (key : String) (f : Json → Json) : Json → Json
  | .obj members => .obj (mapMembers key f members)
  | value => value

def mapItems (f : Json → Json) : Json → Json
  | .arr items => .arr (items.map f)
  | value => value

def mapString (r : String → String) : Json → Json
  | .str s => .str (r s)
  | value => value

section
variable {key other : String} {f : Json → Json}

theorem mapMembers_cons (k : String) (v : Json) (rest : Members) :
    mapMembers key f ((k, v) :: rest)
      = (k, if k = key then f v else v) :: mapMembers key f rest := rfl

theorem find?_mapMembers_self (members : Members) :
    find? (mapMembers key f members) key = (find? members key).map f := by
  induction members with
  | nil => rfl
  | cons p rest ih =>
    obtain ⟨k, v⟩ := p
    rw [mapMembers_cons, find?_cons, find?_cons, ih]
    by_cases h : key = k
    · simp [h]
    · simp [h]

theorem find?_mapMembers_of_ne (h : other ≠ key) (members : Members) :
    find? (mapMembers key f members) other = find? members other := by
  induction members with
  | nil => rfl
  | cons p rest ih =>
    obtain ⟨k, v⟩ := p
    rw [mapMembers_cons, find?_cons, find?_cons, ih]
    by_cases hk : other = k
    · have hne : k ≠ key := hk ▸ h
      simp [hk, hne]
    · simp [hk]

theorem members_mapAt (value : Json) :
    (value.mapAt key f).members = mapMembers key f value.members := by
  cases value <;> rfl

theorem get?_mapAt_self (value : Json) :
    (value.mapAt key f).get? key = (value.get? key).map f := by
  rw [get?, members_mapAt]
  exact find?_mapMembers_self value.members

theorem get?_mapAt_of_ne (h : other ≠ key) (value : Json) :
    (value.mapAt key f).get? other = value.get? other := by
  rw [get?, members_mapAt]
  exact find?_mapMembers_of_ne h value.members

theorem map_mapString_eq_some_iff {r : String → String} {v : Option Json} {s : String} :
    v.map (mapString r) = some (.str s) ↔ ∃ t, v = some (.str t) ∧ r t = s := by
  rw [Option.map_eq_some_iff]
  constructor
  · rintro ⟨x, rfl, hx⟩
    cases x with
    | str t => exact ⟨t, rfl, Json.str.inj hx⟩
    | null => exact nomatch hx
    | bool b => exact nomatch hx
    | num n => exact nomatch hx
    | arr items => exact nomatch hx
    | obj members => exact nomatch hx
  · rintro ⟨t, rfl, rfl⟩
    exact ⟨.str t, rfl, rfl⟩

end

/-- what a value says under a key, when the strings there are replaced -/
theorem Says.mapString {value value' : Json} {key s : String} {r : String → String}
    (hempty : r "" = "") (h : value'.get? key = (value.get? key).map (mapString r))
    (hs : value.Says key s) : value'.Says key (r s) := by
  unfold Says at hs ⊢
  rw [h]
  -- what is no string stays none, and counts as the empty string on both sides
  rcases hs with hs | ⟨hnone, rfl⟩
  · exact .inl (map_mapString_eq_some_iff.mpr ⟨s, hs, rfl⟩)
  · refine .inr ⟨fun t ht => ?_, hempty⟩
    obtain ⟨u, hu, _⟩ := map_mapString_eq_some_iff.mp ht
    exact hnone u hu

/-! ## renaming a description -/

section
variable (r : String → String)

def renameNode (entry : Json) : Json := entry.mapAt "node_id" (mapString r)

def renameLink (entry : Json) : Json :=
  (entry.mapAt "from" (mapString r)).mapAt "to" (mapString r)

/-- every name of a node, and every end of a connection that is a string, replaced -/
def renameNames (value : Json) : Json :=
  (value.mapAt "nodes" (mapItems (renameNode r))).mapAt "connections" (mapItems (renameLink r))

theorem get?_renameNames_of_ne {key : String} (hnodes : key ≠ "nodes")
    (hlinks : key ≠ "connections") (value : Json) :
    (value.renameNames r).get? key = value.get? key := by
  rw [renameNames, get?_mapAt_of_ne hlinks, get?_mapAt_of_ne hnodes]

end

end Json

open Json (renameNode renameLink)

def Node.rename (r : String → String) (n : Node) : Node := { n with name := r n.name }

theorem relabels_rename (r : String → String) : Relabels r (Node.rename r) :=
  ⟨fun _ => rfl, fun _ => rfl, fun _ => rfl, fun _ _ => rfl⟩

section
variable {r : String → String}

theorem Node.ReadFrom.rename (hne : ∀ s, s ≠ "" → r s ≠ "") {entry : Json} {n : Node}
    (h : n.ReadFrom entry) : (n.rename r).ReadFrom (renameNode r entry) := by
  have hothers : ∀ key, key ≠ "node_id" → (renameNode r entry).get? key = entry.get? key :=
    fun key hkey => Json.get?_mapAt_of_ne hkey entry
  constructor
  case name =>
    rw [renameNode, Json.get?_mapAt_self, h.name]
    rfl
  case name_ne => exact hne n.name h.name_ne
  case kindName =>
    rw [hothers "schema_id" (by decide)]
    exact h.kindName
  case kindName_ne => exact h.kindName_ne
  case source =>
    unfold Json.Says
    rw [hothers "acl_source" (by decide)]
    exact h.source
  case settings =>
    rw [hothers "config" (by decide)]
    exact h.settings
  case kind => exact h.kind
  case unmapped => exact h.unmapped

theorem Link.ReadFrom.rename (hempty : r "" = "") {entry : Json} {l : Link}
    (h : l.ReadFrom entry) : (l.rename r).ReadFrom (renameLink r entry) := by
  constructor
  · refine h.source.mapString hempty ?_
    rw [renameLink, Json.get?_mapAt_of_ne (by decide), Json.get?_mapAt_self]
  · refine h.target.mapString hempty ?_
    rw [renameLink, Json.get?_mapAt_self, Json.get?_mapAt_of_ne (by decide)]

/-- **The renamed description describes the renamed workflow.** -/
theorem Workflow.ReadFrom.renameNames (hempty : r "" = "") (hne : ∀ s, s ≠ "" → r s ≠ "")
    {value : Json} {w : Workflow} (h : w.ReadFrom value) :
    (w.relabel r (Node.rename r)).ReadFrom (value.renameNames r) := by
  have hothers : ∀ key, key ≠ "nodes" → key ≠ "connections" →
      (value.renameNames r).get? key = value.get? key :=
    fun key hnodes hlinks => Json.get?_renameNames_of_ne r hnodes hlinks value
  constructor
  case nodes =>
    obtain ⟨entries, hentries, hall⟩ := h.nodes
    refine ⟨entries.map (renameNode r), ?_, ?_⟩
    · rw [Json.renameNames, Json.get?_mapAt_of_ne (by decide), Json.get?_mapAt_self, hentries]
      rfl
    · show List.Forall₂ _ _ (w.nodes.map (Node.rename r))
      rw [List.forall₂_map_left_iff, List.forall₂_map_right_iff]
      exact hall.imp fun _ _ hn => hn.rename hne
  case links =>
    obtain ⟨entries, hentries, hall⟩ := h.links
    refine ⟨entries.map (renameLink r), ?_, ?_⟩
    · rw [Json.renameNames, Json.get?_mapAt_self, Json.get?_mapAt_of_ne (by decide), hentries]
      rfl
    · show List.Forall₂ _ _ (w.links.map (Link.rename r))
      rw [List.forall₂_map_left_iff, List.forall₂_map_right_iff]
      exact hall.imp fun _ _ hl => hl.rename hempty
  case unmapped => exact h.unmapped.congr (hothers "unmapped_acl" (by decide) (by decide))
  case origin => exact h.origin.congr (hothers "workflow" (by decide) (by decide))

end

/-- **Other names of the nodes show in the notices and nowhere else.** -/
theorem renaming_renames_notices {value : Json} {out : Output} {r : String → String}
    (h : compile value = .ok out) (hr : Function.Injective r) (hempty : r "" = "") :
    compile (value.renameNames r)
      = .ok { out with notices := out.notices.map (Notice.rename r) } := by
  obtain ⟨w, hread, rfl⟩ := compile_eq_ok_iff_readFrom.mp h
  have hne : ∀ s, s ≠ "" → r s ≠ "" := fun s hs heq => hs (hr (heq.trans hempty.symm))
  exact compile_eq_ok_iff_readFrom.mpr ⟨_, hread.renameNames hempty hne,
    (Workflow.compile_relabel (relabels_rename r) hr w).symm⟩

/-- the first two names exchanged, so that the repeated name is another one -/
def exchangeNames : String → String := Equiv.swap "a" "b"

theorem renaming_renames_notices_tangled : compile tangled = .ok tangledWorkflow.compile ∧
    Function.Injective exchangeNames ∧ exchangeNames "" = "" ∧
    compile (tangled.renameNames exchangeNames)
      = .ok { tangledWorkflow.compile with
          notices := tangledWorkflow.compile.notices.map (Notice.rename exchangeNames) } := by
  have hinjective : Function.Injective exchangeNames := (Equiv.swap "a" "b").injective
  have hempty : exchangeNames "" = "" := by decide
  exact ⟨compile_tangled, hinjective, hempty,
    renaming_renames_notices compile_tangled hinjective hempty⟩

end Toolflow
