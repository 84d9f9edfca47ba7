import Toolflow.Proofs.Listing
import Toolflow.Proofs.Workflow.Reading

/-!
# The shape of a workflow

What a value must be to describe a workflow, said without the reader.

* `NodeFault.Of`, `ShapeFault.Of`, `Rejection.Of`   what is wrong with an entry, with the shape of
                        a value, and with a value; several things can be wrong at once;
* `Rejection.rank`      the order in which faults count: the shape, then the nodes from the front,
                        and of one node the fault that comes first;
* `Rejection.IsFirst`   no other fault of the value comes before this one;
* `Workflow.ReadFrom`   the workflow says what the value says, entry by entry;
* `Workflow.ofJson_checks_shape`   a value with a fault is refused for its first one, and every
                        other value is read.

Each reader has one lemma of the same form (`Node.ofJson_spec`, `Workflow.ofJson_spec`): it gives
the first fault, or something that was read.  The two exclude each other, so the equivalences
follow.
-/

namespace Toolflow

/-! ## strings of an object -/

namespace Json

/-- the string of this key is a name -/
def HasName (value : Json) (key : String) : Prop :=
  ∃ s, value.get? key = some (.str s) ∧ s ≠ ""

/-- the string of this key, empty where there is none -/
def Says (value : Json) (key s : String) : Prop :=
  value.get? key = some (.str s) ∨ (∀ t, value.get? key ≠ some (.str t)) ∧ s = ""

section
variable {value : Json} {key s : String}

theorem string?_eq_some_iff : value.string? = some s ↔ value = .str s := by
  cases value <;> simp [string?]

theorem bind_string?_eq_some_iff {v : Option Json} :
    v.bind string? = some s ↔ v = some (.str s) := by
  simp [Option.bind_eq_some_iff, string?_eq_some_iff]

theorem nonempty?_eq_some_iff :
    value.nonempty? key = some s ↔ value.get? key = some (.str s) ∧ s ≠ "" := by
  simp [nonempty?, Option.filter_eq_some_iff, bind_string?_eq_some_iff]

theorem nonempty?_eq_none_iff : value.nonempty? key = none ↔ ¬ value.HasName key := by
  rw [Option.eq_none_iff_forall_ne_some]
  simp only [HasName, not_exists, ne_eq, nonempty?_eq_some_iff]

theorem stringAt_eq_iff : value.stringAt key = s ↔ value.Says key s := by
  unfold stringAt Says
  cases h : (value.get? key).bind string? with
  | some t =>
    rw [bind_string?_eq_some_iff.mp h]
    simp
  | none =>
    have hnone : ∀ t, value.get? key ≠ some (.str t) := fun t ht => by
      rw [bind_string?_eq_some_iff.mpr ht] at h
      cases h
    simp [hnone, eq_comm]

theorem Says.unique {t : String} (hs : value.Says key s) (ht : value.Says key t) : s = t :=
  (stringAt_eq_iff.mpr hs).symm.trans (stringAt_eq_iff.mpr ht)

/-- only an object has keys -/
theorem get?_eq_none_of_ne_obj (h : ∀ members, value ≠ .obj members) : value.get? key = none := by
  cases value with
  | obj members => exact absurd rfl (h members)
  | null => rfl
  | bool b => rfl
  | num x => rfl
  | str s => rfl
  | arr items => rfl

end

end Json

/-! ## faults -/

section
variable {α : Type}

/-- of all that has the property, nothing has a lower rank -/
def Least (P : α → Prop) (rank : α → Nat) (a : α) : Prop := P a ∧ ∀ b, P b → rank a ≤ rank b

theorem Least.unique {P : α → Prop} {rank : α → Nat}
    (hrank : ∀ a b, P a → P b → rank a = rank b → a = b) {a b : α} (ha : Least P rank a)
    (hb : Least P rank b) : a = b :=
  hrank a b ha.1 hb.1 (Nat.le_antisymm (ha.2 b hb.1) (hb.2 a ha.1))

end

namespace NodeFault

/-- this is wrong with an entry of `nodes` -/
def Of (entry : Json) : NodeFault → Prop
  | notObject => ∀ members, entry ≠ .obj members
  | noName => ¬ entry.HasName "node_id"
  | noKindName => ¬ entry.HasName "schema_id"

def rank : NodeFault → Nat
  | notObject => 0
  | noName => 1
  | noKindName => 2

def IsFirst (entry : Json) : NodeFault → Prop := Least (Of entry) rank

theorem rank_lt (fault : NodeFault) : fault.rank < 3 := by
  cases fault <;> decide

theorem rank_injective {a b : NodeFault} (h : a.rank = b.rank) : a = b := by
  revert h
  cases a <;> cases b <;> decide

end NodeFault

namespace Part

def rank : Part → Nat
  | nodes => 1
  | connections => 2

theorem rank_ne_zero (part : Part) : part.rank ≠ 0 := by
  cases part <;> decide

theorem rank_injective {a b : Part} (h : a.rank = b.rank) : a = b := by
  revert h
  cases a <;> cases b <;> decide

theorem rank_le {a b : Part} (h : a = connections → b ≠ nodes) : a.rank ≤ b.rank := by
  cases a with
  | nodes => cases b <;> decide
  | connections =>
    cases b with
    | nodes => exact absurd rfl (h rfl)
    | connections => exact Nat.le_refl _

end Part

namespace ShapeFault

/-- this is wrong with the shape of a value -/
def Of (value : Json) : ShapeFault → Prop
  | notObject => ∀ members, value ≠ .obj members
  | missing part => value.get? part.key = none ∨ value.get? part.key = some .null
  | notList part =>
    ∃ v, value.get? part.key = some v ∧ v ≠ .null ∧ ∀ items, v ≠ .arr items

/-- the faults of a part share a rank, because only one of them can hold -/
def rank : ShapeFault → Nat
  | notObject => 0
  | missing part | notList part => part.rank

theorem rank_lt (fault : ShapeFault) : fault.rank < 3 := by
  rcases fault with _ | ⟨_ | _⟩ | ⟨_ | _⟩ <;> decide

theorem not_missing_of_notList {value : Json} {part : Part} (h : (notList part).Of value) :
    ¬ (missing part).Of value := by
  obtain ⟨v, hv, hnull, _⟩ := h
  rintro (hnone | hnull')
  · rw [hv] at hnone
    cases hnone
  · rw [hv] at hnull'
    exact hnull (Option.some.inj hnull')

theorem eq_of_rank_eq {value : Json} {a b : ShapeFault} (ha : a.Of value) (hb : b.Of value)
    (h : a.rank = b.rank) : a = b := by
  cases a with
  | notObject =>
    cases b with
    | notObject => rfl
    | missing q => exact absurd h.symm q.rank_ne_zero
    | notList q => exact absurd h.symm q.rank_ne_zero
  | missing p =>
    cases b with
    | notObject => exact absurd h p.rank_ne_zero
    | missing q => rw [Part.rank_injective (a := p) h]
    | notList q =>
      rw [Part.rank_injective (a := p) h] at ha
      exact absurd ha (not_missing_of_notList hb)
  | notList p =>
    cases b with
    | notObject => exact absurd h p.rank_ne_zero
    | missing q =>
      rw [Part.rank_injective (a := p) h] at ha
      exact absurd hb (not_missing_of_notList ha)
    | notList q => rw [Part.rank_injective (a := p) h]

end ShapeFault

namespace Rejection

/-- this is wrong with a value -/
def Of (value : Json) : Rejection → Prop
  | notJson _ => False
  | misshapen fault => fault.Of value
  | badNode index fault => ∃ entries entry,
    value.get? "nodes" = some (.arr entries) ∧ entries[index]? = some entry ∧ fault.Of entry

/-- every fault of the shape comes before every bad node -/
def rank : Rejection → Nat
  | notJson _ => 0
  | misshapen fault => fault.rank
  | badNode index fault => 3 * (index + 1) + fault.rank

def IsFirst (value : Json) : Rejection → Prop := Least (Of value) rank

theorem eq_of_rank_eq {value : Json} {a b : Rejection} (ha : a.Of value) (hb : b.Of value)
    (h : a.rank = b.rank) : a = b := by
  cases a with
  | notJson detail => exact ha.elim
  | misshapen f =>
    cases b with
    | notJson detail => exact hb.elim
    | misshapen g => rw [ShapeFault.eq_of_rank_eq (a := f) ha hb h]
    | badNode j g =>
      have hf := f.rank_lt
      simp only [rank] at h
      omega
  | badNode i f =>
    cases b with
    | notJson detail => exact hb.elim
    | misshapen g =>
      have hg := g.rank_lt
      simp only [rank] at h
      omega
    | badNode j g =>
      have hf := f.rank_lt
      have hg := g.rank_lt
      simp only [rank] at h
      have hij : i = j := by omega
      have hfg : f.rank = g.rank := by omega
      rw [hij, NodeFault.rank_injective hfg]

end Rejection

/-! ## nodes -/

/-- the node says what the entry says -/
structure Node.ReadFrom (entry : Json) (n : Node) : Prop where
  name : entry.get? "node_id" = some (.str n.name)
  name_ne : n.name ≠ ""
  kindName : entry.get? "schema_id" = some (.str n.kindName)
  kindName_ne : n.kindName ≠ ""
  source : entry.Says "acl_source" n.source
  settings : n.settings = .read n.kindName ((entry.get? "config").getD .null)
  kind : ∀ kind : Kind, n.settings.kind? = some kind ↔ n.kindName = kind.name
  unmapped : n.settings = .unmapped ↔ ∀ kind : Kind, n.kindName ≠ kind.name

namespace Node

section
variable {entry : Json} {n : Node}

theorem ReadFrom.unique {m : Node} (hn : n.ReadFrom entry) (hm : m.ReadFrom entry) : n = m := by
  have hname : n.name = m.name := Json.str.inj (Option.some.inj (hn.name.symm.trans hm.name))
  have hkindName : n.kindName = m.kindName :=
    Json.str.inj (Option.some.inj (hn.kindName.symm.trans hm.kindName))
  have hsource : n.source = m.source := hn.source.unique hm.source
  have hsettings : n.settings = m.settings := by
    rw [hn.settings, hm.settings, hkindName]
  cases n
  cases m
  simp only at hname hkindName hsource hsettings
  rw [hname, hkindName, hsource, hsettings]

theorem ReadFrom.not_of (h : n.ReadFrom entry) (fault : NodeFault) : ¬ fault.Of entry := by
  cases fault with
  | notObject =>
    intro hobj
    have hname := h.name
    rw [Json.get?_eq_none_of_ne_obj hobj] at hname
    cases hname
  | noName => exact not_not_intro ⟨n.name, h.name, h.name_ne⟩
  | noKindName => exact not_not_intro ⟨n.kindName, h.kindName, h.kindName_ne⟩

theorem settings_read_kind (kindName : String) (config : Json) (kind : Kind) :
    (Settings.read kindName config).kind? = some kind ↔ kindName = kind.name := by
  rw [Settings.kind?_read, Kind.ofName?_eq_some_iff]

theorem settings_read_unmapped (kindName : String) (config : Json) :
    Settings.read kindName config = .unmapped ↔ ∀ kind : Kind, kindName ≠ kind.name := by
  rw [← Kind.ofName?_eq_none_iff, ← Settings.kind?_read kindName config]
  cases Settings.read kindName config <;> simp [Settings.kind?]

/-- an entry is refused for its first fault, or it is read -/
theorem ofJson_spec (entry : Json) :
    (∃ fault, Node.ofJson entry = .error fault ∧ fault.IsFirst entry) ∨
      ∃ n, Node.ofJson entry = .ok n ∧ n.ReadFrom entry := by
  unfold Node.ofJson
  split
  · next members =>
    split
    · next hname =>
      refine .inl ⟨_, rfl, Json.nonempty?_eq_none_iff.mp hname, fun fault hfault => ?_⟩
      cases fault with
      | notObject => exact absurd rfl (hfault members)
      | noName => decide
      | noKindName => decide
    · next name hname =>
      split
      · next hkind =>
        refine .inl ⟨_, rfl, Json.nonempty?_eq_none_iff.mp hkind, fun fault hfault => ?_⟩
        cases fault with
        | notObject => exact absurd rfl (hfault members)
        | noName => exact absurd ⟨name, Json.nonempty?_eq_some_iff.mp hname⟩ hfault
        | noKindName => decide
      · next kindName hkind =>
        obtain ⟨hname, hname_ne⟩ := Json.nonempty?_eq_some_iff.mp hname
        obtain ⟨hkind, hkind_ne⟩ := Json.nonempty?_eq_some_iff.mp hkind
        exact .inr ⟨_, rfl, hname, hname_ne, hkind, hkind_ne, Json.stringAt_eq_iff.mp rfl, rfl,
          settings_read_kind _ _, settings_read_unmapped _ _⟩
  · next hobj => exact .inl ⟨_, rfl, fun members => hobj members, fun fault _ => Nat.zero_le _⟩

end

/-! ## lists of nodes -/

/-- the first entry that is refused, and every entry before it is read -/
theorem listOfJson_spec (index : Nat) (entries : List Json) :
    (∃ i entry fault, Node.listOfJson index entries = .error (.badNode (index + i) fault) ∧
        entries[i]? = some entry ∧ fault.IsFirst entry ∧
        ∀ j e, j < i → entries[j]? = some e → ∃ n : Node, n.ReadFrom e) ∨
      ∃ nodes, Node.listOfJson index entries = .ok nodes ∧
        List.Forall₂ (fun entry n => n.ReadFrom entry) entries nodes := by
  induction entries generalizing index with
  | nil => exact .inr ⟨[], rfl, .nil⟩
  | cons entry rest ih =>
    unfold Node.listOfJson
    rcases ofJson_spec entry with ⟨fault, hfault, hfirst⟩ | ⟨n, hn, hread⟩
    · rw [hfault]
      exact .inl ⟨0, entry, fault, rfl, rfl, hfirst, fun j _ hj _ => absurd hj (Nat.not_lt_zero j)⟩
    · rw [hn]
      rcases ih (index + 1) with ⟨i, e, fault, hlist, he, hfirst, hbefore⟩ | ⟨nodes, hlist, hall⟩
      · rw [hlist]
        refine .inl ⟨i + 1, e, fault, ?_, he, hfirst, fun j e' hj he' => ?_⟩
        · rw [Nat.add_assoc, Nat.add_comm 1 i]
        · cases j with
          | zero =>
            obtain rfl : entry = e' := Option.some.inj he'
            exact ⟨n, hread⟩
          | succ j => exact hbefore j e' (Nat.lt_of_succ_lt_succ hj) he'
      · rw [hlist]
        exact .inr ⟨n :: nodes, rfl, .cons hread hall⟩

end Node

/-! ## whole workflows -/

namespace Part

/-- a part is missing, or no list, or it is there -/
theorem read_spec (part : Part) (value : Json) :
    (∃ fault : ShapeFault, (fault = .missing part ∨ fault = .notList part) ∧
        part.read value = .error (.misshapen fault) ∧ fault.Of value) ∨
      ∃ items, part.read value = .ok items ∧ value.get? part.key = some (.arr items) := by
  unfold Part.read
  split
  · next h => exact .inl ⟨_, .inl rfl, rfl, .inl h⟩
  · next h => exact .inl ⟨_, .inl rfl, rfl, .inr h⟩
  · next items h => exact .inr ⟨items, rfl, h⟩
  · next v hnull harr h => exact .inl ⟨_, .inr rfl, rfl, v, h, hnull, harr⟩

/-- a part that is there has no fault -/
theorem not_of {part : Part} {value : Json} {items : List Json}
    (h : value.get? part.key = some (.arr items)) :
    ¬ (ShapeFault.missing part).Of value ∧ ¬ (ShapeFault.notList part).Of value := by
  constructor
  · rintro (hnone | hnull)
    · rw [h] at hnone
      cases hnone
    · rw [h] at hnull
      cases hnull
  · rintro ⟨v, hv, _, harr⟩
    rw [h] at hv
    exact harr items (Option.some.inj hv).symm

end Part

/-- a value with both parts has the shape of a workflow -/
theorem ShapeFault.not_of_parts {value : Json} {entries linkEntries : List Json}
    (hentries : value.get? Part.nodes.key = some (.arr entries))
    (hlinks : value.get? Part.connections.key = some (.arr linkEntries)) (fault : ShapeFault) :
    ¬ fault.Of value := by
  cases fault with
  | notObject =>
    intro hobj
    rw [Json.get?_eq_none_of_ne_obj hobj] at hentries
    cases hentries
  | missing part =>
    cases part with
    | nodes => exact (Part.not_of hentries).1
    | connections => exact (Part.not_of hlinks).1
  | notList part =>
    cases part with
    | nodes => exact (Part.not_of hentries).2
    | connections => exact (Part.not_of hlinks).2

/-- the link says what the entry says -/
structure Link.ReadFrom (entry : Json) (l : Link) : Prop where
  source : entry.Says "from" l.source
  target : entry.Says "to" l.target

theorem Link.readFrom_ofJson (entry : Json) : (Link.ofJson entry).ReadFrom entry :=
  ⟨Json.stringAt_eq_iff.mp rfl, Json.stringAt_eq_iff.mp rfl⟩

theorem Link.ReadFrom.eq_ofJson {entry : Json} {l : Link} (h : l.ReadFrom entry) :
    l = Link.ofJson entry := by
  have hsource := h.source.unique (Link.readFrom_ofJson entry).source
  have htarget := h.target.unique (Link.readFrom_ofJson entry).target
  cases l
  simp only at hsource htarget
  rw [hsource, htarget]

namespace Json

/-- the strings in the array of a key, in order -/
def Lists (value : Json) (key : String) (lines : List String) : Prop :=
  (∃ items, value.get? key = some (.arr items) ∧
      lines.map Json.str = items.filter (·.string?.isSome)) ∨
    (∀ items, value.get? key ≠ some (.arr items)) ∧ lines = []

theorem map_filterMap_string? (items : List Json) :
    (items.filterMap string?).map Json.str = items.filter (·.string?.isSome) := by
  induction items with
  | nil => rfl
  | cons v rest ih =>
    cases hv : v.string? with
    | none => simpa [hv] using ih
    | some s =>
      rw [List.filterMap_cons_some hv, List.filter_cons_of_pos (by rw [hv]; rfl), List.map_cons,
        ih, string?_eq_some_iff.mp hv]

theorem lists_entries (members : Members) (key : String) :
    (Json.obj members).Lists key (entries string? key members) := by
  unfold entries
  split
  · next items h => exact .inl ⟨items, h, map_filterMap_string? items⟩
  · next h => exact .inr ⟨fun items hitems => h items hitems, rfl⟩

theorem Lists.unique {value : Json} {key : String} {a b : List String} (ha : value.Lists key a)
    (hb : value.Lists key b) : a = b := by
  have hinj : Function.Injective Json.str := fun _ _ => Json.str.inj
  rcases ha with ⟨items, hitems, ha⟩ | ⟨hnone, rfl⟩
  · rcases hb with ⟨items', hitems', hb⟩ | ⟨hnone, _⟩
    · rw [hitems, Option.some.injEq, Json.arr.injEq] at hitems'
      rw [← hitems', ← ha] at hb
      exact (hinj.list_map hb).symm
    · exact absurd hitems (hnone items)
  · rcases hb with ⟨items, hitems, _⟩ | ⟨_, rfl⟩
    · exact absurd hitems (hnone items)
    · rfl

end Json

/-- the three texts on where a workflow comes from, each if it is there -/
structure Origin.ReadFrom (value : Json) (o : Origin) : Prop where
  version : ∀ s, o.version = some s ↔
    ∃ v, value.get? "workflow" = some v ∧ v.get? "version" = some (.str s)
  source : ∀ s, o.source = some s ↔
    ∃ v, value.get? "workflow" = some v ∧ v.get? "source" = some (.str s)
  schemaVersion : ∀ s, o.schemaVersion = some s ↔
    ∃ v, value.get? "workflow" = some v ∧ v.get? "schema_version" = some (.str s)

namespace Origin

theorem setting_eq_some_iff (value : Json) (key s : String) :
    Json.setting Json.string? key ((value.get? "workflow").getD .null).members = some s ↔
      ∃ v, value.get? "workflow" = some v ∧ v.get? key = some (.str s) := by
  unfold Json.setting
  rw [Json.bind_string?_eq_some_iff]
  cases value.get? "workflow" with
  | none => exact iff_of_false (fun h => nomatch h) (fun ⟨_, h, _⟩ => nomatch h)
  | some v =>
    constructor
    · exact fun h => ⟨v, rfl, h⟩
    · rintro ⟨_, hv, h⟩
      rw [← Option.some.inj hv] at h
      exact h

theorem readFrom_ofMembers (value : Json) :
    (Origin.ofMembers ((value.get? "workflow").getD .null).members).ReadFrom value :=
  ⟨setting_eq_some_iff value "version", setting_eq_some_iff value "source",
    setting_eq_some_iff value "schema_version"⟩

theorem ReadFrom.unique {value : Json} {a b : Origin} (ha : a.ReadFrom value)
    (hb : b.ReadFrom value) : a = b := by
  have hversion : a.version = b.version :=
    Option.ext fun s => (ha.version s).trans (hb.version s).symm
  have hsource : a.source = b.source := Option.ext fun s => (ha.source s).trans (hb.source s).symm
  have hschema : a.schemaVersion = b.schemaVersion :=
    Option.ext fun s => (ha.schemaVersion s).trans (hb.schemaVersion s).symm
  cases a
  cases b
  simp only at hversion hsource hschema
  rw [hversion, hsource, hschema]

end Origin

/-- the workflow says what the value says, with one node and one link for each entry -/
structure Workflow.ReadFrom (value : Json) (w : Workflow) : Prop where
  nodes : ∃ entries, value.get? "nodes" = some (.arr entries) ∧
    List.Forall₂ (fun entry n => n.ReadFrom entry) entries w.nodes
  links : ∃ entries, value.get? "connections" = some (.arr entries) ∧
    List.Forall₂ (fun entry l => l.ReadFrom entry) entries w.links
  unmapped : value.Lists "unmapped_acl" w.unmapped
  origin : w.origin.ReadFrom value

namespace Workflow

section
variable {value : Json} {w : Workflow}

theorem ReadFrom.forall₂_nodes (h : w.ReadFrom value) {entries : List Json}
    (hentries : value.get? "nodes" = some (.arr entries)) :
    List.Forall₂ (fun entry n => n.ReadFrom entry) entries w.nodes := by
  obtain ⟨items, hitems, hall⟩ := h.nodes
  rw [hentries, Option.some.injEq, Json.arr.injEq] at hitems
  exact hitems ▸ hall

theorem ReadFrom.forall₂_links (h : w.ReadFrom value) {entries : List Json}
    (hentries : value.get? "connections" = some (.arr entries)) :
    List.Forall₂ (fun entry l => l.ReadFrom entry) entries w.links := by
  obtain ⟨items, hitems, hall⟩ := h.links
  rw [hentries, Option.some.injEq, Json.arr.injEq] at hitems
  exact hitems ▸ hall

theorem ReadFrom.unique {v : Workflow} (hw : w.ReadFrom value) (hv : v.ReadFrom value) :
    w = v := by
  have hnodes : w.nodes = v.nodes := by
    obtain ⟨entries, hentries, hall⟩ := hw.nodes
    have hunique : Relator.RightUnique fun entry (n : Node) => n.ReadFrom entry :=
      fun _ _ _ => Node.ReadFrom.unique
    exact List.right_unique_forall₂' hunique hall (hv.forall₂_nodes hentries)
  have hlinks : w.links = v.links := by
    obtain ⟨entries, hentries, hall⟩ := hw.links
    have hunique : Relator.RightUnique fun entry (l : Link) => l.ReadFrom entry :=
      fun _ _ _ h h' => h.eq_ofJson.trans h'.eq_ofJson.symm
    exact List.right_unique_forall₂' hunique hall (hv.forall₂_links hentries)
  have hunmapped := hw.unmapped.unique hv.unmapped
  have horigin := hw.origin.unique hv.origin
  cases w
  cases v
  simp only at hnodes hlinks hunmapped horigin
  rw [hnodes, hlinks, hunmapped, horigin]

/-- what is read has no fault -/
theorem ReadFrom.not_of (h : w.ReadFrom value) (r : Rejection) : ¬ r.Of value := by
  obtain ⟨entries, hentries, _⟩ := h.nodes
  obtain ⟨linkEntries, hlinkEntries, _⟩ := h.links
  cases r with
  | notJson detail => exact not_false
  | misshapen fault => exact ShapeFault.not_of_parts hentries hlinkEntries fault
  | badNode i fault =>
    rintro ⟨entries', entry, hentries', hentry, hfault⟩
    obtain ⟨n, _, hn⟩ := exists_getElem?_of_forall₂ (h.forall₂_nodes hentries') hentry
    exact hn.not_of fault hfault

/-- a fault of a part comes first if the parts before it are there -/
theorem least_of_part {members : Json.Members} {fault : ShapeFault} {part : Part}
    (hpart : fault = .missing part ∨ fault = .notList part) (hfault : fault.Of (.obj members))
    (hbefore : part = .connections → ∃ items,
      (Json.obj members).get? Part.nodes.key = some (.arr items)) :
    (Rejection.misshapen fault).IsFirst (.obj members) := by
  refine ⟨hfault, fun r hr => ?_⟩
  have hrank : fault.rank = part.rank := by
    rcases hpart with rfl | rfl <;> rfl
  cases r with
  | notJson detail => exact hr.elim
  | misshapen g =>
    rw [Rejection.rank, Rejection.rank, hrank]
    cases g with
    | notObject => exact absurd rfl (hr members)
    | missing q =>
      refine Part.rank_le fun hpart hq => ?_
      obtain ⟨items, hitems⟩ := hbefore hpart
      exact (Part.not_of hitems).1 (hq ▸ hr)
    | notList q =>
      refine Part.rank_le fun hpart hq => ?_
      obtain ⟨items, hitems⟩ := hbefore hpart
      exact (Part.not_of hitems).2 (hq ▸ hr)
  | badNode i g =>
    have hlt := fault.rank_lt
    show fault.rank ≤ 3 * (i + 1) + g.rank
    omega

/-- a bad node comes first if the parts are there and the nodes before it are read -/
theorem least_badNode {entries linkEntries : List Json} {i : Nat} {entry : Json}
    {fault : NodeFault} (hentries : value.get? Part.nodes.key = some (.arr entries))
    (hlinks : value.get? Part.connections.key = some (.arr linkEntries))
    (hentry : entries[i]? = some entry) (hfirst : fault.IsFirst entry)
    (hbefore : ∀ j e, j < i → entries[j]? = some e → ∃ n : Node, n.ReadFrom e) :
    (Rejection.badNode i fault).IsFirst value := by
  refine ⟨⟨entries, entry, hentries, hentry, hfirst.1⟩, fun r hr => ?_⟩
  cases r with
  | notJson detail => exact hr.elim
  | misshapen g => exact absurd hr (ShapeFault.not_of_parts hentries hlinks g)
  | badNode j g =>
    obtain ⟨entries', e, hentries', he, hg⟩ := hr
    rw [show value.get? "nodes" = _ from hentries, Option.some.injEq, Json.arr.injEq] at hentries'
    subst hentries'
    show 3 * (i + 1) + fault.rank ≤ 3 * (j + 1) + g.rank
    rcases Nat.lt_trichotomy j i with hlt | rfl | hgt
    · obtain ⟨n, hn⟩ := hbefore j e hlt he
      exact absurd hg (hn.not_of g)
    · rw [hentry, Option.some.injEq] at he
      subst he
      have hle := hfirst.2 g hg
      omega
    · have hf := fault.rank_lt
      omega

theorem forall₂_map_ofJson (entries : List Json) :
    List.Forall₂ (fun entry l => l.ReadFrom entry) entries (entries.map Link.ofJson) := by
  rw [List.forall₂_map_right_iff]
  exact List.forall₂_same.mpr fun entry _ => Link.readFrom_ofJson entry

/-- a value is refused for its first fault, or it is read -/
theorem ofJson_spec (value : Json) :
    (∃ r, Workflow.ofJson value = .error r ∧ r.IsFirst value) ∨
      ∃ w, Workflow.ofJson value = .ok w ∧ w.ReadFrom value := by
  unfold Workflow.ofJson
  split
  · next members =>
    rcases Part.read_spec .nodes (.obj members) with
      ⟨fault, hpart, hread, hfault⟩ | ⟨entries, hread, hentries⟩
    · rw [hread]
      exact .inl ⟨_, rfl, least_of_part hpart hfault (fun h => nomatch h)⟩
    · rw [hread]
      rcases Part.read_spec .connections (.obj members) with
        ⟨fault, hpart, hread, hfault⟩ | ⟨linkEntries, hread, hlinkEntries⟩
      · simp only [hread]
        exact .inl ⟨_, rfl, least_of_part hpart hfault fun _ => ⟨entries, hentries⟩⟩
      · simp only [hread]
        rcases Node.listOfJson_spec 0 entries with
          ⟨i, entry, fault, hlist, hentry, hfirst, hall⟩ | ⟨nodes, hlist, hall⟩
        · rw [hlist, Nat.zero_add]
          exact .inl ⟨_, rfl, least_badNode hentries hlinkEntries hentry hfirst hall⟩
        · rw [hlist]
          exact .inr ⟨_, rfl, ⟨entries, hentries, hall⟩,
            ⟨linkEntries, hlinkEntries, forall₂_map_ofJson linkEntries⟩,
            Json.lists_entries members "unmapped_acl", Origin.readFrom_ofMembers _⟩
  · next hobj => exact .inl ⟨_, rfl, fun members => hobj members, fun _ _ => Nat.zero_le _⟩

theorem ofJson_eq_ok_iff_readFrom : Workflow.ofJson value = .ok w ↔ w.ReadFrom value := by
  rcases ofJson_spec value with ⟨r, hr, hfirst⟩ | ⟨v, hv, hread⟩
  · rw [hr]
    exact iff_of_false (fun h => nomatch h) fun h => h.not_of r hfirst.1
  · rw [hv, Except.ok.injEq]
    constructor
    · rintro rfl
      exact hread
    · exact fun h => hread.unique h

theorem ofJson_eq_error_iff_isFirst {r : Rejection} :
    Workflow.ofJson value = .error r ↔ r.IsFirst value := by
  rcases ofJson_spec value with ⟨first, hr, hfirst⟩ | ⟨w, hw, hread⟩
  · rw [hr, Except.error.injEq]
    constructor
    · rintro rfl
      exact hfirst
    · exact fun h => Least.unique (fun _ _ => Rejection.eq_of_rank_eq) hfirst h
  · rw [hw]
    exact iff_of_false (fun h => nomatch h) fun h => hread.not_of r h.1

/-- **A value is refused exactly if it has a fault, and then for its first one.**  Every other
value is read, entry by entry. -/
theorem ofJson_checks_shape (value : Json) :
    ((∃ r, Workflow.ofJson value = .error r) ↔ ∃ r : Rejection, r.Of value) ∧
      (∀ r, Workflow.ofJson value = .error r ↔ r.IsFirst value) ∧
      ((∃ w, Workflow.ofJson value = .ok w) ↔ ∀ r : Rejection, ¬ r.Of value) ∧
      ∀ w, Workflow.ofJson value = .ok w ↔ w.ReadFrom value := by
  refine ⟨?_, fun _ => ofJson_eq_error_iff_isFirst, ?_, fun _ => ofJson_eq_ok_iff_readFrom⟩
  · rcases ofJson_spec value with ⟨r, hr, hfirst⟩ | ⟨w, hw, hread⟩
    · exact iff_of_true ⟨r, hr⟩ ⟨r, hfirst.1⟩
    · refine iff_of_false ?_ fun ⟨r, hr⟩ => hread.not_of r hr
      rw [hw]
      exact fun ⟨_, h⟩ => nomatch h
  · rcases ofJson_spec value with ⟨r, hr, hfirst⟩ | ⟨w, hw, hread⟩
    · refine iff_of_false ?_ fun h => h r hfirst.1
      rw [hr]
      exact fun ⟨_, h⟩ => nomatch h
    · exact iff_of_true ⟨w, hw⟩ hread.not_of

end

end Workflow

end Toolflow
