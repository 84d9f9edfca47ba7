import Toolflow.Proofs.Tool.Unread
import Toolflow.Proofs.Workflow.Relabelling
import Toolflow.Proofs.Workflow.Replacing

/-!
# Descriptions that show the same

Two descriptions can differ in much that no output shows.

* `Node.shown`       a node without what is not shown of it: the source, if the kind is known;
* `Json.NodeAgrees`, `Json.LinkAgrees`, `Json.Agrees`   two entries, and two descriptions, that say
                     the same as far as it is shown;
* `Json.NodeUnread`, `Json.Unread`   the same under every key that is looked up.  Keys that are not
                     looked up may differ at every level, and so may the order of the keys;
* `irrelevant_input`   descriptions that agree have the same output but for the unmapped lines, and
                     descriptions that differ only in what is not read agree.

Both relations are said of the JSON values.  The first compares what is decoded, and the second is
the part of it that a writer of descriptions can check without decoding anything.
-/

namespace Toolflow

/-! ## workflows -/

/-- the node as far as it is shown -/
def Node.shown (n : Node) : Node :=
  match n.kind? with
  | some _ => { n with source := "" }
  | none => n

theorem relabels_shown : Relabels id Node.shown := by
  refine ⟨fun n => ?_, fun n => ?_, fun n => ?_, fun n hn => ?_⟩
  · unfold Node.shown
    split <;> rfl
  · unfold Node.shown
    split <;> rfl
  · unfold Node.shown
    split <;> rfl
  · rw [Node.shown, hn]

theorem Node.shown_eq {n m : Node} (hname : n.name = m.name) (hkindName : n.kindName = m.kindName)
    (hsettings : n.settings = m.settings) (hsource : n.kind? = none → n.source = m.source) :
    n.shown = m.shown := by
  have hkind : m.kind? = n.kind? := congrArg Settings.kind? hsettings.symm
  unfold Node.shown
  rw [hkind]
  cases hn : n.kind? with
  | some kind => simp only [hname, hkindName, hsettings]
  | none =>
    show n = m
    calc n = ⟨n.name, n.kindName, n.source, n.settings⟩ := rfl
      _ = ⟨m.name, m.kindName, m.source, m.settings⟩ := by
        rw [hname, hkindName, hsource hn, hsettings]

namespace Workflow

theorem document_notices_congr {v w : Workflow} (hnodes : v.nodes = w.nodes)
    (hlinks : v.links = w.links) :
    v.compile.document = w.compile.document ∧ v.compile.notices = w.compile.notices := by
  obtain ⟨_, nodes, links, _⟩ := v
  obtain ⟨_, _, _, _⟩ := w
  obtain rfl : nodes = _ := hnodes
  obtain rfl : links = _ := hlinks
  exact ⟨rfl, rfl⟩

theorem compile_shown (w : Workflow) : (w.relabel id Node.shown).compile = w.compile := by
  rw [compile_relabel relabels_shown Function.injective_id, Notice.rename_id, List.map_id]

/-- **What is not shown of the nodes has no influence.** -/
theorem compile_eq_of_shown_eq {v w : Workflow}
    (hnodes : v.nodes.map Node.shown = w.nodes.map Node.shown) (hlinks : v.links = w.links) :
    v.compile.document = w.compile.document ∧ v.compile.notices = w.compile.notices := by
  -- both compile as their shown parts do, and these are the same
  have hlinks' : v.links.map (Link.rename id) = w.links.map (Link.rename id) := by rw [hlinks]
  have h := document_notices_congr (v := v.relabel id Node.shown) (w := w.relabel id Node.shown)
    hnodes hlinks'
  rw [compile_shown, compile_shown] at h
  exact h

end Workflow

/-! ## descriptions -/

namespace Json

/-- what stands for the settings of a node -/
def config (entry : Json) : Json := (entry.get? "config").getD .null

/-- the entries of two nodes say the same as far as it is shown -/
structure NodeAgrees (a b : Json) : Prop where
  name : a.stringAt "node_id" = b.stringAt "node_id"
  kindName : a.stringAt "schema_id" = b.stringAt "schema_id"
  settings : ∀ kind : Kind, a.stringAt "schema_id" = kind.name →
    Settings.ofMembers a.config.members kind = .ofMembers b.config.members kind
  source : (∀ kind : Kind, a.stringAt "schema_id" ≠ kind.name) →
    a.stringAt "acl_source" = b.stringAt "acl_source"

structure LinkAgrees (a b : Json) : Prop where
  source : a.stringAt "from" = b.stringAt "from"
  target : a.stringAt "to" = b.stringAt "to"

/-- two descriptions say the same as far as it is shown, the unmapped lines apart -/
structure Agrees (a b : Json) : Prop where
  nodes : ∃ entries entries', a.get? "nodes" = some (.arr entries) ∧
    b.get? "nodes" = some (.arr entries') ∧ List.Forall₂ NodeAgrees entries entries'
  links : ∃ entries entries', a.get? "connections" = some (.arr entries) ∧
    b.get? "connections" = some (.arr entries') ∧ List.Forall₂ LinkAgrees entries entries'

/-- the entries of two nodes differ only in what is not read, or read and not shown -/
structure NodeUnread (a b : Json) : Prop where
  names : SameAt ["node_id", "schema_id"] a b
  config : ∀ kind : Kind, a.stringAt "schema_id" = kind.name → SameConfig kind a.config b.config
  source : (∀ kind : Kind, a.stringAt "schema_id" ≠ kind.name) → SameAt ["acl_source"] a b

/-- two descriptions differ only in what is not read, or read and not shown -/
structure Unread (a b : Json) : Prop where
  nodes : ∃ entries entries', a.get? "nodes" = some (.arr entries) ∧
    b.get? "nodes" = some (.arr entries') ∧ List.Forall₂ NodeUnread entries entries'
  links : ∃ entries entries', a.get? "connections" = some (.arr entries) ∧
    b.get? "connections" = some (.arr entries') ∧
    List.Forall₂ (SameAt ["from", "to"]) entries entries'

section
variable {a b : Json}

theorem stringAt_congr {key : String} (h : a.get? key = b.get? key) :
    a.stringAt key = b.stringAt key := by
  rw [stringAt, h, stringAt]

theorem NodeUnread.agrees (h : NodeUnread a b) : NodeAgrees a b where
  name := stringAt_congr (h.names _ (.head _))
  kindName := stringAt_congr (h.names _ (.tail _ (.head _)))
  settings := fun kind hkind => Settings.ofMembers_congr (h.config kind hkind)
  source := fun hunknown => stringAt_congr (h.source hunknown _ (.head _))

theorem Unread.agrees (h : Unread a b) : Agrees a b := by
  obtain ⟨entries, entries', ha, hb, hall⟩ := h.nodes
  obtain ⟨linkEntries, linkEntries', hlink, hlink', hlinks⟩ := h.links
  exact ⟨⟨entries, entries', ha, hb, hall.imp fun _ _ => NodeUnread.agrees⟩,
    ⟨linkEntries, linkEntries', hlink, hlink', hlinks.imp fun _ _ hsame =>
      ⟨stringAt_congr (hsame _ (.head _)), stringAt_congr (hsame _ (.tail _ (.head _)))⟩⟩⟩

/-! ## from descriptions to workflows -/

theorem NodeAgrees.shown_eq (h : NodeAgrees a b) {n m : Node} (hn : n.ReadFrom a)
    (hm : m.ReadFrom b) : n.shown = m.shown := by
  have hname : n.name = m.name := by
    rw [← stringAt_eq_iff.mpr (.inl hn.name), h.name, stringAt_eq_iff.mpr (.inl hm.name)]
  have hn_kindName : a.stringAt "schema_id" = n.kindName := stringAt_eq_iff.mpr (.inl hn.kindName)
  have hkindName : n.kindName = m.kindName := by
    rw [← hn_kindName, h.kindName, stringAt_eq_iff.mpr (.inl hm.kindName)]
  have hn_settings : n.settings = .read n.kindName a.config := hn.settings
  have hm_settings : m.settings = .read m.kindName b.config := hm.settings
  have hsettings : n.settings = m.settings := by
    rw [hn_settings, hm_settings, ← hkindName, Settings.read, Settings.read]
    cases hkind : Kind.ofName? n.kindName with
    | none => rfl
    | some kind => exact h.settings kind (hn_kindName.trans (Kind.ofName?_eq_some_iff.mp hkind))
  refine Node.shown_eq hname hkindName hsettings fun hnone => ?_
  have hunknown : ∀ kind : Kind, a.stringAt "schema_id" ≠ kind.name := by
    intro kind heq
    have hsome : n.kind? = some kind := (hn.kind kind).mpr (hn_kindName.symm.trans heq)
    rw [hnone] at hsome
    exact nomatch hsome
  rw [← stringAt_eq_iff.mpr hn.source, h.source hunknown, stringAt_eq_iff.mpr hm.source]

theorem LinkAgrees.eq (h : LinkAgrees a b) {l k : Link} (hl : l.ReadFrom a) (hk : k.ReadFrom b) :
    l = k := by
  rw [hl.eq_ofJson, hk.eq_ofJson, Link.ofJson, h.source, h.target, Link.ofJson]

/-- what was read of one list is what was read of another that agrees with it -/
theorem map_eq_of_agrees {α β : Type} {R : Json → Json → Prop} {Read : Json → α → Prop}
    {f : α → β} (hR : ∀ x y u v, R x y → Read x u → Read y v → f u = f v)
    {entries entries' : List Json} {l l' : List α} (h : List.Forall₂ R entries entries')
    (hl : List.Forall₂ Read entries l) (hl' : List.Forall₂ Read entries' l') :
    l.map f = l'.map f := by
  induction h generalizing l l' with
  | nil =>
    cases hl
    cases hl'
    rfl
  | cons hxy _ ih =>
    obtain _ | ⟨hu, hl⟩ := hl
    obtain _ | ⟨hv, hl'⟩ := hl'
    rw [List.map_cons, List.map_cons, hR _ _ _ _ hxy hu hv, ih hl hl']

/-- where nothing that is read has changed, a node is still there -/
theorem NodeUnread.exists_readFrom (h : NodeUnread a b) {n : Node} (hn : n.ReadFrom a) :
    ∃ m : Node, m.ReadFrom b := by
  refine ⟨⟨n.name, n.kindName, b.stringAt "acl_source", .read n.kindName b.config⟩, ?_,
    hn.name_ne, ?_, hn.kindName_ne, stringAt_eq_iff.mp rfl, rfl, Node.settings_read_kind _ _,
    Node.settings_read_unmapped _ _⟩
  · exact (h.names _ (.head _)).symm.trans hn.name
  · exact (h.names _ (.tail _ (.head _))).symm.trans hn.kindName

theorem Unread.exists_ofJson (h : Unread a b) {w : Workflow} (hw : w.ReadFrom a) :
    ∃ v, Workflow.ofJson b = .ok v := by
  obtain ⟨entries, entries', ha, hb, hall⟩ := h.nodes
  obtain ⟨_, linkEntries', _, hlink', _⟩ := h.links
  -- a fault of `b` would lie under a key that is read, where `a` has none
  rcases Workflow.ofJson_spec b with ⟨r, _, hfirst⟩ | ⟨v, hv, _⟩
  · exfalso
    have hfault := hfirst.1
    cases r with
    | notJson detail => exact hfault
    | misshapen fault => exact ShapeFault.not_of_parts hb hlink' fault hfault
    | badNode i fault =>
      obtain ⟨items, y, hitems, hy, hbad⟩ := hfault
      rw [hb, Option.some.injEq, Json.arr.injEq] at hitems
      subst hitems
      obtain ⟨x, hx, hxy⟩ := exists_getElem?_of_forall₂ hall.flip hy
      obtain ⟨n, _, hn⟩ := exists_getElem?_of_forall₂ (hw.forall₂_nodes ha) hx
      obtain ⟨m, hm⟩ := NodeUnread.exists_readFrom hxy hn
      exact hm.not_of fault hbad
  · exact ⟨v, hv⟩

end

end Json

/-- both values have an output, with the same document and the same notices; where they list the
same unmapped lines, the outputs are the same -/
def SameOutput (a b : Json) : Prop :=
  ∃ out out', compile a = .ok out ∧ compile b = .ok out' ∧ out.document = out'.document ∧
    out.notices = out'.notices ∧
    ((∃ lines, a.Lists "unmapped_acl" lines ∧ b.Lists "unmapped_acl" lines) → out = out')

theorem sameOutput_of_agrees {a b : Json} {v w : Workflow} (hv : v.ReadFrom a)
    (hw : w.ReadFrom b) (h : Json.Agrees a b) : SameOutput a b := by
  obtain ⟨entries, entries', ha, hb, hall⟩ := h.nodes
  obtain ⟨linkEntries, linkEntries', hlink, hlink', hlinks⟩ := h.links
  have hshown : v.nodes.map Node.shown = w.nodes.map Node.shown :=
    Json.map_eq_of_agrees (fun x y n m hxy (hn : n.ReadFrom x) (hm : m.ReadFrom y) =>
      Json.NodeAgrees.shown_eq hxy hn hm) hall (hv.forall₂_nodes ha) (hw.forall₂_nodes hb)
  have hsame : v.links.map id = w.links.map id :=
    Json.map_eq_of_agrees (fun x y l k hxy (hl : l.ReadFrom x) (hk : k.ReadFrom y) =>
      Json.LinkAgrees.eq hxy hl hk) hlinks (hv.forall₂_links hlink) (hw.forall₂_links hlink')
  rw [List.map_id, List.map_id] at hsame
  obtain ⟨hdocument, hnotices⟩ := Workflow.compile_eq_of_shown_eq hshown hsame
  refine ⟨v.compile, w.compile, compile_eq_ok_iff_readFrom.mpr ⟨v, hv, rfl⟩,
    compile_eq_ok_iff_readFrom.mpr ⟨w, hw, rfl⟩, hdocument, hnotices, ?_⟩
  rintro ⟨lines, hlines, hlines'⟩
  have hunmapped : v.compile.unmapped = w.compile.unmapped :=
    (hv.unmapped.unique hlines).trans (hw.unmapped.unique hlines').symm
  calc v.compile = ⟨v.compile.document, v.compile.notices, v.compile.unmapped⟩ := rfl
    _ = ⟨w.compile.document, w.compile.notices, w.compile.unmapped⟩ := by
      rw [hdocument, hnotices, hunmapped]

/-- **What is not shown has no influence**, whether it is decoded or not even read. -/
theorem irrelevant_input {a : Json} {v : Workflow} (h : Workflow.ofJson a = .ok v) (b : Json) :
    (∀ w, Workflow.ofJson b = .ok w → Json.Agrees a b → SameOutput a b) ∧
      (Json.Unread a b → SameOutput a b) := by
  have hv := Workflow.ofJson_eq_ok_iff_readFrom.mp h
  refine ⟨fun w hw hagrees => ?_, fun hunread => ?_⟩
  · exact sameOutput_of_agrees hv (Workflow.ofJson_eq_ok_iff_readFrom.mp hw) hagrees
  · obtain ⟨w, hw⟩ := hunread.exists_ofJson hv
    exact sameOutput_of_agrees hv (Workflow.ofJson_eq_ok_iff_readFrom.mp hw) hunread.agrees

/-- `tangled` with more said wherever nothing is read -/
def talkative : Json := .obj
  [("nodes", .arr [
    .obj [("schema_id", .str "Input"), ("node_id", .str "a"), ("acl_source", .str "OPEN x"),
      ("config", .obj [("method", .str "Last")])],
    .obj [("node_id", .str "b"), ("note", .null), ("schema_id", .str "Filter")],
    .obj [("node_id", .str "a"), ("schema_id", .str "Chart"),
      ("config", .obj [("table_name", .str "x.csv")])]]),
   ("connections", .arr [
    .obj [("to", .str "b"), ("from", .str "a")],
    .obj [("from", .str "b"), ("to", .str "a"), ("label", .str "again")],
    .obj [("from", .str "a"), ("to", .str "c")]]),
   ("workflow", .obj [("version", .str "2")]), ("unmapped_acl", .arr [.str "SET x"])]

theorem unread_talkative : Json.Unread tangled talkative := by
  have hnames : ∀ {keys : List String} {x y : Json}, (keys.map x.get? = keys.map y.get?) →
      Json.SameAt keys x y := fun h key hkey => List.map_inj_left.mp h key hkey
  refine ⟨⟨_, _, rfl, rfl, .cons ?first (.cons ?second (.cons ?third .nil))⟩,
    ⟨_, _, rfl, rfl, .cons (hnames rfl) (.cons (hnames rfl) (.cons (hnames rfl) .nil))⟩⟩
  case first =>
    refine ⟨hnames rfl, fun kind hkind => ?_, fun hunknown => absurd rfl (hunknown .input)⟩
    obtain rfl : Kind.input = kind := Kind.name_injective hkind
    exact ⟨hnames rfl, nofun⟩
  case second =>
    refine ⟨hnames rfl, fun kind hkind => ?_, fun hunknown => absurd rfl (hunknown .filter)⟩
    obtain rfl : Kind.filter = kind := Kind.name_injective hkind
    exact ⟨hnames rfl, nofun⟩
  case third =>
    refine ⟨hnames rfl, fun kind hkind => ?_, fun _ => hnames rfl⟩
    have hnone : Kind.ofName? "Chart" = none := by decide
    exact absurd hkind (Kind.ofName?_eq_none_iff.mp hnone kind)

theorem irrelevant_input_talkative : Workflow.ofJson tangled = .ok tangledWorkflow ∧
    (∀ w, Workflow.ofJson talkative = .ok w → Json.Agrees tangled talkative →
      SameOutput tangled talkative) ∧
    Json.Unread tangled talkative ∧ SameOutput tangled talkative :=
  ⟨ofJson_tangled, (irrelevant_input ofJson_tangled talkative).1, unread_talkative,
    (irrelevant_input ofJson_tangled talkative).2 unread_talkative⟩

end Toolflow
