import Toolflow.Proofs.Document.Graph
import Toolflow.Proofs.Workflow.Replacing

/-!
# Connections without an end

An entry of the connections is never a reason to refuse a value.  Where it has no string for one of
its ends, it is read as a link from or to the empty name, and whether this is a link between nodes
is asked of the nodes alone.

* `Json.Unusable`      the entry has no name under a key, for whatever reason;
* `Workflow.ReadFrom.not_named_empty`   no node that is read has the empty name: the check of the
                       nodes is all that keeps such a link from being drawn;
* `Workflow.filter_looseAt`   the notices on the link of an index, which are one or none;
* `LeftOut`            an entry without influence on the document and the arcs, reported once;
* `unusable_entry_left_out`   so is every entry with an unusable end, and it keeps its index.

`wires_eraseIdx` and `link_ne_of_mem_arcs` are about any link with an end that is no node.
-/

namespace Toolflow

open Document Xml

/-! ## ends that cannot be used -/

namespace Json

/-- the entry is no object, or what it has under this key is no name -/
def Unusable (entry : Json) (key : String) : Prop :=
  (∀ members, entry ≠ .obj members) ∨ entry.get? key = none ∨
    (∃ v, entry.get? key = some v ∧ ∀ s, v ≠ .str s) ∨ entry.get? key = some (.str "")

variable {entry : Json} {key : String}

theorem Unusable.stringAt_eq (h : entry.Unusable key) : entry.stringAt key = "" := by
  have hno_key : entry.get? key = none → entry.Says key "" := by
    intro hnone
    exact .inr ⟨fun t ht => Option.some_ne_none _ (ht.symm.trans hnone), rfl⟩
  rw [stringAt_eq_iff]
  rcases h with hobj | hnone | ⟨v, hv, hstr⟩ | hempty
  · exact hno_key (get?_eq_none_of_ne_obj hobj)
  · exact hno_key hnone
  · exact .inr ⟨fun t ht => hstr t (Option.some.inj (hv.symm.trans ht)), rfl⟩
  · exact .inl hempty

end Json

theorem Workflow.ReadFrom.not_named_empty {value : Json} {w : Workflow} (h : w.ReadFrom value) :
    ¬ Named w.nodes "" := by
  intro hnamed
  obtain ⟨i, n, hn, hname⟩ := named_iff_getElem?.mp hnamed
  obtain ⟨entries, _, hall⟩ := h.nodes
  obtain ⟨entry, _, hread⟩ := exists_getElem?_of_forall₂ hall.flip hn
  exact hread.name_ne hname

/-! ## links without an end -/

section
variable {nodes : List Node} {links : List Link} {i : Nat} {l : Link}

theorem Unresolved.not_named (h : Unresolved nodes links i) (hl : links[i]? = some l) :
    ¬ (Named nodes l.source ∧ Named nodes l.target) := by
  obtain ⟨l', hl', hnot⟩ := h
  obtain rfl : l = l' := Option.some.inj (hl.symm.trans hl')
  exact hnot

namespace Layout

theorem wire?_of_unresolved (h : Unresolved nodes links i) (hl : links[i]? = some l) :
    (ofNodes nodes).wire? l = none := by
  rw [← Option.not_isSome_iff_eq_none, isSome_wire?_ofNodes]
  exact h.not_named hl

theorem wires_eraseIdx (h : Unresolved nodes links i) :
    (ofNodes nodes).wires (links.eraseIdx i) = (ofNodes nodes).wires links := by
  obtain ⟨l, hl, hnot⟩ := h
  exact filterMap_eraseIdx hl (wire?_of_unresolved ⟨l, hl, hnot⟩ hl)

theorem link_ne_of_mem_arcs (h : Unresolved nodes links i) :
    ∀ arc ∈ (ofNodes nodes).arcs links, arc.link ≠ i := by
  rintro arc harc rfl
  obtain ⟨l, hl, harc⟩ := mem_arcs_iff.mp harc
  rw [arc?_eq, wire?_of_unresolved h hl] at harc
  cases harc

theorem exists_missing_of_unresolved (h : Unresolved nodes links i) (hl : links[i]? = some l) :
    ∃ missing, (ofNodes nodes).missing? l = some missing := by
  have hnone : false = ((ofNodes nodes).missing? l).isNone := by
    rw [← isSome_wire?, wire?_of_unresolved h hl]
    rfl
  exact Option.isSome_iff_exists.mp (Option.isNone_eq_false_iff.mp hnone.symm)

end Layout

end

/-- a document does not depend on links that are not drawn -/
theorem Workflow.document_eraseIdx {w : Workflow} {i : Nat} (h : Unresolved w.nodes w.links i) :
    ({ w with links := w.links.eraseIdx i } : Workflow).compile.document = w.compile.document := by
  have hwires := Layout.wires_eraseIdx h
  show render _ (.ofNodes w.nodes) = render w (.ofNodes w.nodes)
  rw [render, render, root, root, wireItems, wireItems, hwires]

/-- the notice says that the link of this index has an end that is no node -/
def Notice.looseAt (i : Nat) : Notice → Bool
  | dangling index _ _ _ => index = i
  | _ => false

theorem Workflow.filter_looseAt (w : Workflow) (i : Nat) :
    w.compile.notices.filter (·.looseAt i)
      = ((w.links[i]?.bind (unresolved? (.ofNodes w.nodes))).map fun x =>
        .dangling i x.1.source x.1.target x.2).toList := by
  have hcode : ∀ notice : Notice, notice.looseAt i = true → notice.code = "W001" := by
    intro notice h
    cases notice with
    | dangling index source target missing => rfl
    | unmapped tool kindName => cases h
    | duplicate name first tool => cases h
    | cycle => cases h
  have hindex : ((·.looseAt i) ∘ fun x : Nat × Link × Missing =>
      Notice.dangling x.1 x.2.1.source x.2.1.target x.2.2) = fun x => decide (x.1 = i) := rfl
  rw [Output.filter_eq_filter_coded hcode, coded_unresolved, dangling_eq_numbered, List.filter_map,
    hindex, filter_numbered]
  cases w.links[i]?.bind (unresolved? (.ofNodes w.nodes)) <;> rfl

/-! ## entries -/

/-- the entry of this index is reported once, and otherwise the output is one without it -/
structure LeftOut (value : Json) (entries : List Json) (w : Workflow) (doc : Tree) (i : Nat)
    (entry : Json) : Prop where
  connections : OneEach
    (fun j => j ≠ i ∧ ∃ l, w.links[j]? = some l ∧ Named w.nodes l.source ∧ Named w.nodes l.target)
    (fun j c => ∃ l, w.links[j]? = some l ∧ Draws w doc w.compile.notices l c)
    (doc.named "Connection")
  arcs : ∀ arc ∈ (Layout.ofWorkflow w).arcs w.links, arc.link ≠ i
  without : ∃ out, compile (value.replace "connections" (.arr (entries.eraseIdx i))) = .ok out ∧
    out.document = w.compile.document
  reported : ∃ missing, w.compile.notices.filter (·.looseAt i)
      = [.dangling i (entry.stringAt "from") (entry.stringAt "to") missing] ∧
    (entry.Unusable "from" → missing.hasSource = true) ∧
    (entry.Unusable "to" → missing.hasDestination = true)

section
variable {value entry : Json} {w : Workflow} {entries : List Json} {i : Nat}

theorem unresolved_of_unusable (hread : w.ReadFrom value)
    (hlink : w.links[i]? = some (.ofJson entry))
    (hends : entry.Unusable "from" ∨ entry.Unusable "to") : Unresolved w.nodes w.links i := by
  refine ⟨.ofJson entry, hlink, fun hnamed => hread.not_named_empty ?_⟩
  rcases hends with hfrom | hto
  · rw [← hfrom.stringAt_eq]
    exact hnamed.1
  · rw [← hto.stringAt_eq]
    exact hnamed.2

theorem missing_of_unusable (hread : w.ReadFrom value) {missing : Missing}
    (h : (Layout.ofNodes w.nodes).missing? (.ofJson entry) = some missing) :
    (entry.Unusable "from" → missing.hasSource = true) ∧
      (entry.Unusable "to" → missing.hasDestination = true) := by
  have hempty : (Layout.ofNodes w.nodes).find? "" = none :=
    Layout.find?_ofNodes_eq_none_iff.mpr hread.not_named_empty
  obtain ⟨hsource, hdestination⟩ := Missing.ofFound_eq_some_iff.mp h
  rw [hsource, hdestination]
  constructor
  · intro hfrom
    rw [Link.ofJson, hfrom.stringAt_eq, hempty]
    rfl
  · intro hto
    rw [Link.ofJson, hto.stringAt_eq, hempty]
    rfl

theorem leftOut_of_unusable (hread : w.ReadFrom value)
    (hentries : value.get? "connections" = some (.arr entries)) (hentry : entries[i]? = some entry)
    (hends : entry.Unusable "from" ∨ entry.Unusable "to") :
    LeftOut value entries w (documentTree w) i entry := by
  have hall := hread.forall₂_links hentries
  obtain ⟨l, hl, hlink⟩ := exists_getElem?_of_forall₂ hall hentry
  rw [hlink.eq_ofJson] at hl
  have hloose := unresolved_of_unusable hread hl hends
  refine ⟨?connections, Layout.link_ne_of_mem_arcs hloose, ?without, ?reported⟩
  case connections =>
    refine (oneEach_connections w).imp (fun j => ?_) fun _ _ => id
    refine ⟨fun hj => ⟨?_, hj⟩, And.right⟩
    rintro rfl
    obtain ⟨l, hl, hnamed⟩ := hj
    exact hloose.not_named hl hnamed
  case without =>
    have hread' := hread.replace_links (forall₂_eraseIdx hall i)
    exact ⟨_, compile_eq_ok_iff_readFrom.mpr ⟨_, hread', rfl⟩, Workflow.document_eraseIdx hloose⟩
  case reported =>
    obtain ⟨missing, hmissing⟩ := Layout.exists_missing_of_unresolved hloose hl
    refine ⟨missing, ?_, missing_of_unusable hread hmissing⟩
    rw [Workflow.filter_looseAt, hl, Option.bind_some, Workflow.unresolved?, hmissing]
    rfl

end

/-- **What cannot be a connection is reported and not drawn.** -/
theorem unusable_entry_left_out {value : Json} {w : Workflow} (h : Workflow.ofJson value = .ok w) :
    ∃ entries doc, value.get? "connections" = some (.arr entries) ∧
      compile value = .ok w.compile ∧ document? isLeaf w.compile.document = some doc ∧
      ∀ i entry, entries[i]? = some entry → entry.Unusable "from" ∨ entry.Unusable "to" →
        LeftOut value entries w doc i entry := by
  have hread := Workflow.ofJson_eq_ok_iff_readFrom.mp h
  obtain ⟨entries, hentries, _⟩ := hread.links
  exact ⟨entries, documentTree w, hentries, compile_eq_ok_iff.mpr ⟨w, h, rfl⟩,
    document?_compile w, fun i entry => leftOut_of_unusable hread hentries⟩

/-- connections that are a number, that have no second end, that have no name for either end; the
two around them are one connection, described twice -/
def frayedEntries : List Json := [
  .obj [("from", .str "a"), ("to", .str "b")], .num (.natural 42), .obj [("from", .str "a")],
  .obj [("from", .bool true), ("to", .str "")], .obj [("from", .str "a"), ("to", .str "b")]]

def frayed : Json := .obj
  [("connections", .arr frayedEntries),
   ("nodes", .arr [.obj [("node_id", .str "a"), ("schema_id", .str "Input")],
      .obj [("node_id", .str "b"), ("schema_id", .str "Output")]])]

def frayedWorkflow : Workflow where
  origin := ⟨none, none, none⟩
  nodes := [⟨"a", "Input", "", .input none⟩, ⟨"b", "Output", "", .output none⟩]
  links := [⟨"a", "b"⟩, ⟨"", ""⟩, ⟨"a", ""⟩, ⟨"", ""⟩, ⟨"a", "b"⟩]
  unmapped := []

theorem ofJson_frayed : Workflow.ofJson frayed = .ok frayedWorkflow := rfl

theorem unusable_entry_left_out_frayed : Workflow.ofJson frayed = .ok frayedWorkflow ∧
    compile frayed = .ok frayedWorkflow.compile ∧
    ∃ doc, document? isLeaf frayedWorkflow.compile.document = some doc ∧
      LeftOut frayed frayedEntries frayedWorkflow doc 1 (.num (.natural 42)) ∧
      LeftOut frayed frayedEntries frayedWorkflow doc 2 (.obj [("from", .str "a")]) ∧
      LeftOut frayed frayedEntries frayedWorkflow doc 3
        (.obj [("from", .bool true), ("to", .str "")]) := by
  obtain ⟨entries, doc, hentries, hcompile, hdoc, hleft⟩ := unusable_entry_left_out ofJson_frayed
  obtain rfl : frayedEntries = entries := Json.arr.inj (Option.some.inj hentries)
  refine ⟨ofJson_frayed, hcompile, doc, hdoc, hleft 1 _ rfl ?number, hleft 2 _ rfl ?half,
    hleft 3 _ rfl ?unnamed⟩
  case number => exact .inl (.inl fun _ h => by cases h)
  case half => exact .inr (.inr (.inl rfl))
  case unnamed => exact .inr (.inr (.inr (.inr rfl)))

end Toolflow
