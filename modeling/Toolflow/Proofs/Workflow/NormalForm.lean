import Toolflow.Proofs.Workflow.Shape
import Toolflow.Workflow.Writing

/-!
# Workflows written and read again

What `Workflow.toJson` writes of a workflow is a description of it, and so it is the normal form of
every description that the workflow was read from.

* `Json.get?_ofObject`   of the members that an object is made of, the last one of a key counts;
* `Aggregation.read?_toJson` and so on   every entry is read back as it was;
* `Settings.read_toJson`   the settings of a kind are read back under the name of the kind;
* `Node.ReadFrom.toJson`   a node that was read is read again;
* `reading_normal_form`  the workflow is read back, and so it compiles to the same output.

Where a workflow comes from is written under `metadata` but read from `workflow`, and so it is the
one thing that is lost.
-/

namespace Toolflow

namespace Json

/-! ## objects -/

theorem find?_insert (key : String) (value : Json) (members : Members) (other : String) :
    find? (insert key value members) other = find? ((key, value) :: members) other := by
  rw [find?_cons]
  by_cases h : other = key
  · rw [h, find?_insert_self, if_pos rfl]
  · rw [find?_insert_of_ne h, if_neg h]

theorem find?_append_congr (front : Members) {a b : Members} {key : String}
    (h : find? a key = find? b key) : find? (front ++ a) key = find? (front ++ b) key := by
  induction front with
  | nil => exact h
  | cons p rest ih => rw [List.cons_append, List.cons_append, find?_cons, find?_cons, ih]

theorem find?_foldl_insert (pairs : List (String × Json)) (members : Members) (key : String) :
    find? (pairs.foldl (fun m p => insert p.1 p.2 m) members) key
      = find? (pairs.reverse ++ members) key := by
  induction pairs generalizing members with
  | nil => rfl
  | cons p rest ih =>
    rw [List.foldl_cons, ih, List.reverse_cons, List.append_assoc]
    exact find?_append_congr rest.reverse (find?_insert p.1 p.2 members key)

/-- the last member of a key counts -/
theorem find?_ofPairs (pairs : List (String × Json)) (key : String) :
    find? (ofPairs pairs) key = find? pairs.reverse key := by
  rw [ofPairs, find?_foldl_insert, List.append_nil]

theorem get?_ofObject (pairs : List (String × Json)) (key : String) :
    (ofObject pairs).get? key = find? pairs.reverse key :=
  find?_ofPairs pairs key

/-! ## values -/

theorem string?_ofString? (s : Option String) : (ofString? s).string? = s := by
  cases s <;> rfl

theorem bool?_ofBool? (b : Option Bool) : (ofBool? b).bool? = b := by
  cases b <;> rfl

theorem natural?_ofNatural? (n : Option UInt64) : (ofNatural? n).natural? = n := by
  cases n <;> rfl

/-- entries that are written one by one are all read -/
theorem filterMap_map_of_read {α : Type} {write : α → Json} {read : Json → Option α}
    (h : ∀ a, read (write a) = some a) (l : List α) : (l.map write).filterMap read = l := by
  rw [List.filterMap_map]
  have hsome : read ∘ write = some := funext h
  rw [hsome, List.filterMap_some]

section
variable {α : Type} {pairs : List (String × Json)} {key : String}

theorem setting_ofPairs {form : Json → Option α} {v : Json}
    (h : find? pairs.reverse key = some v) : setting form key (ofPairs pairs) = form v := by
  rw [setting, find?_ofPairs, h, Option.bind_some]

theorem entries_ofPairs {write : α → Json} {read : Json → Option α} {l : List α}
    (hread : ∀ a, read (write a) = some a)
    (h : find? pairs.reverse key = some (.arr (l.map write))) :
    entries read key (ofPairs pairs) = l := by
  rw [entries_of_find? read key ((find?_ofPairs pairs key).trans h), filterMap_map_of_read hread]

end

end Json

open Json (setting_ofPairs entries_ofPairs string?_ofString?)

/-! ## entries -/

theorem Aggregation.read?_toJson (a : Aggregation) : read? a.toJson = some a := by
  refine congrArg some ?_
  unfold ofMembers
  rw [setting_ofPairs rfl, setting_ofPairs rfl, setting_ofPairs rfl]
  simp only [string?_ofString?]

theorem Assignment.read?_toJson (a : Assignment) : read? a.toJson = some a := by
  refine congrArg some ?_
  unfold ofMembers
  rw [setting_ofPairs rfl, setting_ofPairs rfl]
  simp only [string?_ofString?]

theorem SortTerm.read?_toJson (t : SortTerm) : read? t.toJson = some t := by
  refine congrArg some ?_
  unfold ofMembers
  rw [setting_ofPairs rfl, setting_ofPairs rfl]
  simp only [string?_ofString?]

theorem Match.read?_toJson (m : Match) : read? m.toJson = some m := by
  refine congrArg some ?_
  unfold ofMembers
  rw [setting_ofPairs rfl, setting_ofPairs rfl]
  simp only [string?_ofString?]

theorem Column.read?_toJson (c : Column) : read? c.toJson = some c := by
  refine congrArg some ?_
  unfold ofMembers
  rw [setting_ofPairs rfl, setting_ofPairs rfl]
  simp only [string?_ofString?, Json.bool?_ofBool?]

/-! ## settings -/

namespace Settings

theorem members_toJson (s : Settings) :
    s.toJson.members = Json.ofPairs (("type", .str s.typeName) :: s.fields) := rfl

theorem ofMembers_toJson {s : Settings} {kind : Kind} (h : s.kind? = some kind) :
    ofMembers s.toJson.members kind = s := by
  have hstring : ∀ t : String, (Json.str t).string? = some t := fun _ => rfl
  rw [members_toJson]
  -- `type` is no key that any kind reads, so every key leads to the field that was written
  cases s with
  | unmapped => exact nomatch h
  | input table =>
    obtain rfl : Kind.input = kind := Option.some.inj h
    exact congrArg input ((setting_ofPairs rfl).trans (string?_ofString? table))
  | output table =>
    obtain rfl : Kind.output = kind := Option.some.inj h
    exact congrArg output ((setting_ofPairs rfl).trans (string?_ofString? table))
  | filter expression =>
    obtain rfl : Kind.filter = kind := Option.some.inj h
    exact congrArg filter ((setting_ofPairs rfl).trans (string?_ofString? expression))
  | summarize groups aggregations =>
    obtain rfl : Kind.summarize = kind := Option.some.inj h
    exact congrArg₂ summarize (entries_ofPairs hstring rfl)
      (entries_ofPairs Aggregation.read?_toJson rfl)
  | formula assignments =>
    obtain rfl : Kind.formula = kind := Option.some.inj h
    exact congrArg formula (entries_ofPairs Assignment.read?_toJson rfl)
  | sort terms =>
    obtain rfl : Kind.sort = kind := Option.some.inj h
    exact congrArg sort (entries_ofPairs SortTerm.read?_toJson rfl)
  | join pairs =>
    obtain rfl : Kind.join = kind := Option.some.inj h
    exact congrArg join (entries_ofPairs Match.read?_toJson rfl)
  | select columns =>
    obtain rfl : Kind.select = kind := Option.some.inj h
    exact congrArg select (entries_ofPairs Column.read?_toJson rfl)
  | sample count method =>
    obtain rfl : Kind.sample = kind := Option.some.inj h
    exact congrArg₂ sample ((setting_ofPairs rfl).trans (Json.natural?_ofNatural? count))
      ((setting_ofPairs rfl).trans (string?_ofString? method))
  | unique fields =>
    obtain rfl : Kind.unique = kind := Option.some.inj h
    exact congrArg unique (entries_ofPairs hstring rfl)

/-- **The settings of a kind are read back under the name of the kind.** -/
theorem read_toJson {s : Settings} {kindName : String} (h : s.kind? = Kind.ofName? kindName) :
    read kindName s.toJson = s := by
  unfold read
  cases hkind : Kind.ofName? kindName with
  | some kind => exact ofMembers_toJson (h.trans hkind)
  | none =>
    rw [hkind] at h
    cases s with
    | unmapped => rfl
    | _ => exact nomatch h

end Settings

/-! ## nodes and links -/

theorem Node.ReadFrom.toJson {entry : Json} {n : Node} (h : n.ReadFrom entry) :
    n.ReadFrom n.toJson := by
  have hkind : n.settings.kind? = Kind.ofName? n.kindName :=
    Option.ext fun kind => (h.kind kind).trans Kind.ofName?_eq_some_iff.symm
  constructor
  case name => exact Json.get?_ofObject _ _
  case name_ne => exact h.name_ne
  case kindName => exact Json.get?_ofObject _ _
  case kindName_ne => exact h.kindName_ne
  case source => exact .inl (Json.get?_ofObject _ _)
  case settings =>
    have hconfig : n.toJson.get? "config" = some n.settings.toJson := Json.get?_ofObject _ _
    rw [hconfig]
    exact (Settings.read_toJson hkind).symm
  case kind => exact h.kind
  case unmapped => exact h.unmapped

theorem Link.readFrom_toJson (l : Link) : l.ReadFrom l.toJson :=
  ⟨.inl (Json.get?_ofObject _ _), .inl (Json.get?_ofObject _ _)⟩

/-! ## workflows -/

/-- nothing is said about where the workflow comes from -/
def Origin.unknown : Origin := ⟨none, none, none⟩

theorem Origin.readFrom_unknown {value : Json} (h : value.get? "workflow" = none) :
    Origin.unknown.ReadFrom value := by
  have hnone : ∀ key s, ¬ ∃ v : Json, value.get? "workflow" = some v ∧
      v.get? key = some (.str s) := by
    rintro key s ⟨v, hv, _⟩
    rw [h] at hv
    exact nomatch hv
  exact ⟨fun s => iff_of_false nofun (hnone "version" s),
    fun s => iff_of_false nofun (hnone "source" s),
    fun s => iff_of_false nofun (hnone "schema_version" s)⟩

theorem Json.lists_ofStrings {value : Json} {key : String} {lines : List String}
    (h : value.get? key = some (.ofStrings lines)) : value.Lists key lines := by
  refine .inl ⟨_, h, ?_⟩
  rw [List.filter_eq_self.mpr]
  intro v hv
  obtain ⟨s, _, rfl⟩ := List.mem_map.mp hv
  rfl

theorem Workflow.ReadFrom.toJson {value : Json} {w : Workflow} (h : w.ReadFrom value) :
    ({ w with origin := .unknown } : Workflow).ReadFrom w.toJson := by
  constructor
  case nodes =>
    obtain ⟨entries, _, hall⟩ := h.nodes
    refine ⟨w.nodes.map Node.toJson, Json.get?_ofObject _ _, ?_⟩
    rw [List.forall₂_map_left_iff, List.forall₂_same]
    intro n hn
    obtain ⟨i, hi⟩ := List.mem_iff_getElem?.mp hn
    obtain ⟨entry, _, hentry⟩ := exists_getElem?_of_forall₂ hall.flip hi
    exact hentry.toJson
  case links =>
    refine ⟨w.links.map Link.toJson, Json.get?_ofObject _ _, ?_⟩
    rw [List.forall₂_map_left_iff, List.forall₂_same]
    exact fun l _ => l.readFrom_toJson
  case unmapped => exact Json.lists_ofStrings (Json.get?_ofObject _ _)
  case origin => exact Origin.readFrom_unknown (Json.get?_ofObject _ _)

/-- **A workflow that was read is read back from what is written of it**, all but where it comes
from, and compiles to the same output. -/
theorem reading_normal_form {value : Json} {w : Workflow} (h : Workflow.ofJson value = .ok w) :
    Workflow.ofJson w.toJson = .ok { w with origin := .unknown } ∧
      compile w.toJson = compile value := by
  have hread : Workflow.ofJson w.toJson = .ok { w with origin := .unknown } :=
    Workflow.ofJson_eq_ok_iff_readFrom.mpr (Workflow.ofJson_eq_ok_iff_readFrom.mp h).toJson
  refine ⟨hread, ?_⟩
  -- the origin is in no part of an output
  rw [compile, hread, compile, h]
  rfl

/-- a value with an origin, with entries of both forms and with a number of 64 bits -/
def detailed : Json := .obj
  [("connections", .arr [.obj [("from", .num .real), ("to", .str "b")]]),
   ("nodes", .arr [
    .obj [("config", .obj [("agg_fields", .arr [.arr [.str "x"], .null])]),
      ("node_id", .str "a"), ("schema_id", .str "Summarize")],
    .obj [("config", .obj [("n", .num (.natural 18446744073709551615))]),
      ("node_id", .str "b"), ("schema_id", .str "Sample")]]),
   ("unmapped_acl", .arr [.str "OPEN x", .null]),
   ("workflow", .obj [("version", .str "1")])]

def detailedWorkflow : Workflow where
  origin := ⟨some "1", none, none⟩
  nodes := [⟨"a", "Summarize", "", .summarize [] [⟨some "x", none, none⟩]⟩,
    ⟨"b", "Sample", "", .sample (some 18446744073709551615) none⟩]
  links := [⟨"", "b"⟩]
  unmapped := ["OPEN x"]

theorem reading_normal_form_detailed : Workflow.ofJson detailed = .ok detailedWorkflow ∧
    Workflow.ofJson detailedWorkflow.toJson
      = .ok { detailedWorkflow with origin := .unknown } ∧
    compile detailedWorkflow.toJson = compile detailed :=
  ⟨rfl, reading_normal_form rfl⟩

end Toolflow
