import Toolflow.Document.Configuration
import Toolflow.Proofs.Workflow.Replacing
import Toolflow.Tool.Writing

/-!
# What is made of each setting, key by key

Every setting is decoded from the value of its own key, and what the document shows of it is that
value or a default.

* `Json.valueAt`        the value of a key, null where there is none.  An absent key and a null are
                        the same to every reader (`setting_eq`, `entries_eq`);
* `Kind.decoders`       how a kind decodes each of its keys; `fields_read` says that settings are
                        decoded in this way, one key at a time;
* `UsesText`, `UsesPlain`, `UsesCount`, `UsesChoice`   what is used of a value that is given: the
                        value itself, if it is of the right form, and else the default;
* `Kind.Shows`          what the document shows of a tool, said of the values that are given;
* `settings_key_by_key`   no key has an influence on the setting of another one, and the document
                        shows what the values that are given call for.
-/

namespace Toolflow

open Xml (Item)

namespace Json

/-! ## values of keys -/

/-- the value of a key, null where there is none -/
def valueAt (value : Json) (key : String) : Json := (value.get? key).getD .null

/-- the elements of an array; every other value has none -/
def elements (value : Json) : List Json := value.items?.getD []

/-- the usable entries of named parts, as objects -/
def records (parts : List String) (value : Json) : List Json :=
  value.elements.filterMap fun entry => (record? parts entry).map .obj

/-- the usable entries that are strings -/
def texts (value : Json) : List String := value.elements.filterMap string?

section
variable {α : Type} (value : Json) (key : String)

theorem setting_eq {form : Json → Option α} (hnull : form .null = none) :
    setting form key value.members = form (value.valueAt key) := by
  unfold setting valueAt get?
  cases find? value.members key with
  | none => exact hnull.symm
  | some v => rfl

theorem entries_eq (form : Json → Option α) :
    entries form key value.members = (value.valueAt key).elements.filterMap form := by
  unfold entries valueAt get?
  cases find? value.members key with
  | none => rfl
  | some v => cases v <;> rfl

/-- entries of named parts are made one by one, each from its parts -/
theorem entries_record_eq (parts : List String) (make : Members → α) :
    entries (fun v => (record? parts v).map make) key value.members
      = ((value.valueAt key).records parts).map fun entry => make entry.members := by
  rw [entries_eq, records, List.map_filterMap]
  refine congrArg (List.filterMap · _) (funext fun entry => ?_)
  rw [Option.map_map]
  rfl

end

end Json

open Json (setting_eq entries_eq entries_record_eq)

/-! ## decoding -/

namespace Kind

/-- the keys of a kind, each with what is decoded of its value -/
def decoders : Kind → List (String × (Json → Json))
  | input | output => [("table_name", fun v => .ofString? v.string?)]
  | filter => [("filter_expression", fun v => .ofString? v.string?)]
  | summarize => [("group_fields", fun v => .ofStrings v.texts),
    ("agg_fields", fun v => .arr ((v.elements.filterMap Aggregation.read?).map (·.toJson)))]
  | formula =>
    [("formulas", fun v => .arr ((v.elements.filterMap Assignment.read?).map (·.toJson)))]
  | sort => [("sort_keys", fun v => .arr ((v.elements.filterMap SortTerm.read?).map (·.toJson)))]
  | join => [("join_fields", fun v => .arr ((v.elements.filterMap Match.read?).map (·.toJson)))]
  | select =>
    [("select_fields", fun v => .arr ((v.elements.filterMap Column.read?).map (·.toJson)))]
  | sample => [("n", fun v => .ofNatural? v.natural?), ("method", fun v => .ofString? v.string?)]
  | unique => [("unique_fields", fun v => .ofStrings v.texts)]

end Kind

theorem Json.find?_map {α : Type} (f : String → α → Json) (l : List (String × α))
    (key : String) :
    find? (l.map fun p => (p.1, f p.1 p.2)) key = (l.lookup key).map (f key) := by
  induction l with
  | nil => rfl
  | cons p rest ih =>
    obtain ⟨k, a⟩ := p
    rw [List.map_cons, find?_cons, ih, List.lookup_cons]
    by_cases h : key = k
    · rw [if_pos h, h, beq_self_eq_true]
      rfl
    · rw [if_neg h, beq_false_of_ne h]

namespace Settings

theorem read_name (kind : Kind) (config : Json) :
    read kind.name config = ofMembers config.members kind := by
  rw [read, Kind.ofName?_name]

/-- **Every setting is decoded from the value of its own key.** -/
theorem fields_read (kind : Kind) (config : Json) :
    (read kind.name config).fields
      = kind.decoders.map fun p => (p.1, p.2 (config.valueAt p.1)) := by
  have hstring : Json.null.string? = none := rfl
  have hnatural : Json.null.natural? = none := rfl
  rw [read_name]
  cases kind <;>
    simp only [ofMembers, fields, Kind.decoders, List.map_cons, List.map_nil, entries_eq,
      setting_eq _ _ hstring, setting_eq _ _ hnatural, Json.texts]

theorem find?_fields_read (kind : Kind) (config : Json) (key : String) :
    Json.find? (read kind.name config).fields key
      = (kind.decoders.lookup key).map fun decode => decode (config.valueAt key) := by
  rw [fields_read]
  exact Json.find?_map (fun k decode => decode (config.valueAt k)) kind.decoders key

end Settings

/-! ## what is used -/

/-- of a text with a default: what is given, if it is a string and not empty, else the default -/
def UsesText (standard : String) (given : Json) (used : String) : Prop :=
  given = .str used ∧ used ≠ "" ∨ (∀ s, given = .str s → s = "") ∧ used = standard

/-- of a text without a default: what is given, if it is a string, else nothing -/
def UsesPlain (given : Json) (used : String) : Prop :=
  given = .str used ∨ (∀ s, given ≠ .str s) ∧ used = ""

/-- of a count: what is given, if it is a whole number from 1 to the greatest of 64 bits, else 1 -/
def UsesCount (given : Json) (used : UInt64) : Prop :=
  given = .num (.natural used) ∧ used ≠ 0 ∨ (∀ n, given = .num (.natural n) → n = 0) ∧ used = 1

/-- of a choice: what is given, if it is a truth value, else true -/
def UsesChoice (given : Json) (used : Bool) : Prop :=
  given = .bool used ∨ (∀ b, given ≠ .bool b) ∧ used = true

section
variable {standard : String} {given : Json}

theorem usesText_orDefault : UsesText standard given (orDefault standard given.string?) := by
  cases given with
  | str s =>
    by_cases hs : s = ""
    · subst hs
      exact .inr ⟨fun t ht => (Json.str.inj ht).symm, rfl⟩
    · have hused : orDefault standard (Json.str s).string? = s := if_neg hs
      rw [hused]
      exact .inl ⟨rfl, hs⟩
  | _ => exact .inr ⟨fun s hs => (nomatch hs), rfl⟩

theorem usesPlain_plain : UsesPlain given (plain given.string?) := by
  cases given with
  | str s => exact .inl rfl
  | _ => exact .inr ⟨fun s hs => (nomatch hs), rfl⟩

theorem usesCount_sampleCount : UsesCount given (sampleCount given.natural?) := by
  cases given with
  | num x =>
    cases x with
    | natural n =>
      by_cases hn : n = 0
      · subst hn
        exact .inr ⟨fun m hm => (Json.Number.natural.inj (Json.num.inj hm)).symm, rfl⟩
      · have hused : sampleCount (Json.num (.natural n)).natural? = n := if_neg hn
        rw [hused]
        exact .inl ⟨rfl, hn⟩
    | _ => exact .inr ⟨fun n hn => (nomatch hn), rfl⟩
  | _ => exact .inr ⟨fun n hn => (nomatch hn), rfl⟩

theorem usesChoice_getD : UsesChoice given (given.bool?.getD true) := by
  cases given with
  | bool b => exact .inl rfl
  | _ => exact .inr ⟨fun b hb => (nomatch hb), rfl⟩

theorem UsesText.ne_empty {used : String} (h : UsesText standard given used)
    (hstandard : standard ≠ "") : used ≠ "" := by
  rcases h with ⟨_, hne⟩ | ⟨_, rfl⟩
  · exact hne
  · exact hstandard

theorem UsesCount.ne_zero {used : UInt64} (h : UsesCount given used) : used ≠ 0 := by
  rcases h with ⟨_, hne⟩ | ⟨_, rfl⟩
  · exact hne
  · decide

end

/-! ## what is shown -/

/-- an aggregation: its result is called after the action and the field if it has no name -/
def ShowsAggregation (entry : Json) (item : Item) : Prop :=
  ∃ field action result, UsesPlain (entry.valueAt "field") field ∧
    UsesPlain (entry.valueAt "action") action ∧
    UsesText (action ++ "_" ++ field) (entry.valueAt "rename") result ∧
    item = .empty "SummarizeField" [("field", field), ("action", action), ("rename", result)]

/-- an entry of two plain texts -/
def ShowsPair (first second : String) (make : String → String → Item) (entry : Json)
    (item : Item) : Prop :=
  ∃ a b, UsesPlain (entry.valueAt first) a ∧ UsesPlain (entry.valueAt second) b ∧ item = make a b

def ShowsColumn (entry : Json) (item : Item) : Prop :=
  ∃ field selected, UsesPlain (entry.valueAt "field") field ∧
    UsesChoice (entry.valueAt "selected") selected ∧
    item = .empty "SelectField"
      [("field", field), ("selected", if selected then "True" else "False")]

/-- the label of a formula tool -/
def ShowsFormula (entries : List Json) (label : String) : Prop :=
  entries = [] ∧ label = "Formula" ∨ ∃ entry rest field expression, entries = entry :: rest ∧
    UsesPlain (entry.valueAt "field") field ∧
    UsesPlain (entry.valueAt "expression") expression ∧ label = field ++ " = " ++ expression

/-- the document shows of these settings what the values that are given under the keys of the kind
call for -/
def Kind.Shows (given : String → Json) (s : Settings) : Kind → Prop
  | input => ∃ file, UsesText "input.csv" (given "table_name") file ∧ file ≠ "" ∧
    s.configuration = inputItems file ∧ s.label = file
  | output => ∃ file, UsesText "output.yxdb" (given "table_name") file ∧ file ≠ "" ∧
    s.configuration = outputItems file ∧ s.label = file
  | filter => ∃ expression, UsesText "1=1" (given "filter_expression") expression ∧
    expression ≠ "" ∧ s.label = expression ∧
    s.configuration = [.leaf "Expression" [] expression, .leaf "Mode" [] "Custom"]
  | summarize => ∃ items, List.Forall₂ ShowsAggregation
      ((given "agg_fields").records Aggregation.parts) items ∧ s.label = "" ∧
    s.configuration = [.container "SummarizeFields" []
      ((given "group_fields").texts.map groupItem ++ items)]
  | formula => ∃ items, List.Forall₂ (ShowsPair "field" "expression" fun field expression =>
        .empty "FormulaField" [("expression", expression), ("field", field),
          ("size", "1073741823"), ("type", "V_WString")])
      ((given "formulas").records Assignment.parts) items ∧
    ShowsFormula ((given "formulas").records Assignment.parts) s.label ∧
    s.configuration = [.container "FormulaFields" [] items]
  | sort => ∃ items, List.Forall₂ (ShowsPair "field" "order" fun field order =>
        .empty "Field" [("field", field), ("order", order)])
      ((given "sort_keys").records SortTerm.parts) items ∧ s.label = "" ∧
    s.configuration = [.container "SortInfo" [] items]
  | join => ∃ items, List.Forall₂ (ShowsPair "left" "right" fun left right =>
        .empty "JoinField" [("LeftField", left), ("RightField", right)])
      ((given "join_fields").records Match.parts) items ∧ s.label = "" ∧
    s.configuration = [.container "JoinFields" [] items]
  | select => ∃ items, List.Forall₂ ShowsColumn
      ((given "select_fields").records Column.parts) items ∧ s.label = "" ∧
    s.configuration = [.container "SelectFields" [] items]
  | sample => ∃ count method, UsesCount (given "n") count ∧ count ≠ 0 ∧
    UsesText "First" (given "method") method ∧ method ≠ "" ∧ s.label = "" ∧
    s.configuration = [.leaf "Mode" [] method, .leaf "N" [] (toString count.toNat)]
  | unique => s.label = "" ∧ s.configuration =
    [.container "UniqueFields" [] ((given "unique_fields").texts.map uniqueItem)]

section
variable (entry : Json)

theorem usesPlain_setting (key : String) :
    UsesPlain (entry.valueAt key) (plain (Json.setting Json.string? key entry.members)) := by
  rw [setting_eq entry key rfl]
  exact usesPlain_plain

theorem usesText_setting (standard key : String) :
    UsesText standard (entry.valueAt key)
      (orDefault standard (Json.setting Json.string? key entry.members)) := by
  rw [setting_eq entry key rfl]
  exact usesText_orDefault

theorem showsAggregation_item :
    ShowsAggregation entry (Aggregation.ofMembers entry.members).item :=
  ⟨_, _, _, usesPlain_setting entry "field", usesPlain_setting entry "action",
    usesText_setting entry _ "rename", rfl⟩

theorem showsColumn_item : ShowsColumn entry (Column.ofMembers entry.members).item := by
  have hchoice : UsesChoice (entry.valueAt "selected")
      (Column.ofMembers entry.members).isSelected := by
    rw [Column.isSelected, Column.ofMembers, setting_eq entry "selected" rfl]
    exact usesChoice_getD
  exact ⟨_, _, usesPlain_setting entry "field", hchoice, rfl⟩

end

/-- entries are shown one by one -/
theorem forall₂_map_shown {α : Type} (make : Json.Members → α) (item : α → Item)
    {Shows : Json → Item → Prop} (h : ∀ entry : Json, Shows entry (item (make entry.members)))
    (entries : List Json) :
    List.Forall₂ Shows entries ((entries.map fun entry => make entry.members).map item) := by
  rw [List.map_map, List.forall₂_map_right_iff]
  exact List.forall₂_same.mpr fun entry _ => h entry

theorem showsFormula_label (entries : List Json) :
    ShowsFormula entries
      (formulaLabel (entries.map fun entry => Assignment.ofMembers entry.members)) := by
  cases entries with
  | nil => exact .inl ⟨rfl, rfl⟩
  | cons entry rest =>
    exact .inr ⟨entry, rest, _, _, rfl, usesPlain_setting entry "field",
      usesPlain_setting entry "expression", rfl⟩

/-- what is decoded of a value is shown as the value calls for -/
theorem Settings.shows_ofMembers (kind : Kind) (config : Json) :
    kind.Shows config.valueAt (ofMembers config.members kind) := by
  cases kind with
  | input =>
    have h := usesText_setting config "input.csv" "table_name"
    exact ⟨_, h, h.ne_empty (by decide), rfl, rfl⟩
  | output =>
    have h := usesText_setting config "output.yxdb" "table_name"
    exact ⟨_, h, h.ne_empty (by decide), rfl, rfl⟩
  | filter =>
    have h := usesText_setting config "1=1" "filter_expression"
    exact ⟨_, h, h.ne_empty (by decide), rfl, rfl⟩
  | summarize =>
    refine ⟨_, forall₂_map_shown Aggregation.ofMembers Aggregation.item showsAggregation_item _,
      rfl, ?_⟩
    rw [← entries_record_eq, Json.texts, ← entries_eq]
    rfl
  | formula =>
    refine ⟨_, forall₂_map_shown Assignment.ofMembers Assignment.item
      (fun entry => ⟨_, _, usesPlain_setting entry "field", usesPlain_setting entry "expression",
        rfl⟩) _, ?_, ?_⟩
    · show ShowsFormula _ (formulaLabel (Json.entries _ _ _))
      unfold Assignment.read?
      rw [entries_record_eq]
      exact showsFormula_label _
    · rw [← entries_record_eq]
      rfl
  | sort =>
    refine ⟨_, forall₂_map_shown SortTerm.ofMembers SortTerm.item
      (fun entry => ⟨_, _, usesPlain_setting entry "field", usesPlain_setting entry "order",
        rfl⟩) _, rfl, ?_⟩
    rw [← entries_record_eq]
    rfl
  | join =>
    refine ⟨_, forall₂_map_shown Match.ofMembers Match.item
      (fun entry => ⟨_, _, usesPlain_setting entry "left", usesPlain_setting entry "right",
        rfl⟩) _, rfl, ?_⟩
    rw [← entries_record_eq]
    rfl
  | select =>
    refine ⟨_, forall₂_map_shown Column.ofMembers Column.item showsColumn_item _, rfl, ?_⟩
    rw [← entries_record_eq]
    rfl
  | sample =>
    have hmethod := usesText_setting config "First" "method"
    have hcount : UsesCount (config.valueAt "n")
        (sampleCount (Json.setting Json.natural? "n" config.members)) := by
      rw [setting_eq config "n" rfl]
      exact usesCount_sampleCount
    exact ⟨_, _, hcount, hcount.ne_zero, hmethod, hmethod.ne_empty (by decide), rfl, rfl⟩
  | unique =>
    refine ⟨rfl, ?_⟩
    rw [Json.texts, ← entries_eq]
    rfl

/-! ## the policy -/

/-- the settings of a sample with a count and a method -/
def sampling : Json := .obj [("method", .str "Last"), ("n", .num (.natural 5))]

/-- the same count, but the method is no string -/
def samplingSomehow : Json := .obj [("method", .arr [.null]), ("n", .num (.natural 5))]

end Toolflow
