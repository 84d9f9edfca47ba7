import Mathlib.Data.List.Nodup
import Toolflow.Proofs.Tool.Policy
import Toolflow.Proofs.Tool.Unread
import Toolflow.Proofs.Workflow.NormalForm

/-!
# Lists, entry by entry

An array under a list key is read element by element: one either gives an entry or is passed over,
and no element has an influence on another one.

* `Settings.listAt`    the entries under a key, as they are written;
* `Kind.listed`        the entries that a kind reads of a value under one of its keys;
* `partValue`          what is kept of the value of a part: nothing, if it has the wrong form;
* `entryOf`            the entry of the members of an object;
* `kept?`              what is kept of one element, and `listed_eq` says that lists are read so;
* `EntryByEntry`       how the entries of a list come about;
* `lists_read_entry_by_entry`   so it is for every list of every kind.

The entries of some lists have no parts; they are strings (`Kind.listKeys`).  Nothing is lost by
looking at entries as they are written, because they are read back as they were
(`Settings.read_toJson`).
-/

namespace Toolflow

open Json (record? setting)

/-! ## entries -/

/-- the entries under a key, as they are written -/
def Settings.listAt (s : Settings) (key : String) : List Json :=
  ((Json.find? s.fields key).getD .null).elements

/-- the entries that a tool of this kind reads of a value under this key -/
def Kind.listed (kind : Kind) (key : String) (value : Json) : List Json :=
  (Settings.read kind.name (.obj [(key, value)])).listAt key

/-- the value of a part if it has the right form, else null: `selected` says whether, and every
other part says what -/
def partValue (name : String) : Option Json → Json
  | some (.bool b) => if name = "selected" then .bool b else .null
  | some (.str s) => if name = "selected" then .null else .str s
  | _ => .null

/-- the entry with these parts, from the members of an object -/
def entryOf (parts : List String) (m : Json.Members) : Json :=
  .ofObject (parts.map fun name => (name, partValue name (Json.find? m name)))

/-- what is kept of an element; where entries have no parts, they are strings -/
def kept? (parts : List String) (element : Json) : Option Json :=
  if parts = [] then element.string?.map .str else (record? parts element).map (entryOf parts)

section
variable (m : Json.Members) {name : String}

theorem partValue_eq_ofString? (h : name ≠ "selected") :
    Json.ofString? (setting Json.string? name m) = partValue name (Json.find? m name) := by
  unfold setting
  cases Json.find? m name with
  | none => rfl
  | some v =>
    cases v with
    | str s => exact (if_neg h).symm
    | bool b => exact (if_neg h).symm
    | _ => rfl

theorem partValue_eq_ofBool? :
    Json.ofBool? (setting Json.bool? "selected" m)
      = partValue "selected" (Json.find? m "selected") := by
  unfold setting
  cases Json.find? m "selected" with
  | none => rfl
  | some v => cases v <;> rfl

theorem Aggregation.toJson_ofMembers : (ofMembers m).toJson = entryOf parts m := by
  unfold ofMembers toJson
  rw [partValue_eq_ofString? m (by decide), partValue_eq_ofString? m (by decide),
    partValue_eq_ofString? m (by decide)]
  rfl

theorem Assignment.toJson_ofMembers : (ofMembers m).toJson = entryOf parts m := by
  unfold ofMembers toJson
  rw [partValue_eq_ofString? m (by decide), partValue_eq_ofString? m (by decide)]
  rfl

theorem SortTerm.toJson_ofMembers : (ofMembers m).toJson = entryOf parts m := by
  unfold ofMembers toJson
  rw [partValue_eq_ofString? m (by decide), partValue_eq_ofString? m (by decide)]
  rfl

theorem Match.toJson_ofMembers : (ofMembers m).toJson = entryOf parts m := by
  unfold ofMembers toJson
  rw [partValue_eq_ofString? m (by decide), partValue_eq_ofString? m (by decide)]
  rfl

theorem Column.toJson_ofMembers : (ofMembers m).toJson = entryOf parts m := by
  unfold ofMembers toJson
  rw [partValue_eq_ofString? m (by decide), partValue_eq_ofBool?]
  rfl

end

/-! ## lists -/

section
variable {α : Type} {make : Json.Members → α} {write : α → Json}

/-- entries of named parts are read and written one by one -/
theorem map_write_filterMap {parts : List String} (hparts : parts ≠ [])
    (hwrite : ∀ m, write (make m) = entryOf parts m) (elements : List Json) :
    (elements.filterMap fun v => (record? parts v).map make).map write
      = elements.filterMap (kept? parts) := by
  rw [List.map_filterMap]
  refine congrArg (List.filterMap · elements) (funext fun v => ?_)
  rw [Option.map_map, kept?, if_neg hparts]
  exact congrArg (Option.map · (record? parts v)) (funext hwrite)

theorem map_str_texts (value : Json) :
    value.texts.map .str = value.elements.filterMap (kept? []) := by
  rw [Json.texts, List.map_filterMap]
  rfl

end

section
variable {kind : Kind} {key : String} {parts : List String} (h : (key, parts) ∈ kind.listKeys)
include h

/-- what is decoded under a list key is what is kept of the elements -/
theorem exists_decoder : ∃ decode, kind.decoders.lookup key = some decode ∧
    ∀ value : Json, decode value = .arr (value.elements.filterMap (kept? parts)) := by
  have hne : ∀ (name : String) names, name :: names ≠ [] := List.cons_ne_nil
  cases kind with
  | summarize =>
    rcases List.mem_pair.mp h with h | h
    · obtain ⟨rfl, rfl⟩ := Prod.mk.inj h
      exact ⟨_, rfl, fun value => congrArg Json.arr (map_str_texts value)⟩
    · obtain ⟨rfl, rfl⟩ := Prod.mk.inj h
      exact ⟨_, rfl, fun value => congrArg Json.arr
        (map_write_filterMap (hne _ _) Aggregation.toJson_ofMembers value.elements)⟩
  | formula =>
    obtain ⟨rfl, rfl⟩ := Prod.mk.inj (List.mem_singleton.mp h)
    exact ⟨_, rfl, fun value => congrArg Json.arr
      (map_write_filterMap (hne _ _) Assignment.toJson_ofMembers value.elements)⟩
  | sort =>
    obtain ⟨rfl, rfl⟩ := Prod.mk.inj (List.mem_singleton.mp h)
    exact ⟨_, rfl, fun value => congrArg Json.arr
      (map_write_filterMap (hne _ _) SortTerm.toJson_ofMembers value.elements)⟩
  | join =>
    obtain ⟨rfl, rfl⟩ := Prod.mk.inj (List.mem_singleton.mp h)
    exact ⟨_, rfl, fun value => congrArg Json.arr
      (map_write_filterMap (hne _ _) Match.toJson_ofMembers value.elements)⟩
  | select =>
    obtain ⟨rfl, rfl⟩ := Prod.mk.inj (List.mem_singleton.mp h)
    exact ⟨_, rfl, fun value => congrArg Json.arr
      (map_write_filterMap (hne _ _) Column.toJson_ofMembers value.elements)⟩
  | unique =>
    obtain ⟨rfl, rfl⟩ := Prod.mk.inj (List.mem_singleton.mp h)
    exact ⟨_, rfl, fun value => congrArg Json.arr (map_str_texts value)⟩
  | _ => exact absurd h List.not_mem_nil

/-- **Every list is read element by element.** -/
theorem listAt_read (config : Json) :
    (Settings.read kind.name config).listAt key
      = (config.valueAt key).elements.filterMap (kept? parts) := by
  obtain ⟨decode, hlookup, hdecode⟩ := exists_decoder h
  rw [Settings.listAt, Settings.find?_fields_read, hlookup, Option.map_some, hdecode]
  rfl

theorem listed_eq (value : Json) :
    kind.listed key value = value.elements.filterMap (kept? parts) := by
  have hvalue : (Json.obj [(key, value)]).valueAt key = value := by
    rw [Json.valueAt, Json.get?, Json.members, Json.find?_cons, if_pos rfl]
    rfl
  rw [Kind.listed, listAt_read h, hvalue]

theorem listed_singleton (element : Json) :
    kind.listed key (.arr [element]) = (kept? parts element).toList := by
  rw [listed_eq h]
  show List.filterMap (kept? parts) [element] = _
  rw [List.filterMap_cons, List.filterMap_nil]
  cases kept? parts element <;> rfl

theorem nodup_parts : parts.Nodup := by
  cases kind with
  | summarize =>
    rcases List.mem_pair.mp h with h | h
    · obtain ⟨rfl, rfl⟩ := Prod.mk.inj h
      exact List.nodup_nil
    · obtain ⟨rfl, rfl⟩ := Prod.mk.inj h
      decide
  | formula | sort | join | select | unique =>
    obtain ⟨rfl, rfl⟩ := Prod.mk.inj (List.mem_singleton.mp h)
    decide
  | _ => exact absurd h List.not_mem_nil

end

/-- a setting that is a list stands under one of the list keys -/
theorem exists_mem_listKeys {kind : Kind} {config : Json} {key : String} {items : List Json}
    (h : (key, .arr items) ∈ (Settings.read kind.name config).fields) :
    ∃ parts, (key, parts) ∈ kind.listKeys := by
  have hstring : ∀ s, Json.ofString? s ≠ .arr items := by rintro (_ | s) <;> exact nofun
  have hcount : ∀ n, Json.ofNatural? n ≠ .arr items := by rintro (_ | n) <;> exact nofun
  rw [Settings.fields_read] at h
  obtain ⟨p, hp, heq⟩ := List.mem_map.mp h
  obtain ⟨rfl, hlist⟩ := Prod.mk.inj heq
  cases kind with
  | input | output | filter =>
    rw [List.mem_singleton.mp hp] at hlist
    exact absurd hlist (hstring _)
  | sample =>
    rcases List.mem_pair.mp hp with rfl | rfl
    · exact absurd hlist (hcount _)
    · exact absurd hlist (hstring _)
  | summarize =>
    rcases List.mem_pair.mp hp with rfl | rfl
    · exact ⟨[], .head _⟩
    · exact ⟨Aggregation.parts, .tail _ (.head _)⟩
  | formula | sort | join | select | unique =>
    rw [List.mem_singleton.mp hp]
    exact ⟨_, .head _⟩

/-! ## entries by position -/

namespace Json

/-- where no key is repeated, the last member of a key is the first one -/
theorem find?_reverse {pairs : Members} (h : (pairs.map Prod.fst).Nodup) (key : String) :
    find? pairs.reverse key = find? pairs key := by
  induction pairs with
  | nil => rfl
  | cons p rest ih =>
    obtain ⟨k, v⟩ := p
    rw [List.map_cons, List.nodup_cons] at h
    have hrest : find? rest.reverse key = find? rest key := ih h.2
    have happend : find? (rest.reverse ++ [(k, v)]) key
        = (find? rest.reverse key).or (find? [(k, v)] key) := List.lookup_append
    rw [List.reverse_cons, happend, hrest, find?_cons, find?_cons, find?_nil]
    by_cases hkey : key = k
    · have hnone : find? rest key = none := by
        refine List.lookup_eq_none_iff.mpr fun q hq => bne_iff_ne.mpr ?_
        rintro heq
        exact h.1 (List.mem_map.mpr ⟨q, hq, heq.symm.trans hkey⟩)
      rw [hnone, if_pos hkey]
      rfl
    · rw [if_neg hkey, Option.or_none, if_neg hkey]

theorem map_fst_zip (names : List String) (items : List Json) :
    (names.zip items).map Prod.fst = names.take items.length := by
  induction names generalizing items with
  | nil => simp
  | cons name rest ih =>
    cases items with
    | nil => rfl
    | cons v items =>
      rw [List.zip_cons_cons, List.map_cons, ih, List.length_cons, List.take_succ_cons]

end Json

/-- an array names its parts by their positions -/
theorem kept?_arr {parts : List String} (hparts : parts.Nodup) {items : List Json}
    (hitems : items.length ≤ parts.length) :
    kept? parts (.arr items) = kept? parts (.ofObject (parts.zip items)) := by
  have hkeys : ((parts.zip items).map Prod.fst).Nodup := by
    rw [Json.map_fst_zip]
    exact hparts.sublist (List.take_sublist _ _)
  have hentry : entryOf parts (parts.zip items)
      = entryOf parts (Json.ofPairs (parts.zip items)) := by
    refine congrArg Json.ofObject (List.map_congr_left fun name _ => ?_)
    rw [Json.find?_ofPairs, Json.find?_reverse hkeys]
  unfold kept?
  by_cases hnil : parts = []
  · rw [if_pos hnil, if_pos hnil]
    rfl
  · rw [if_neg hnil, if_neg hnil, record?, if_pos hitems, Option.map_some, hentry]
    rfl

theorem isSome_record? {parts : List String} {element : Json} :
    (record? parts element).isSome ↔ (∃ m, element = .obj m) ∨
      ∃ items, element = .arr items ∧ items.length ≤ parts.length := by
  cases element with
  | obj m => exact iff_of_true rfl (.inl ⟨m, rfl⟩)
  | arr items =>
    rw [record?]
    by_cases hitems : items.length ≤ parts.length
    · rw [if_pos hitems]
      exact iff_of_true rfl (.inr ⟨items, rfl, hitems⟩)
    · rw [if_neg hitems]
      refine iff_of_false Bool.false_ne_true ?_
      rintro (⟨m, hm⟩ | ⟨items', heq, hle⟩)
      · exact nomatch hm
      · exact hitems (Json.arr.inj heq ▸ hle)
  | _ => exact iff_of_false Bool.false_ne_true (by rintro (⟨_, h⟩ | ⟨_, h, _⟩) <;> exact nomatch h)

/-! ## how lists are read -/

/-- how the entries under a key of a kind come about, where entries have these parts -/
structure EntryByEntry (kind : Kind) (key : String) (parts : List String) : Prop where
  /-- nothing but the value of the key is read -/
  own_key : ∀ config, (Settings.read kind.name config).listAt key
    = kind.listed key (config.valueAt key)
  append : ∀ a b, kind.listed key (.arr (a ++ b))
    = kind.listed key (.arr a) ++ kind.listed key (.arr b)
  not_array : ∀ value, (∀ items, value ≠ .arr items) → kind.listed key value = []
  /-- where entries have no parts, a string is an entry, and nothing else is -/
  text : parts = [] → ∀ element, kind.listed key (.arr [element])
    = if element.string?.isSome then [element] else []
  kept_iff : parts ≠ [] → ∀ element, kind.listed key (.arr [element]) ≠ [] ↔
    (∃ m, element = .obj m) ∨ ∃ items, element = .arr items ∧ items.length ≤ parts.length
  /-- a part of the wrong form is null -/
  members : parts ≠ [] → ∀ m, kind.listed key (.arr [.obj m]) = [entryOf parts m]
  /-- an array is the object that has its elements under the names of the first parts -/
  positions : ∀ items, items.length ≤ parts.length →
    kind.listed key (.arr [.arr items]) = kind.listed key (.arr [.ofObject (parts.zip items)])

theorem entryByEntry {kind : Kind} {key : String} {parts : List String}
    (h : (key, parts) ∈ kind.listKeys) : EntryByEntry kind key parts := by
  refine ⟨fun config => ?own_key, fun a b => ?append, fun value hvalue => ?not_array,
    fun hparts element => ?text, fun hparts element => ?kept_iff, fun hparts m => ?members,
    fun items hitems => ?positions⟩
  case own_key => rw [listAt_read h, listed_eq h]
  case append =>
    rw [listed_eq h, listed_eq h, listed_eq h]
    exact List.filterMap_append
  case not_array =>
    rw [listed_eq h]
    cases value with
    | arr items => exact absurd rfl (hvalue items)
    | _ => rfl
  case text =>
    rw [listed_singleton h, kept?, if_pos hparts]
    cases element <;> rfl
  case kept_iff =>
    rw [listed_singleton h, kept?, if_neg hparts, ← isSome_record?]
    cases record? parts element <;> simp
  case members =>
    rw [listed_singleton h, kept?, if_neg hparts]
    rfl
  case positions =>
    rw [listed_singleton h, listed_singleton h, kept?_arr (nodup_parts h) hitems]

/-- **Lists are read entry by entry.**  No setting that is a list is left out. -/
theorem lists_read_entry_by_entry (kind : Kind) :
    (∀ config key items, (key, .arr items) ∈ (Settings.read kind.name config).fields →
      ∃ parts, (key, parts) ∈ kind.listKeys) ∧
      ∀ key parts, (key, parts) ∈ kind.listKeys → EntryByEntry kind key parts :=
  ⟨fun _ _ _ => exists_mem_listKeys, fun _ _ => entryByEntry⟩

theorem lists_read_entry_by_entry_aggregations :
    ("agg_fields", ["field", "action", "rename"]) ∈ Kind.summarize.listKeys ∧
      EntryByEntry .summarize "agg_fields" ["field", "action", "rename"] := by
  have hkey : ("agg_fields", ["field", "action", "rename"]) ∈ Kind.summarize.listKeys :=
    .tail _ (.head _)
  exact ⟨hkey, (lists_read_entry_by_entry .summarize).2 _ _ hkey⟩

end Toolflow
