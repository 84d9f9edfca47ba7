import Toolflow.Proofs.Workflow.Shape

/-!
# Where the strings of a workflow come from

* `Json.strings`       the strings that stand anywhere in a value, keys apart;
* `Settings.strings`   the strings that settings hold, and `Node.strings` those of a node;
* `Settings.mem_strings_of_read`, `Node.ReadFrom.mem_strings`   these strings all stand in the
                       value that was read.

No reader makes up a string: what is put in the place of a setting that is absent is put there
when it is used.
-/

namespace Toolflow

namespace Json

/-! ## values -/

mutual

def strings : Json → List String
  | .str s => [s]
  | .arr items => itemStrings items
  | .obj members => memberStrings members
  | .null | .bool _ | .num _ => []

def itemStrings : List Json → List String
  | [] => []
  | v :: rest => v.strings ++ itemStrings rest

def memberStrings : List (String × Json) → List String
  | [] => []
  | (_, v) :: rest => v.strings ++ memberStrings rest

end

theorem strings_arr (items : List Json) : (arr items).strings = items.flatMap strings := by
  rw [strings]
  induction items with
  | nil => rfl
  | cons v rest ih => rw [itemStrings, ih, List.flatMap_cons]

theorem strings_obj (members : Members) :
    (obj members).strings = members.flatMap fun p => p.2.strings := by
  rw [strings]
  induction members with
  | nil => rfl
  | cons p rest ih => rw [memberStrings, ih, List.flatMap_cons]

section
variable {s : String} {v : Json} {items : List Json} {members : Members} {key : String}

theorem mem_strings_arr (hv : v ∈ items) (hs : s ∈ v.strings) : s ∈ (arr items).strings := by
  rw [strings_arr]
  exact List.mem_flatMap.mpr ⟨v, hv, hs⟩

theorem mem_strings_obj (hv : (key, v) ∈ members) (hs : s ∈ v.strings) :
    s ∈ (obj members).strings := by
  rw [strings_obj]
  exact List.mem_flatMap.mpr ⟨(key, v), hv, hs⟩

theorem mem_strings_str (s : String) : s ∈ (str s).strings := List.mem_singleton_self s

theorem mem_of_find? (h : find? members key = some v) : (key, v) ∈ members := by
  induction members with
  | nil => exact nomatch h
  | cons p rest ih =>
    rw [find?_cons] at h
    by_cases hkey : key = p.1
    · rw [if_pos hkey, Option.some.injEq] at h
      rw [hkey, ← h]
      exact List.mem_cons_self
    · rw [if_neg hkey] at h
      exact List.mem_cons_of_mem _ (ih h)

theorem mem_strings_of_get? {value : Json} (h : value.get? key = some v) (hs : s ∈ v.strings) :
    s ∈ value.strings := by
  have hmem := mem_of_find? h
  cases value with
  | obj members => exact mem_strings_obj hmem hs
  | _ => exact absurd hmem List.not_mem_nil

/-- a single setting -/
theorem mem_strings_of_setting (h : setting string? key members = some s) :
    s ∈ (obj members).strings := by
  obtain ⟨v, hv, hform⟩ := Option.bind_eq_some_iff.mp h
  obtain rfl := string?_eq_some_iff.mp hform
  exact mem_strings_obj (mem_of_find? hv) (mem_strings_str s)

/-- an entry of a list setting -/
theorem exists_of_mem_entries {α : Type} {form : Json → Option α} {a : α}
    (h : a ∈ entries form key members) :
    ∃ v, form v = some a ∧ ∀ s ∈ v.strings, s ∈ (obj members).strings := by
  unfold entries at h
  split at h
  · next items hitems =>
    obtain ⟨v, hv, hform⟩ := List.mem_filterMap.mp h
    exact ⟨v, hform, fun s hs => mem_strings_obj (mem_of_find? hitems) (mem_strings_arr hv hs)⟩
  · exact absurd h List.not_mem_nil

/-- the parts of an entry, by name or by position -/
theorem mem_strings_of_record {names : List String} (h : record? names v = some members)
    (hs : s ∈ (obj members).strings) : s ∈ v.strings := by
  cases v with
  | obj m =>
    obtain rfl := Option.some.inj h
    exact hs
  | arr items =>
    obtain ⟨_, hzip⟩ := Option.ite_none_right_eq_some.mp h
    obtain rfl := Option.some.inj hzip
    rw [strings_obj] at hs
    obtain ⟨p, hp, hs⟩ := List.mem_flatMap.mp hs
    exact mem_strings_arr (List.of_mem_zip hp).2 hs
  | _ => exact nomatch h

/-- a value that may be missing -/
theorem mem_strings_of_getD {value : Json} (h : s ∈ ((value.get? key).getD .null).strings) :
    s ∈ value.strings := by
  cases hget : value.get? key with
  | none =>
    rw [hget] at h
    exact absurd h List.not_mem_nil
  | some v =>
    rw [hget] at h
    exact mem_strings_of_get? hget h

theorem mem_strings_of_members {value : Json} (h : s ∈ (obj value.members).strings) :
    s ∈ value.strings := by
  cases value with
  | obj members => exact h
  | _ => exact absurd h List.not_mem_nil

end

end Json

/-! ## settings -/

def Aggregation.strings (a : Aggregation) : List String :=
  [a.field, a.action, a.rename].filterMap id

def Assignment.strings (a : Assignment) : List String := [a.field, a.expression].filterMap id

def SortTerm.strings (t : SortTerm) : List String := [t.field, t.order].filterMap id

def Match.strings (m : Match) : List String := [m.left, m.right].filterMap id

def Column.strings (c : Column) : List String := [c.field].filterMap id

namespace Settings

def strings : Settings → List String
  | input table | output table => table.toList
  | filter expression => expression.toList
  | summarize groups aggregations => groups ++ aggregations.flatMap Aggregation.strings
  | formula assignments => assignments.flatMap Assignment.strings
  | sort terms => terms.flatMap SortTerm.strings
  | join pairs => pairs.flatMap Match.strings
  | select columns => columns.flatMap Column.strings
  | sample _ method => method.toList
  | unique fields => fields
  | unmapped => []

end Settings

open Json (setting entries record? string?)

section
variable {s : String} {members : Json.Members} {key : String}

theorem mem_strings_of_single (h : s ∈ (setting string? key members).toList) :
    s ∈ (Json.obj members).strings :=
  Json.mem_strings_of_setting (Option.mem_toList.mp h)

theorem mem_strings_of_list (h : s ∈ entries string? key members) :
    s ∈ (Json.obj members).strings := by
  obtain ⟨v, hform, hall⟩ := Json.exists_of_mem_entries h
  obtain rfl := Json.string?_eq_some_iff.mp hform
  exact hall s (Json.mem_strings_str s)

/-- the strings of the entries of a list, where each is made of parts under these keys -/
theorem mem_strings_of_records {α : Type} {names : List String} (make : Json.Members → α)
    (strings : α → List String) (keys : List String)
    (hstrings : ∀ m, strings (make m) = (keys.map fun key => setting string? key m).filterMap id)
    (h : s ∈ (entries (fun v => (record? names v).map make) key members).flatMap strings) :
    s ∈ (Json.obj members).strings := by
  obtain ⟨a, ha, hs⟩ := List.mem_flatMap.mp h
  obtain ⟨v, hform, hall⟩ := Json.exists_of_mem_entries ha
  obtain ⟨m, hm, rfl⟩ := Option.map_eq_some_iff.mp hform
  rw [hstrings] at hs
  obtain ⟨part, hpart, hsome⟩ := List.mem_filterMap.mp hs
  obtain ⟨key, _, rfl⟩ := List.mem_map.mp hpart
  exact hall s (Json.mem_strings_of_record hm (Json.mem_strings_of_setting hsome))

/-- **The strings of settings stand in the value that they were read from.** -/
theorem Settings.mem_strings_of_read {kind : Kind} (h : s ∈ (ofMembers members kind).strings) :
    s ∈ (Json.obj members).strings := by
  cases kind with
  | input => exact mem_strings_of_single h
  | output => exact mem_strings_of_single h
  | filter => exact mem_strings_of_single h
  | summarize =>
    rcases List.mem_append.mp h with h | h
    · exact mem_strings_of_list h
    · exact mem_strings_of_records Aggregation.ofMembers Aggregation.strings Aggregation.parts
        (fun _ => rfl) h
  | formula =>
    exact mem_strings_of_records Assignment.ofMembers Assignment.strings Assignment.parts
      (fun _ => rfl) h
  | sort =>
    exact mem_strings_of_records SortTerm.ofMembers SortTerm.strings SortTerm.parts
      (fun _ => rfl) h
  | join =>
    exact mem_strings_of_records Match.ofMembers Match.strings Match.parts (fun _ => rfl) h
  | select =>
    exact mem_strings_of_records Column.ofMembers Column.strings ["field"] (fun _ => rfl) h
  | sample => exact mem_strings_of_single h
  | unique => exact mem_strings_of_list h

end

/-! ## nodes -/

/-- the strings of a node that can be shown of it, all but its name -/
def Node.strings (n : Node) : List String := n.kindName :: n.source :: n.settings.strings

/-- **The strings of a node stand in the entry that it was read from**, but for a source that is
not there. -/
theorem Node.ReadFrom.mem_strings {entry : Json} {n : Node} (h : n.ReadFrom entry) {s : String}
    (hs : s ∈ n.strings) : s = "" ∨ s ∈ entry.strings := by
  rcases List.mem_cons.mp hs with rfl | hs
  · exact .inr (Json.mem_strings_of_get? h.kindName (Json.mem_strings_str _))
  · rcases List.mem_cons.mp hs with rfl | hs
    · rcases h.source with hsource | ⟨_, hnone⟩
      · exact .inr (Json.mem_strings_of_get? hsource (Json.mem_strings_str _))
      · exact .inl hnone
    · have hread : n.settings = .read n.kindName ((entry.get? "config").getD .null) := h.settings
      rw [hread, Settings.read] at hs
      split at hs
      · exact .inr (Json.mem_strings_of_getD
          (Json.mem_strings_of_members (Settings.mem_strings_of_read hs)))
      · exact absurd hs List.not_mem_nil

theorem Workflow.ReadFrom.mem_strings {value : Json} {w : Workflow} (h : w.ReadFrom value)
    {n : Node} (hn : n ∈ w.nodes) {s : String} (hs : s ∈ n.strings) :
    s = "" ∨ s ∈ value.strings := by
  obtain ⟨entries, hentries, hall⟩ := h.nodes
  obtain ⟨i, hi⟩ := List.mem_iff_getElem?.mp hn
  obtain ⟨entry, hentry, hread⟩ := exists_getElem?_of_forall₂ hall.flip hi
  exact (Node.ReadFrom.mem_strings hread hs).imp_right fun hstring =>
    Json.mem_strings_of_get? hentries
      (Json.mem_strings_arr (List.mem_of_getElem? hentry) hstring)

end Toolflow
