import Toolflow.Json.Basic
import Toolflow.Tool.Settings

/-!
# Settings read from JSON

Settings are read with patience: nothing that stands there can make the reading fail.

* A single setting is there if its key holds a value of the right form (`setting`).
* A list setting keeps the entries that can be read, in order, and is empty where there is no
  array (`entries`).
* An entry of named parts is an object, or an array that gives the parts by position
  (`record?`).  An array with more elements than there are parts is no entry.  A part of the
  wrong form is absent.

`Settings.read` looks up every key on its own, so no setting has an influence on another one.
-/

namespace Toolflow

namespace Json

/-- the value of a key, if it is there and has the right form -/
def setting {α : Type} (form : Json → Option α) (key : String) (members : Members) : Option α :=
  (find? members key).bind form

/-- the usable entries of a key that holds an array -/
def entries {α : Type} (form : Json → Option α) (key : String) (members : Members) : List α :=
  match find? members key with
  | some (.arr items) => items.filterMap form
  | _ => []

/-- the parts of an entry by their names -/
def record? (names : List String) : Json → Option Members
  | .obj members => some members
  | .arr items => if items.length ≤ names.length then some (names.zip items) else none
  | _ => none

section
variable {α : Type} (form : Json → Option α) (key : String)

theorem entries_of_find? {members : Members} {items : List Json}
    (h : find? members key = some (.arr items)) :
    entries form key members = items.filterMap form := by
  simp [entries, h]

end

end Json

open Json (setting entries record? string? bool? natural?)

/-! ## entries -/

namespace Aggregation

def parts : List String := ["field", "action", "rename"]

def ofMembers (m : Json.Members) : Aggregation where
  field := setting string? "field" m
  action := setting string? "action" m
  rename := setting string? "rename" m

def read? (v : Json) : Option Aggregation := (record? parts v).map ofMembers

end Aggregation

namespace Assignment

def parts : List String := ["field", "expression"]

def ofMembers (m : Json.Members) : Assignment where
  field := setting string? "field" m
  expression := setting string? "expression" m

def read? (v : Json) : Option Assignment := (record? parts v).map ofMembers

end Assignment

namespace SortTerm

def parts : List String := ["field", "order"]

def ofMembers (m : Json.Members) : SortTerm where
  field := setting string? "field" m
  order := setting string? "order" m

def read? (v : Json) : Option SortTerm := (record? parts v).map ofMembers

end SortTerm

namespace Match

def parts : List String := ["left", "right"]

def ofMembers (m : Json.Members) : Match where
  left := setting string? "left" m
  right := setting string? "right" m

def read? (v : Json) : Option Match := (record? parts v).map ofMembers

end Match

namespace Column

def parts : List String := ["field", "selected"]

def ofMembers (m : Json.Members) : Column where
  field := setting string? "field" m
  selected := setting bool? "selected" m

def read? (v : Json) : Option Column := (record? parts v).map ofMembers

end Column

/-! ## settings -/

namespace Settings

/-- the settings of a kind, from the members of what stands for them -/
def ofMembers (m : Json.Members) : Kind → Settings
  | .input => .input (setting string? "table_name" m)
  | .output => .output (setting string? "table_name" m)
  | .filter => .filter (setting string? "filter_expression" m)
  | .summarize =>
    .summarize (entries string? "group_fields" m) (entries Aggregation.read? "agg_fields" m)
  | .formula => .formula (entries Assignment.read? "formulas" m)
  | .sort => .sort (entries SortTerm.read? "sort_keys" m)
  | .join => .join (entries Match.read? "join_fields" m)
  | .select => .select (entries Column.read? "select_fields" m)
  | .sample => .sample (setting natural? "n" m) (setting string? "method" m)
  | .unique => .unique (entries string? "unique_fields" m)

/-- the settings of a tool whose kind has this name; a value that is no object says nothing -/
def read (kindName : String) (config : Json) : Settings :=
  match Kind.ofName? kindName with
  | some kind => ofMembers config.members kind
  | none => .unmapped

theorem kind?_ofMembers (m : Json.Members) (kind : Kind) :
    (ofMembers m kind).kind? = some kind := by
  cases kind <;> rfl

theorem kind?_read (kindName : String) (config : Json) :
    (read kindName config).kind? = Kind.ofName? kindName := by
  unfold read
  split
  · next kind h => rw [h, kind?_ofMembers]
  · next h => rw [h]; rfl

end Settings

end Toolflow
