import Toolflow.Json.Basic
import Toolflow.Tool.Settings

/-!
# Settings as JSON

An object that names the kind under `type` and every setting of the kind under the key it is read
from; null stands for what is absent.
-/

namespace Toolflow

open Json (ofObject ofString? ofBool?)

def Aggregation.toJson (a : Aggregation) : Json :=
  ofObject [("field", ofString? a.field), ("action", ofString? a.action),
    ("rename", ofString? a.rename)]

def Assignment.toJson (a : Assignment) : Json :=
  ofObject [("field", ofString? a.field), ("expression", ofString? a.expression)]

def SortTerm.toJson (t : SortTerm) : Json :=
  ofObject [("field", ofString? t.field), ("order", ofString? t.order)]

def Match.toJson (m : Match) : Json :=
  ofObject [("left", ofString? m.left), ("right", ofString? m.right)]

def Column.toJson (c : Column) : Json :=
  ofObject [("field", ofString? c.field), ("selected", ofBool? c.selected)]

namespace Settings

/-- what `type` says -/
def typeName (s : Settings) : String :=
  match s.kind? with
  | some kind => kind.name
  | none => "Unmapped"

/-- the settings with their keys -/
def fields : Settings → List (String × Json)
  | input table => [("table_name", ofString? table)]
  | output table => [("table_name", ofString? table)]
  | filter expression => [("filter_expression", ofString? expression)]
  | summarize groups aggregations =>
    [("group_fields", .ofStrings groups), ("agg_fields", .arr (aggregations.map (·.toJson)))]
  | formula assignments => [("formulas", .arr (assignments.map (·.toJson)))]
  | sort terms => [("sort_keys", .arr (terms.map (·.toJson)))]
  | join pairs => [("join_fields", .arr (pairs.map (·.toJson)))]
  | select columns => [("select_fields", .arr (columns.map (·.toJson)))]
  | sample count method => [("n", .ofNatural? count), ("method", ofString? method)]
  | unique fields => [("unique_fields", .ofStrings fields)]
  | unmapped => []

def toJson (s : Settings) : Json := ofObject (("type", .str s.typeName) :: s.fields)

end Settings

end Toolflow
