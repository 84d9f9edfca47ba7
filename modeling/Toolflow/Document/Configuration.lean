import Toolflow.Tool.Defaults
import Toolflow.Xml.Item

/-!
# What a document says about the settings of a tool

* `Settings.configuration`   the content of the tool's `Configuration` element, and
                             `configurationAttrs` its attributes;
* `Settings.label`           the text that annotates the tool.

Settings that are absent appear as their defaults.
-/

namespace Toolflow

open Xml (Attr Item)

/-! ## files -/

/-- a file with the code of its format -/
def fileItem (name : String) : Item :=
  .leaf "File" [("FileFormat", toString (FileFormat.ofName name).code)] name

def inputItems (file : String) : List Item :=
  [fileItem file,
    .container "FormatSpecificOptions" [] [
      .leaf "HeaderRow" [] "True",
      .leaf "FieldLen" [] "254",
      .leaf "Delimeter" [] ",",
      .leaf "IgnoreQuotes" [] "DoubleQuotes"]]

def outputItems (file : String) : List Item :=
  [fileItem file,
    .container "FormatSpecificOptions" [] [
      .leaf "PreserveFormat" [] "True",
      .leaf "SingleFile" [] "True"],
    .value "MultiFile" "False"]

/-! ## entries -/

/-- a field that the result is grouped by -/
def groupItem (field : String) : Item :=
  .empty "SummarizeField" [("field", field), ("action", "GroupBy"), ("rename", field)]

def Aggregation.item (a : Aggregation) : Item :=
  .empty "SummarizeField"
    [("field", plain a.field), ("action", plain a.action), ("rename", a.result)]

def Assignment.item (a : Assignment) : Item :=
  .empty "FormulaField"
    [("expression", plain a.expression), ("field", plain a.field),
      ("size", "1073741823"), ("type", "V_WString")]

def SortTerm.item (t : SortTerm) : Item :=
  .empty "Field" [("field", plain t.field), ("order", plain t.order)]

def Match.item (m : Match) : Item :=
  .empty "JoinField" [("LeftField", plain m.left), ("RightField", plain m.right)]

def Column.item (c : Column) : Item :=
  .empty "SelectField"
    [("field", plain c.field), ("selected", if c.isSelected then "True" else "False")]

def uniqueItem (field : String) : Item := .empty "Field" [("field", field)]

/-! ## settings -/

namespace Settings

def configuration : Settings → List Item
  | input table => inputItems (inputFile table)
  | output table => outputItems (outputFile table)
  | filter expression =>
    [.leaf "Expression" [] (filterExpression expression), .leaf "Mode" [] "Custom"]
  | summarize groups aggregations =>
    [.container "SummarizeFields" []
      (groups.map groupItem ++ aggregations.map Aggregation.item)]
  | formula assignments => [.container "FormulaFields" [] (assignments.map Assignment.item)]
  | sort terms => [.container "SortInfo" [] (terms.map SortTerm.item)]
  | join pairs => [.container "JoinFields" [] (pairs.map Match.item)]
  | select columns => [.container "SelectFields" [] (columns.map Column.item)]
  | sample count method =>
    [.leaf "Mode" [] (sampleMethod method),
      .leaf "N" [] (toString (sampleCount count).toNat)]
  | unique fields => [.container "UniqueFields" [] (fields.map uniqueItem)]
  | unmapped => []

def configurationAttrs : Settings → List Attr
  | join _ => [("joinByRecordPos", "False")]
  | _ => []

def label : Settings → String
  | input table => inputFile table
  | output table => outputFile table
  | filter expression => filterExpression expression
  | formula assignments => formulaLabel assignments
  | _ => ""

end Settings

end Toolflow
