import Toolflow.Xml.Item

/-!
# The properties of a document

They are the same in every document.
-/

namespace Toolflow

open Xml (Item)

namespace Document

def metaInfo : Item :=
  .container "MetaInfo" [] [
    .value "NameIsFileName" "True",
    .empty "Description" [],
    .empty "RootToolName" [],
    .empty "ToolVersion" [],
    .value "ToolInDb" "False",
    .empty "CategoryName" [],
    .empty "SearchTags" [],
    .leaf "Author" [] "Workflow Migrator",
    .empty "Company" [],
    .empty "Copyright" []]

def properties : Item :=
  .container "Properties" [] [
    .empty "Memory" [("default", "True")],
    .value "GlobalRecordLimit" "0",
    .empty "TempFiles" [("default", "True")],
    .empty "Annotation" [("on", "True"), ("includeToolName", "False")],
    .value "ConvErrorLimit" "10",
    .value "ConvErrorLimit_Stop" "False",
    .value "CancelOnError" "False",
    .value "DisableBrowse" "False",
    .value "EnablePerformanceProfiling" "False",
    .value "PredictiveToolsCodePage" "1252",
    .value "DisableAllOutput" "False",
    .value "ShowAllMacroMessages" "False",
    .value "ShowConnectionStatusIsOn" "True",
    .value "ShowConnectionStatusOnlyWhenRunning" "True",
    .value "ZoomLevel" "0",
    .leaf "LayoutType" [] "Horizontal",
    metaInfo,
    .container "Events" [] [.value "Enabled" "True"]]

end Document

end Toolflow
