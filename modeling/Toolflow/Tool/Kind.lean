/-!
# The kinds of tools

* `Kind`               the ten kinds a document can hold;
* `Kind.name`          what a workflow calls the kind, in exactly this spelling;
* `Kind.ofName?`       the kind of a name;
* `Kind.plugin`, `Kind.entryPoint`   what the document calls it;
* `Kind.outputAnchor`  where connections leave a tool of the kind; only three kinds have an output
                       of their own.  Connections always arrive at `inputAnchor`.
-/

namespace Toolflow

inductive Kind where
  | input
  | output
  | filter
  | summarize
  | formula
  | sort
  | join
  | select
  | sample
  | unique
  deriving Repr, DecidableEq

namespace Kind

def all : List Kind :=
  [input, output, filter, summarize, formula, sort, join, select, sample, unique]

def name : Kind → String
  | input => "Input"
  | output => "Output"
  | filter => "Filter"
  | summarize => "Summarize"
  | formula => "Formula"
  | sort => "Sort"
  | join => "Join"
  | select => "Select"
  | sample => "Sample"
  | unique => "Unique"

/-- the kind of this name -/
def ofName? (s : String) : Option Kind := all.find? (·.name == s)

def plugin : Kind → String
  | input => "AlteryxBasePluginsGui.InputData.InputData"
  | output => "AlteryxBasePluginsGui.OutputData.OutputData"
  | filter => "AlteryxBasePluginsGui.Filter.Filter"
  | summarize => "AlteryxBasePluginsGui.Summarize.Summarize"
  | formula => "AlteryxBasePluginsGui.Formula.Formula"
  | sort => "AlteryxBasePluginsGui.Sort.Sort"
  | join => "AlteryxBasePluginsGui.Join.Join"
  | select => "AlteryxBasePluginsGui.AlteryxSelect.AlteryxSelect"
  | sample => "AlteryxBasePluginsGui.Sample.Sample"
  | unique => "AlteryxBasePluginsGui.Unique.Unique"

def entryPoint : Kind → String
  | input => "AlteryxInputData"
  | output => "AlteryxOutputData"
  | filter => "AlteryxFilter"
  | summarize => "AlteryxSummarize"
  | formula => "AlteryxFormula"
  | sort => "AlteryxSort"
  | join => "AlteryxJoin"
  | select => "AlteryxSelect"
  | sample => "AlteryxSample"
  | unique => "AlteryxUnique"

/-- the anchor that connections leave from -/
def outputAnchor : Kind → String
  | filter => "True"
  | join => "Join"
  | unique => "Unique"
  | _ => "Output"

theorem name_injective {a b : Kind} (h : a.name = b.name) : a = b := by
  revert h
  cases a <;> cases b <;> decide

theorem ofName?_name (k : Kind) : ofName? k.name = some k := by cases k <;> decide

theorem ofName?_eq_some_iff {s : String} {k : Kind} : ofName? s = some k ↔ s = k.name := by
  constructor
  · intro h
    have := List.find?_some h
    simpa using (beq_iff_eq.1 this).symm
  · rintro rfl
    exact ofName?_name k

end Kind

/-- the anchor that connections arrive at -/
def inputAnchor : String := "Input"

/-- where connections leave a tool, whether its kind is known or not -/
def outputAnchorOf : Option Kind → String
  | some kind => kind.outputAnchor
  | none => "Output"

end Toolflow
