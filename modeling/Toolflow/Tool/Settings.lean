import Toolflow.Tool.Kind

/-!
# What a tool is told to do

`Settings` holds, kind by kind, what a workflow says about a tool, and nothing that it does not
say: a setting that is absent or unusable is none.  What is done in its place is decided where the
setting is used (`Toolflow.Tool.Defaults`).  A tool of no known kind has no settings.

The entries of the list settings:

* `Aggregation`  a field, what is computed of it, and the name of the result;
* `Assignment`   a field and the expression it is set to;
* `SortTerm`     a field and the direction it is sorted in;
* `Match`        a field on each side of a join;
* `Column`       a field and whether it is kept.
-/

namespace Toolflow

structure Aggregation where
  field : Option String
  action : Option String
  rename : Option String
  deriving Repr, DecidableEq

structure Assignment where
  field : Option String
  expression : Option String
  deriving Repr, DecidableEq

structure SortTerm where
  field : Option String
  order : Option String
  deriving Repr, DecidableEq

structure Match where
  left : Option String
  right : Option String
  deriving Repr, DecidableEq

structure Column where
  field : Option String
  selected : Option Bool
  deriving Repr, DecidableEq

inductive Settings where
  | input (table : Option String)
  | output (table : Option String)
  | filter (expression : Option String)
  | summarize (groups : List String) (aggregations : List Aggregation)
  | formula (assignments : List Assignment)
  | sort (terms : List SortTerm)
  | join (pairs : List Match)
  | select (columns : List Column)
  | sample (count : Option UInt64) (method : Option String)
  | unique (fields : List String)
  | unmapped
  deriving Repr, DecidableEq

/-- the kind of tool that these settings are for -/
def Settings.kind? : Settings → Option Kind
  | input _ => some .input
  | output _ => some .output
  | filter _ => some .filter
  | summarize _ _ => some .summarize
  | formula _ => some .formula
  | sort _ => some .sort
  | join _ => some .join
  | select _ => some .select
  | sample _ _ => some .sample
  | unique _ => some .unique
  | unmapped => none

end Toolflow
