import Toolflow.Json.Basic

/-!
# What is reported and drawn all the same

* `Notice.dangling`    a link names a node that does not exist; it is left out;
* `Notice.unmapped`    a tool is of no known kind; a comment stands in its place;
* `Notice.duplicate`   a tool has the name of an earlier one;
* `Notice.cycle`       the links form a cycle.

`Missing.ofFound` says which ends of a link are missing.
-/

namespace Toolflow

inductive Missing where
  | source
  | destination
  | both
  deriving Repr, DecidableEq

namespace Missing

/-- which ends are missing, when these are found; none if neither is -/
def ofFound (source destination : Bool) : Option Missing :=
  match source, destination with
  | true, true => none
  | false, true => some .source
  | true, false => some .destination
  | false, false => some .both

def name : Missing → String
  | source => "source"
  | destination => "destination"
  | both => "both"

def hasSource : Missing → Bool
  | destination => false
  | _ => true

def hasDestination : Missing → Bool
  | source => false
  | _ => true

theorem ofFound_eq_none_iff {s d : Bool} : ofFound s d = none ↔ s = true ∧ d = true := by
  cases s <;> cases d <;> decide

theorem ofFound_eq_some_iff {s d : Bool} {m : Missing} :
    ofFound s d = some m ↔ (m.hasSource = !s) ∧ (m.hasDestination = !d) := by
  cases s <;> cases d <;> cases m <;> decide

end Missing

inductive Notice where
  | dangling (index : Nat) (source target : String) (missing : Missing)
  | unmapped (tool : Nat) (kindName : String)
  | duplicate (name : String) (first tool : Nat)
  | cycle
  deriving Repr, DecidableEq

namespace Notice

def code : Notice → String
  | dangling _ _ _ _ => "W001"
  | unmapped _ _ => "W002"
  | duplicate _ _ _ => "W003"
  | cycle => "W004"

def message : Notice → String
  | dangling _ source target missing =>
    s!"Skipping connection \"{source}\" -> \"{target}\":"
      ++ (if missing.hasSource then s!" source node \"{source}\" not found." else "")
      ++ (if missing.hasDestination then s!" destination node \"{target}\" not found." else "")
  | unmapped tool kindName =>
    s!"Unknown schema_id \"{kindName}\" on tool {tool}; rendered as a comment"
  | duplicate name first tool =>
    s!"Duplicate node_id \"{name}\" on tools {first} and {tool}; "
      ++ s!"connections resolve to tool {tool}"
  | cycle => "Connections form a cycle"

/-- the parts of a notice by name -/
def toJson : Notice → Json
  | dangling index source target missing =>
    .ofObject [("kind", .str "dangling_connection"), ("index", .ofNat index),
      ("from", .str source), ("to", .str target), ("missing", .str missing.name)]
  | unmapped tool kindName =>
    .ofObject [("kind", .str "unmapped_node"), ("tool_id", .ofNat tool),
      ("schema_id", .str kindName)]
  | duplicate name first tool =>
    .ofObject [("kind", .str "duplicate_node_id"), ("node_id", .str name),
      ("first_tool_id", .ofNat first), ("tool_id", .ofNat tool)]
  | cycle => .ofObject [("kind", .str "cyclic_connections")]

end Notice

end Toolflow
