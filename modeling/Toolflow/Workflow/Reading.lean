import Toolflow.Rejection
import Toolflow.Tool.Reading
import Toolflow.Workflow.Basic

/-!
# Workflows read from JSON

`Workflow.ofJson` refuses a value at the first of these faults, in this order:

1. it is no object;
2. `nodes`, and then `connections`, is missing or null, or no array;
3. an entry of `nodes`, the first such one counts, is no object, has no name, or has no name of a
   kind.  A name is a string that is not empty.

Nothing else is refused.  An endpoint of a connection that is no string is empty, and so it is the
name of no node.
-/

namespace Toolflow

/-! ## parts -/

/-- the elements of a list that a workflow must have -/
def Part.read (part : Part) (value : Json) : Except Rejection (List Json) :=
  match value.get? part.key with
  | none | some .null => .error (.misshapen (.missing part))
  | some (.arr items) => .ok items
  | some _ => .error (.misshapen (.notList part))

/-- the string of a key, unless it is empty -/
def Json.nonempty? (value : Json) (key : String) : Option String :=
  ((value.get? key).bind Json.string?).filter (· ≠ "")

def Node.ofJson (value : Json) : Except NodeFault Node :=
  match value with
  | .obj _ =>
    match value.nonempty? "node_id" with
    | none => .error .noName
    | some name =>
      match value.nonempty? "schema_id" with
      | none => .error .noKindName
      | some kindName => .ok {
          name
          kindName
          source := value.stringAt "acl_source"
          settings := .read kindName ((value.get? "config").getD .null) }
  | _ => .error .notObject

/-- the nodes of these entries; the first entry has this index -/
def Node.listOfJson (index : Nat) : List Json → Except Rejection (List Node)
  | [] => .ok []
  | value :: rest =>
    match Node.ofJson value with
    | .error fault => .error (.badNode index fault)
    | .ok node =>
      match Node.listOfJson (index + 1) rest with
      | .error rejection => .error rejection
      | .ok nodes => .ok (node :: nodes)

def Link.ofJson (value : Json) : Link where
  source := value.stringAt "from"
  target := value.stringAt "to"

def Origin.ofMembers (m : Json.Members) : Origin where
  version := Json.setting Json.string? "version" m
  source := Json.setting Json.string? "source" m
  schemaVersion := Json.setting Json.string? "schema_version" m

/-! ## whole workflows -/

def Workflow.ofJson (value : Json) : Except Rejection Workflow :=
  match value with
  | .obj members =>
    match Part.nodes.read value with
    | .error rejection => .error rejection
    | .ok nodeValues =>
      match Part.connections.read value with
      | .error rejection => .error rejection
      | .ok linkValues =>
        match Node.listOfJson 0 nodeValues with
        | .error rejection => .error rejection
        | .ok nodes => .ok {
            origin := .ofMembers ((value.get? "workflow").getD .null).members
            nodes
            links := linkValues.map Link.ofJson
            unmapped := Json.entries Json.string? "unmapped_acl" members }
  | _ => .error (.misshapen .notObject)

end Toolflow
