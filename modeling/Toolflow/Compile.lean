import Toolflow.Document.Basic
import Toolflow.Json.Reader
import Toolflow.Workflow.Notices
import Toolflow.Workflow.Reading

/-!
# From a description to a document

* `Workflow.compile`   a workflow, drawn on its own layout; this cannot fail;
* `compile`            a JSON value: fails if it describes no workflow;
* `readText`           the workflow that a JSON text describes;
* `compileText`        a JSON text.

The notices of an output are those on the workflow as such, then those of its drawing.
-/

namespace Toolflow

structure Output where
  document : String
  notices : List Notice
  unmapped : List String
  deriving Repr, DecidableEq

def Workflow.compile (w : Workflow) : Output :=
  let layout := Layout.ofWorkflow w
  { document := Document.render w layout
    notices := w.structural layout ++ w.drawing layout
    unmapped := w.unmapped }

def compile (value : Json) : Except Rejection Output :=
  match Workflow.ofJson value with
  | .ok w => .ok w.compile
  | .error rejection => .error rejection

/-- the value of a text, or the refusal of a text that is no JSON -/
def readValue (text : String) : Except Rejection Json :=
  match Json.parse text with
  | .ok value => .ok value
  | .error failure => .error (.notJson failure.message)

def readText (text : String) : Except Rejection Workflow :=
  match readValue text with
  | .ok value => Workflow.ofJson value
  | .error rejection => .error rejection

def compileText (text : String) : Except Rejection Output :=
  match readValue text with
  | .ok value => compile value
  | .error rejection => .error rejection

theorem compileText_eq (text : String) :
    compileText text =
      match readText text with
      | .ok w => .ok w.compile
      | .error rejection => .error rejection := by
  unfold compileText readText
  split <;> rfl

end Toolflow
