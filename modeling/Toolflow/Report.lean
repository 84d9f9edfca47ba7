import Toolflow.Compile

/-!
# What a host is told

A host hands over a text and gets plain data back, never a failure.

* `preflight`   what is wrong with the text: nothing, or one `Complaint`;
* `Report.ofText`   the document with a `Remark` for each notice, or what is wrong with the text.
-/

namespace Toolflow

structure Complaint where
  code : String
  phase : String
  message : String
  nodeIndex : Option Nat
  deriving Repr, DecidableEq

def Complaint.ofRejection (r : Rejection) : Complaint :=
  ⟨r.code, r.phase.name, r.message, r.nodeIndex?⟩

structure Remark where
  code : String
  message : String
  deriving Repr, DecidableEq

def Remark.ofNotice (n : Notice) : Remark := ⟨n.code, n.message⟩

inductive Report where
  | success (document : String) (remarks : List Remark) (unmapped : List String)
  | errors (complaints : List Complaint)
  deriving Repr, DecidableEq

def preflight (text : String) : List Complaint :=
  match readText text with
  | .ok _ => []
  | .error rejection => [.ofRejection rejection]

def Report.ofText (text : String) : Report :=
  match compileText text with
  | .ok out => .success out.document (out.notices.map .ofNotice) out.unmapped
  | .error rejection => .errors [.ofRejection rejection]

/-! ## as JSON -/

def Complaint.toJson (c : Complaint) : Json :=
  .ofObject [("code", .str c.code), ("phase", .str c.phase), ("message", .str c.message),
    ("node_index", (c.nodeIndex.map Json.ofNat).getD .null)]

def Remark.toJson (r : Remark) : Json :=
  .ofObject [("code", .str r.code), ("message", .str r.message)]

def Report.toJson : Report → Json
  | success document remarks unmapped =>
    .ofObject [("status", .str "success"), ("xml", .str document),
      ("warnings", .arr (remarks.map (·.toJson))),
      ("unmapped_acl", .ofStrings unmapped)]
  | errors complaints =>
    .ofObject [("status", .str "errors"), ("errors", .arr (complaints.map (·.toJson)))]

end Toolflow
