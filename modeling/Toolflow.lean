import Toolflow.Report
import Toolflow.Session
import Toolflow.Workflow.Writing
import Toolflow.Proofs.Layout.Accounting
import Toolflow.Proofs.Layout.Cycle
import Toolflow.Proofs.Layout.Moving
import Toolflow.Proofs.Workflow.Notices
import Toolflow.Proofs.Workflow.Codes
import Toolflow.Proofs.Workflow.Shape
import Toolflow.Proofs.Workflow.Replacing
import Toolflow.Proofs.Document.ReadBack
import Toolflow.Proofs.Document.Graph
import Toolflow.Proofs.Document.Parts
import Toolflow.Proofs.Reordering
import Toolflow.Proofs.Renaming
import Toolflow.Proofs.Workflow.NormalForm
import Toolflow.Proofs.Irrelevance
import Toolflow.Proofs.Spelling
import Toolflow.Proofs.Locality
import Toolflow.Proofs.Document.Processed
import Toolflow.Proofs.Report
import Toolflow.Proofs.Tool.Entries
import Toolflow.Proofs.Workflow.Repetition
import Toolflow.Proofs.Layout.Appending
import Toolflow.Proofs.Appending
import Toolflow.Proofs.Xml.Entities
import Toolflow.Proofs.Xml.Forest
import Toolflow.Proofs.Document.Comments
import Toolflow.Proofs.LooseEnds
import Toolflow.Proofs.Document.FileFormats
import Toolflow.Proofs.Document.Indentation
import Toolflow.Proofs.Collecting
import Toolflow.Proofs.Json.Positions
import Toolflow.Proofs.Layout.Planning
import Toolflow.Proofs.Xml.Levels
