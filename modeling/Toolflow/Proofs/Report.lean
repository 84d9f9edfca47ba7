import Toolflow.Proofs.Spelling
import Toolflow.Proofs.Workflow.NormalForm
import Toolflow.Report

/-!
# What a host is told about a text

A host can have a text checked before it has it compiled.  The check stops where the value of the
text has been read, and the compilation goes on from there, but nothing behind the reading can
fail.  So the check already says how the compilation will end.

* `Accepted text w`     the text describes the workflow `w`: the check finds nothing wrong, and the
                        report holds the output of `w`;
* `Refused text r c`    the text is refused for `r`: both answers hold the one complaint `c`, which
                        says what `r` says;
* `accepted_or_refused` every text is one of the two;
* `preflight_predicts_compile`   so the check, the report, the compilation and the reading agree
                        on every text.
-/

namespace Toolflow

/-! ## rejections -/

namespace Rejection

theorem isSome_nodeIndex?_iff (r : Rejection) : r.nodeIndex?.isSome ↔ r.code = "V002" := by
  cases r <;> simp [nodeIndex?, code]

theorem code_eq_iff_notJson (r : Rejection) : r.code = "P001" ↔ ∃ detail, r = .notJson detail := by
  cases r <;> simp [code]

end Rejection

/-- a value is never refused for being no JSON -/
theorem Workflow.ofJson_ne_notJson (value : Json) (detail : String) :
    Workflow.ofJson value ≠ .error (.notJson detail) := by
  intro h
  exact (ofJson_eq_error_iff_isFirst.mp h).1

theorem readText_notJson_iff {text : String} :
    (∃ detail, readText text = .error (.notJson detail)) ↔ ∀ v, ¬ Json.SpelledBy text v := by
  unfold readText
  constructor
  · rintro ⟨detail, h⟩ v hv
    rw [readValue_eq_ok_iff.mpr hv] at h
    exact Workflow.ofJson_ne_notJson v detail h
  · intro hnone
    obtain ⟨detail, hread⟩ := readValue_of_not_spelled hnone
    exact ⟨detail, by rw [hread]⟩

/-! ## the two ends of a text -/

structure Accepted (text : String) (w : Workflow) : Prop where
  reading : readText text = .ok w
  compiling : compileText text = .ok w.compile
  preflight : preflight text = []
  report : Report.ofText text = .success w.compile.document
    (w.compile.notices.map fun n => ⟨n.code, n.message⟩) w.compile.unmapped

structure Refused (text : String) (r : Rejection) (c : Complaint) : Prop where
  reading : readText text = .error r
  compiling : compileText text = .error r
  preflight : preflight text = [c]
  report : Report.ofText text = .errors [c]
  complaint : c = ⟨r.code, r.phase.name, r.message, r.nodeIndex?⟩
  isSome_nodeIndex_iff : c.nodeIndex.isSome ↔ c.code = "V002"
  code_eq_iff_not_spelled : c.code = "P001" ↔ ∀ v, ¬ Json.SpelledBy text v

theorem accepted_of_readText {text : String} {w : Workflow} (h : readText text = .ok w) :
    Accepted text w := by
  have hcompile : compileText text = .ok w.compile := by rw [compileText_eq, h]
  refine ⟨h, hcompile, ?_, ?_⟩
  · rw [preflight, h]
  · rw [Report.ofText, hcompile]
    rfl

theorem refused_of_readText {text : String} {r : Rejection} (h : readText text = .error r) :
    Refused text r (.ofRejection r) := by
  have hcompile : compileText text = .error r := by rw [compileText_eq, h]
  refine ⟨h, hcompile, ?_, ?_, rfl, r.isSome_nodeIndex?_iff, ?_⟩
  · rw [preflight, h]
  · rw [Report.ofText, hcompile]
  · show r.code = "P001" ↔ _
    rw [r.code_eq_iff_notJson, ← readText_notJson_iff, h]
    simp only [Except.error.injEq]

theorem accepted_or_refused (text : String) :
    (∃ w, Accepted text w) ∨ ∃ r c, Refused text r c := by
  cases h : readText text with
  | ok w => exact .inl ⟨w, accepted_of_readText h⟩
  | error r => exact .inr ⟨r, _, refused_of_readText h⟩

/-- what the host reads under `status` -/
theorem get?_status (report : Report) :
    report.toJson.get? "status" = some (.str "success") ↔
      ∃ document remarks unmapped, report = .success document remarks unmapped := by
  cases report with
  | success document remarks unmapped =>
    exact iff_of_true (Json.get?_ofObject _ _) ⟨_, _, _, rfl⟩
  | errors complaints =>
    have hstatus : (Report.errors complaints).toJson.get? "status" = some (.str "errors") :=
      Json.get?_ofObject _ _
    rw [hstatus]
    exact iff_of_false (by simp) fun ⟨_, _, _, h⟩ => nomatch h

/-- **The check of a text predicts its compilation.** -/
theorem preflight_predicts_compile (text : String) :
    ((∃ w, Accepted text w) ∨ ∃ r c, Refused text r c) ∧
      (preflight text = [] ↔
        (Report.ofText text).toJson.get? "status" = some (.str "success")) ∧
      (preflight text = [] ↔ ∃ out, compileText text = .ok out) ∧
      (preflight text = [] ↔ ∃ w, readText text = .ok w) := by
  refine ⟨accepted_or_refused text, ?_⟩
  rw [get?_status]
  rcases accepted_or_refused text with ⟨w, h⟩ | ⟨r, c, h⟩
  · exact ⟨iff_of_true h.preflight ⟨_, _, _, h.report⟩, iff_of_true h.preflight ⟨_, h.compiling⟩,
      iff_of_true h.preflight ⟨w, h.reading⟩⟩
  · have hsome : preflight text ≠ [] := by
      rw [h.preflight]
      exact List.cons_ne_nil _ _
    rw [h.report, h.compiling, h.reading]
    refine ⟨iff_of_false hsome ?_, iff_of_false hsome ?_, iff_of_false hsome ?_⟩
    · exact fun ⟨_, _, _, heq⟩ => nomatch heq
    · exact fun ⟨_, heq⟩ => nomatch heq
    · exact fun ⟨_, heq⟩ => nomatch heq

end Toolflow
