import Mathlib.Data.List.Basic
import Toolflow.Proofs.Workflow.Notices
import Toolflow.Session

/-!
# What the passes collect

`Reports m a ns` says all about a computation that only adds notices: whatever was collected
before, its result is `a` and the notices `ns` come behind the others.  It holds of `warn`, and is
kept by putting computations one after the other and by loops; so there is one such lemma for
each pass, and the pass does what the pure functions on workflows and layouts say.

* `reports_check`, `reports_resolve`, `reports_draw`   the three passes;
* `compile_eq_passes`    a whole compilation with a collector of its own;
* `passes_report`        what the passes add to any collector, list by list (`Workflow.Reported`);
* `collector_only_grows`   any calls of the passes with a common collector;
* `Session.step_eq`      any action of a session.
-/

namespace Toolflow

/-! ## computations that only add notices -/

def Reports {α : Type} (m : Collecting α) (a : α) (ns : List Notice) : Prop :=
  ∀ d : Collector, m.run d = (a, ⟨d.notices ++ ns⟩)

namespace Reports

variable {α β : Type} {m : Collecting α} {a : α} {b : β} {ns ms : List Notice}

theorem pure (a : α) : Reports (Pure.pure a) a [] := fun d => by
  rw [List.append_nil]
  rfl

theorem warn (n : Notice) : Reports (Toolflow.warn n) () [n] := fun _ => rfl

theorem bind {f : α → Collecting β} (hm : Reports m a ns) (hf : Reports (f a) b ms) :
    Reports (m >>= f) b (ns ++ ms) := fun d => by
  show (f (m.run d).1).run (m.run d).2 = _
  rw [hm d, hf, List.append_assoc]

/-- a loop whose rounds report what their element alone makes them report -/
theorem foldlM {round : β → α → Collecting β} {f : β → α → β} {added : α → List Notice}
    (h : ∀ b x, Reports (round b x) (f b x) (added x)) (l : List α) (b : β) :
    Reports (l.foldlM round b) (l.foldl f b) (l.flatMap added) := by
  induction l generalizing b with
  | nil => exact .pure b
  | cons x rest ih => exact (h b x).bind (ih (f b x))

theorem eq_of_eq {ms : List Notice} (h : Reports m a ns) (hns : ns = ms) : Reports m a ms := hns ▸ h

end Reports

/-! ## checking -/

namespace Workflow

/-- the table after these nodes -/
def Records (seen : Seen) (done : List Node) : Prop :=
  ∀ name, seen.lookup name = (done.findIdx? (·.name == name)).map (· + 1)

theorem Records.repeated {seen : Seen} {done : List Node} (h : Records seen done) {n : Node}
    {first : Nat} (hfirst : done.findIdx? (·.name == n.name) = some first) :
    Records seen (done ++ [n]) := fun name => by
  rw [h name, List.findIdx?_append]
  by_cases hname : n.name = name
  · rw [← hname, hfirst]
    rfl
  · simp [hname]

theorem Records.new {seen : Seen} {done : List Node} (h : Records seen done) {n : Node}
    (hfirst : done.findIdx? (·.name == n.name) = none) :
    Records ((n.name, done.length + 1) :: seen) (done ++ [n]) := fun name => by
  rw [List.lookup_cons, List.findIdx?_append]
  by_cases hname : n.name = name
  · simp [← hname, hfirst]
  · rw [beq_false_of_ne (Ne.symm hname), h name]
    simp [hname]

theorem duplicate?_eq (done rest : List Node) (n : Node) :
    duplicate? (done ++ n :: rest) done.length n =
      (done.findIdx? (·.name == n.name)).map fun first =>
        .duplicate n.name (first + 1) (done.length + 1) := by
  rw [duplicate?, List.findIdx_append]
  cases hfirst : done.findIdx? (·.name == n.name) with
  | some first =>
    obtain ⟨hlt, heq⟩ := List.findIdx?_eq_some_iff_findIdx_eq.mp hfirst
    simp [heq, hlt]
  | none => simp [List.findIdx?_eq_none_iff_findIdx_eq.mp hfirst]

theorem reports_noteRepeat {seen : Seen} {done : List Node} (h : Records seen done) (n : Node)
    (rest : List Node) : ∃ seen', Records seen' (done ++ [n]) ∧
      Reports (noteRepeat seen n done.length) seen'
        (duplicate? (done ++ n :: rest) done.length n).toList := by
  have hlookup := h n.name
  rw [duplicate?_eq]
  unfold noteRepeat
  cases hfirst : done.findIdx? (·.name == n.name) with
  | some first =>
    rw [hlookup, hfirst]
    exact ⟨seen, h.repeated hfirst, (Reports.warn _).bind (.pure _)⟩
  | none =>
    rw [hlookup, hfirst]
    exact ⟨_, h.new hfirst, .pure _⟩

/-- the rest of the nodes, when the table is that of the nodes before -/
theorem reports_noteRest (rest : List Node) {seen : Seen} {done : List Node}
    (h : Records seen done) : ∃ seen', Reports
      ((rest.zipIdx done.length).foldlM (fun seen (n, index) => noteRepeat seen n index) seen)
      seen' ((rest.zipIdx done.length).flatMap
        fun (n, index) => (duplicate? (done ++ rest) index n).toList) := by
  induction rest generalizing seen done with
  | nil => exact ⟨seen, .pure seen⟩
  | cons n rest ih =>
    obtain ⟨seen', hseen', hround⟩ := reports_noteRepeat h n rest
    obtain ⟨last, hlast⟩ := ih hseen'
    rw [List.append_assoc, List.length_append] at hlast
    exact ⟨last, hround.bind hlast⟩

theorem reports_noteRepeats (nodes : List Node) :
    Reports (noteRepeats nodes) () (duplicates nodes) := by
  have hnil : Records [] [] := fun _ => rfl
  obtain ⟨seen, hseen⟩ := reports_noteRest nodes hnil
  rw [duplicates, List.filterMap_eq_flatMap_toList]
  exact (hseen.bind (.pure ())).eq_of_eq (List.append_nil _)

theorem reports_noteCycle (layout : Layout) (links : List Link) :
    Reports (noteCycle (layout.arcs links)) () (cycles layout links) := by
  unfold noteCycle cycles Layout.cyclic
  cases Arc.cyclic (layout.arcs links) with
  | true => exact .warn .cycle
  | false => exact .pure ()

/-- the arcs may come from any links on any layout -/
theorem reports_check (w : Workflow) (layout : Layout) (links : List Link) :
    Reports (w.check (layout.arcs links)) () (duplicates w.nodes ++ cycles layout links) :=
  (reports_noteRepeats w.nodes).bind (reports_noteCycle layout links)

end Workflow

/-! ## joining -/

namespace Layout

theorem reports_resolveLink (layout : Layout) (wires : List Wire) (link : Link) (index : Nat) :
    Reports (layout.resolveLink wires link index) (wires ++ (layout.wire? link).toList)
      (layout.dangling? index link).toList := by
  unfold resolveLink wire? dangling? missing?
  cases layout.find? link.source with
  | none =>
    rw [Option.toList_none, List.append_nil]
    cases layout.find? link.target <;> exact (Reports.warn _).bind (.pure _)
  | some a =>
    cases layout.find? link.target with
    | none =>
      rw [Option.toList_none, List.append_nil]
      exact (Reports.warn _).bind (.pure _)
    | some b => exact .pure _

theorem reports_resolve (layout : Layout) (links : List Link) :
    Reports (layout.resolve links) (layout.wires links) (layout.dangling links) := by
  have hloop := Reports.foldlM (fun wires (x : Link × Nat) =>
    reports_resolveLink layout wires x.1 x.2) links.zipIdx []
  have hwires : links.zipIdx.foldl (fun wires x => wires ++ (layout.wire? x.1).toList) [] =
      layout.wires links := by
    rw [← List.flatMap_eq_foldl, wires, List.filterMap_eq_flatMap_toList,
      ← List.flatMap_map Prod.fst (fun link => (layout.wire? link).toList), List.zipIdx_map_fst]
  have hdangling : links.zipIdx.flatMap (fun x => (layout.dangling? x.2 x.1).toList) =
      layout.dangling links := (List.filterMap_eq_flatMap_toList _ _).symm
  rw [hwires, hdangling] at hloop
  exact hloop

end Layout

/-! ## drawing -/

namespace Document

open Xml (Item Step Writer)

theorem reports_drawNode (out : Writer) (n : Node) (p : Placement) :
    Reports (drawNode out n p) (out.writeAll (nodeItem n p).steps)
      (Workflow.unmapped? n p).toList := by
  unfold drawNode nodeItem Workflow.unmapped?
  cases n.kind? with
  | some kind => exact .pure _
  | none => exact (Reports.warn _).bind (.pure _)

theorem writeAll_flatMap {α : Type} (f : α → List Step) (l : List α) (out : Writer) :
    l.foldl (fun out x => out.writeAll (f x)) out = out.writeAll (l.flatMap f) := by
  induction l generalizing out with
  | nil => rfl
  | cons x rest ih => rw [List.foldl_cons, ih, List.flatMap_cons, Writer.writeAll_append]

theorem foldl_drawWire (wires : List Wire) (out : Writer) :
    wires.foldl drawWire out = out.writeAll (wires.flatMap fun x => (wireItem x).steps) :=
  writeAll_flatMap _ _ _

/-- the steps of a document, as the passes take them -/
theorem steps_eq (w : Workflow) (layout : Layout) :
    declaration :: (root w layout).steps =
      openingSteps ++ ((w.nodes.zip layout.tools).flatMap (fun x => (nodeItem x.1 x.2).steps) ++
        .endTag "Nodes" :: .startTag "Connections" [] ::
          ((layout.wires w.links).flatMap (fun x => (wireItem x).steps) ++ closingSteps)) := by
  simp [root, openingSteps, closingSteps, Item.steps, Item.stepsAll, Item.stepsAll_eq_flatMap,
    nodeItems, wireItems, List.flatMap_map]

theorem reports_draw (w : Workflow) (layout : Layout) :
    Reports (draw w layout) (render w layout) (w.drawing layout) := by
  have hnodes := Reports.foldlM (fun out (x : Node × Placement) => reports_drawNode out x.1 x.2)
    (w.nodes.zip layout.tools) (Writer.empty.writeAll openingSteps)
  have hdrawing :
      (w.nodes.zip layout.tools).flatMap (fun x => (Workflow.unmapped? x.1 x.2).toList) =
        Workflow.unmappedTools w.nodes layout := (List.filterMap_eq_flatMap_toList _ _).symm
  rw [hdrawing] at hnodes
  have htext : render w layout = ((((layout.wires w.links).foldl drawWire
      ((((w.nodes.zip layout.tools).foldl (fun out x => out.writeAll (nodeItem x.1 x.2).steps)
        (Writer.empty.writeAll openingSteps)).write (.endTag "Nodes")).write
          (.startTag "Connections" []))).writeAll closingSteps).text) := by
    rw [render, steps_eq]
    simp only [foldl_drawWire, writeAll_flatMap, Writer.writeAll_append, Writer.writeAll_cons]
  rw [htext, Workflow.drawing, ← List.append_nil (layout.dangling w.links)]
  exact hnodes.bind ((Layout.reports_resolve layout w.links).bind (.pure _))

end Document

/-! ## whole compilations -/

namespace Workflow

theorem reports_passes (w : Workflow) :
    Reports w.passes w.compile.document w.compile.notices := by
  have hlayout : (Plan.ofWorkflow w).layout = .ofWorkflow w := Plan.layout_ofNodes w.nodes
  rw [passes, hlayout]
  exact (reports_check w (.ofWorkflow w) w.links).bind (Document.reports_draw w (.ofWorkflow w))

/-- a compilation is the passes with a collector of their own -/
theorem compile_eq_passes (w : Workflow) :
    w.passes.run .empty = (w.compile.document, ⟨w.compile.notices⟩) :=
  reports_passes w .empty

/-- **The passes over an accepted value report all that is to be reported on it**, in order, behind
what was collected before. -/
theorem passes_report {value : Json} {w : Workflow} (h : ofJson value = .ok w) (d : Collector) :
    ∃ repeated cycles unknown unresolved,
      w.passes.run d = (w.compile.document,
        ⟨d.notices ++ (repeated ++ cycles ++ (unknown ++ unresolved))⟩) ∧
      w.Reported repeated cycles unknown unresolved := by
  obtain ⟨repeated, cycles, unknown, unresolved, heq, hreported⟩ := reported_of_ofJson h
  refine ⟨repeated, cycles, unknown, unresolved, ?_, hreported⟩
  rw [← heq]
  exact reports_passes w d

end Workflow

/-! ## one collector for many calls -/

/-- a call of one of the passes; the arcs that are checked come from any links on any layout, and
a workflow is drawn on any layout -/
inductive Call where
  | check (w : Workflow) (layout : Layout) (links : List Link)
  | resolve (layout : Layout) (links : List Link)
  | draw (w : Workflow) (layout : Layout)
  deriving Repr

namespace Call

inductive Result where
  | checked
  | resolved (wires : List Wire)
  | drawn (document : String)
  deriving Repr, DecidableEq

def run : Call → Collecting Result
  | check w layout links => do
    w.check (layout.arcs links)
    pure .checked
  | resolve layout links => do
    let wires ← layout.resolve links
    pure (.resolved wires)
  | draw w layout => do
    let document ← Document.draw w layout
    pure (.drawn document)

/-- what the call gives when nothing was collected before it -/
def alone (call : Call) : Result × Collector := call.run.run .empty

/-- the results of some calls, each with the common collector after it -/
def runAll (d : Collector) : List Call → List (Result × Collector)
  | [] => []
  | call :: rest => call.run.run d :: runAll (call.run.run d).2 rest

theorem exists_reports (call : Call) : ∃ result ns, Reports call.run result ns := by
  cases call with
  | check w layout links =>
    exact ⟨_, _, (Workflow.reports_check w layout links).bind (.pure _)⟩
  | resolve layout links => exact ⟨_, _, (Layout.reports_resolve layout links).bind (.pure _)⟩
  | draw w layout => exact ⟨_, _, (Document.reports_draw w layout).bind (.pure _)⟩

theorem reports_alone (call : Call) : Reports call.run call.alone.1 call.alone.2.notices := by
  obtain ⟨result, ns, h⟩ := exists_reports call
  rw [alone, h]
  exact h

theorem getElem?_runAll (d : Collector) (calls : List Call) (i : Nat) :
    (runAll d calls)[i]? = calls[i]?.map fun call => (call.alone.1,
      ⟨d.notices ++ (calls.take (i + 1)).flatMap fun call => call.alone.2.notices⟩) := by
  induction calls generalizing d i with
  | nil => rfl
  | cons call rest ih =>
    rw [runAll, reports_alone call d]
    cases i with
    | zero => simp
    | succ i => simp [ih, List.append_assoc]

theorem prefix_of_mem_runAll {d : Collector} {calls : List Call} {entry : Result × Collector}
    (h : entry ∈ runAll d calls) : d.notices <+: entry.2.notices := by
  induction calls generalizing d with
  | nil => exact absurd h List.not_mem_nil
  | cons call rest ih =>
    have hcall : d.notices <+: (call.run.run d).2.notices := by
      rw [reports_alone call d]
      exact List.prefix_append _ _
    rcases List.mem_cons.mp h with rfl | hrest
    · exact hcall
    · exact hcall.trans (ih hrest)

theorem pairwise_runAll (d : Collector) (calls : List Call) :
    (runAll d calls).Pairwise fun x y => x.2.notices <+: y.2.notices := by
  induction calls generalizing d with
  | nil => exact .nil
  | cons call rest ih =>
    exact .cons (fun _ hentry => prefix_of_mem_runAll hentry) (ih (call.run.run d).2)

end Call

/-- **The collector is only appended to and never read.**  A call gives what it gives alone, and
adds the notices that it adds alone; so do calls with a common collector, one after the other, and
what was collected at some time is a prefix of all that is collected later. -/
theorem collector_only_grows (call : Call) (calls : List Call) (d : Collector) :
    call.run.run d = (call.alone.1, ⟨d.notices ++ call.alone.2.notices⟩) ∧
    (∀ i : Nat, (Call.runAll d calls)[i]? = calls[i]?.map fun call => (call.alone.1,
      ⟨d.notices ++ (calls.take (i + 1)).flatMap fun call => call.alone.2.notices⟩)) ∧
    (∀ entry ∈ Call.runAll d calls, d.notices <+: entry.2.notices) ∧
    (Call.runAll d calls).Pairwise fun x y => x.2.notices <+: y.2.notices :=
  ⟨call.reports_alone d, Call.getElem?_runAll d calls,
    fun _ hentry => Call.prefix_of_mem_runAll hentry, Call.pairwise_runAll d calls⟩

/-! ## sessions -/

namespace Session

/-- the session with nothing collected -/
def fresh (s : Session) : Session := { s with collector := .empty }

theorem exists_reports (w : Workflow) (plan : Plan) (a : Action) :
    ∃ result ns, Reports (answer w plan a) result ns := by
  cases a with
  | load value =>
    simp only [answer]
    cases Workflow.ofJson value <;> exact ⟨_, _, .pure _⟩
  | loadWorkflow value =>
    simp only [answer]
    cases Workflow.ofJson value <;> exact ⟨_, _, .pure _⟩
  | find name => exact ⟨_, _, .pure _⟩
  | check => exact ⟨_, _, (Workflow.reports_check w plan.layout w.links).bind (.pure _)⟩
  | wire => exact ⟨_, _, (Layout.reports_resolve plan.layout w.links).bind (.pure _)⟩
  | draw => exact ⟨_, _, (Document.reports_draw w plan.layout).bind (.pure _)⟩
  | note notice => exact ⟨_, _, (Reports.warn notice).bind (.pure _)⟩

/-- an action answers and loads as in a session with nothing collected, and collects the same -/
theorem step_eq (s : Session) (a : Action) :
    s.step a = ((s.fresh.step a).1, { (s.fresh.step a).2 with
      collector := ⟨s.notices ++ (s.fresh.step a).2.notices⟩ }) := by
  obtain ⟨result, ns, h⟩ := exists_reports s.workflow s.plan a
  simp only [step, fresh, h s.collector, h .empty]
  rfl

/-- along a session the notices only grow -/
theorem prefix_of_mem_run {s : Session} {actions : List Action} {entry : Answer × Session}
    (h : entry ∈ s.run actions) : s.notices <+: entry.2.notices := by
  induction actions generalizing s with
  | nil => exact absurd h List.not_mem_nil
  | cons a rest ih =>
    have hstep : s.notices <+: (s.step a).2.notices := by
      rw [step_eq]
      exact List.prefix_append _ _
    rcases List.mem_cons.mp h with rfl | hrest
    · exact hstep
    · exact hstep.trans (ih hrest)

end Session

end Toolflow
