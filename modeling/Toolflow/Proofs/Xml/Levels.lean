import Mathlib.Data.List.Induction
import Toolflow.Xml.Item

/-!
# The level of a writer

Any steps are looked at, whether their tags match or not.  The level counts start tags against end
tags and is reflected at zero: where nothing is open, an end tag closes nothing, and later steps
know nothing of it.

* `net`           start tags less end tags;
* `lowest`        the lowest that this gets along some steps, zero at the start included;
* `nexts_eq`      the level after some steps is the net, raised by as much as it would have gone
                  below zero;
* `Walked`        what a writer makes of some steps.
-/

namespace Toolflow.Xml

/-! ## tags -/

def Step.isStartTag : Step → Bool
  | startTag _ _ => true
  | _ => false

def Step.isEndTag : Step → Bool
  | endTag _ => true
  | _ => false

def net (steps : List Step) : Int := steps.countP Step.isStartTag - steps.countP Step.isEndTag

theorem net_nil : net [] = 0 := rfl

theorem net_append (a b : List Step) : net (a ++ b) = net a + net b := by
  simp only [net, List.countP_append]
  omega

def lowest (steps : List Step) : Int :=
  ((List.range (steps.length + 1)).map fun k => net (steps.take k)).foldl min 0

theorem lowest_nil : lowest [] = 0 := rfl

theorem lowest_concat (steps : List Step) (s : Step) :
    lowest (steps ++ [s]) = min (lowest steps) (net (steps ++ [s])) := by
  have hfirst : (List.range (steps.length + 1)).map (fun k => net ((steps ++ [s]).take k)) =
      (List.range (steps.length + 1)).map fun k => net (steps.take k) := by
    refine List.map_congr_left fun k hk => ?_
    rw [List.take_append_of_le_length (Nat.le_of_lt_succ (List.mem_range.mp hk))]
  have hall : (steps ++ [s]).take (steps.length + 1) = steps ++ [s] :=
    List.take_of_length_le (Nat.le_of_eq List.length_append)
  rw [lowest, List.length_append, List.length_singleton, List.range_succ, List.map_append,
    List.foldl_append, hfirst, List.map_singleton, hall, List.foldl_cons, List.foldl_nil]
  rfl

theorem lowest_le (steps : List Step) (k : Nat) : lowest steps ≤ net (steps.take k) := by
  induction steps using List.reverseRecOn with
  | nil =>
    rw [List.take_nil]
    exact Int.le_refl 0
  | append_singleton steps s ih =>
    rw [lowest_concat]
    by_cases hk : k ≤ steps.length
    · rw [List.take_append_of_le_length hk]
      exact Int.le_trans (Int.min_le_left _ _) ih
    · have hlength : (steps ++ [s]).length ≤ k := by
        rw [List.length_append, List.length_singleton]
        omega
      rw [List.take_of_length_le hlength]
      exact Int.min_le_right _ _

/-! ## levels -/

theorem nexts_concat (level : Nat) (steps : List Step) (s : Step) :
    nexts level (steps ++ [s]) = s.next (nexts level steps) :=
  nexts_append level steps [s]

theorem next_eq (level : Nat) (s : Step) : (s.next level : Int) = max 0 (level + net [s]) := by
  cases s with
  | startTag name attrs =>
    have hnet : net [.startTag name attrs] = 1 := rfl
    rw [hnet, Step.next]
    omega
  | endTag name =>
    have hnet : net [.endTag name] = -1 := rfl
    rw [hnet, Step.next]
    omega
  | raw | emptyTag | text | value | comment =>
    show (level : Int) = max 0 (level + 0)
    omega

/-- **The level is the net of the tags, reflected at zero.** -/
theorem nexts_eq (level : Nat) (steps : List Step) :
    (nexts level steps : Int) = level + net steps - min 0 (level + lowest steps) := by
  induction steps using List.reverseRecOn with
  | nil =>
    rw [net_nil, lowest_nil, nexts, List.foldl_nil]
    omega
  | append_singleton steps s ih =>
    -- a new lowest net is one that the reflection takes back to zero
    have hlowest : lowest steps ≤ net steps := by
      have hle := lowest_le steps steps.length
      rwa [List.take_length] at hle
    rw [nexts_concat, next_eq, ih, lowest_concat, net_append]
    omega

/-- the first end tag closes nothing, and both start tags are still open -/
example : net [.endTag "a", .startTag "b" [], .startTag "c" []] = 1 ∧
    lowest [.endTag "a", .startTag "b" [], .startTag "c" []] = -1 ∧
    nexts 0 [.endTag "a", .startTag "b" [], .startTag "c" []] = 2 := by decide

theorem net_le_nexts (level : Nat) (steps : List Step) : net steps ≤ nexts level steps := by
  rw [nexts_eq]
  omega

/-- the line of an end tag stands at the level after it, every other at the level before it -/
theorem min_net_le_lineLevel (level : Nat) (steps : List Step) (s : Step) :
    min (net steps) (net (steps ++ [s])) ≤ s.lineLevel (nexts level steps) := by
  have hbefore := net_le_nexts level steps
  have hafter := net_le_nexts level (steps ++ [s])
  rw [nexts_concat] at hafter
  cases s with
  | endTag name =>
    rw [Step.next] at hafter
    rw [Step.lineLevel]
    omega
  | raw | startTag | emptyTag | text | value | comment =>
    exact Int.le_trans (Int.min_le_left _ _) hbefore

/-! ## writers -/

/-- where nothing is open, a writer goes on as a new one -/
theorem writeAll_of_level_zero {w : Writer} (h : w.level = 0) (steps : List Step) :
    w.writeAll steps = ⟨w.text ++ (Writer.empty.writeAll steps).text,
      (Writer.empty.writeAll steps).level⟩ := by
  rw [Writer.writeAll_eq, Writer.writeAll_eq, h, Writer.empty, String.empty_append]

theorem write_endTag_of_level_zero {w : Writer} (h : w.level = 0) (name : String) :
    w.write (.endTag name) = ⟨w.text ++ (endMarkup name ++ "\n"), 0⟩ := by
  rw [Writer.write_eq, h, Step.output]
  simp [Step.lineLevel, Step.next, Step.markup, indent]

/-- what a writer makes of some steps, whatever it has written before -/
structure Walked (w : Writer) (steps : List Step) : Prop where
  /-- a step appends one line, and only the step and the level before it tell which -/
  appends : ∀ a s b, steps = a ++ s :: b → w.writeAll (a ++ [s]) =
    ⟨(w.writeAll a).text ++ s.output (w.writeAll a).level, s.next (w.writeAll a).level⟩
  grows : ∀ a b, steps = a ++ b → ∃ added, (w.writeAll steps).text = (w.writeAll a).text ++ added
  level : ((w.writeAll steps).level : Int) = w.level + net steps - min 0 (w.level + lowest steps)
  /-- an end tag that closes nothing has no effect beyond its own line -/
  absorbed : ∀ a name b, steps = a ++ .endTag name :: b → (w.writeAll a).level = 0 →
    w.writeAll steps = ⟨(w.writeAll a).text ++ (endMarkup name ++ "\n") ++
      (Writer.empty.writeAll b).text, (Writer.empty.writeAll b).level⟩
  /-- a line is indented for all that the steps right before it open, however many are taken -/
  indented : ∀ a b s c, steps = a ++ b ++ s :: c → ∃ level : Nat,
    (w.writeAll (a ++ b ++ [s])).text
      = (w.writeAll (a ++ b)).text ++ (indent level ++ s.markup ++ "\n") ∧
    min (net b) (net (b ++ [s])) ≤ level

theorem walked (w : Writer) (steps : List Step) : Walked w steps where
  appends a s _ _ := w.writeAll_concat a s
  grows a b hsplit := by
    rw [hsplit, Writer.writeAll_append, Writer.writeAll_eq (w.writeAll a) b]
    exact ⟨_, rfl⟩
  level := by
    rw [Writer.writeAll_eq]
    exact nexts_eq w.level steps
  absorbed a name b hsplit hlevel := by
    rw [hsplit, Writer.writeAll_append, Writer.writeAll_cons, write_endTag_of_level_zero hlevel]
    exact writeAll_of_level_zero rfl b
  indented a b s c _ := by
    have hlevel : (w.writeAll (a ++ b)).level = nexts (w.writeAll a).level b := by
      rw [Writer.writeAll_append, Writer.writeAll_eq (w.writeAll a) b]
    refine ⟨s.lineLevel (w.writeAll (a ++ b)).level, ?_, ?_⟩
    · rw [Writer.writeAll_concat]
      rfl
    · rw [hlevel]
      exact min_net_le_lineLevel _ b s

/-- **The level of a writer is the number of start tags less the number of end tags, reflected at
zero.**  Where nothing is open an end tag is absorbed, so that later lines are not indented less
for it; every step appends a line that it and the level before it determine. -/
theorem level_reflected (steps : List Step) :
    ((Writer.empty.writeAll steps).level : Int) = net steps - lowest steps ∧
      ∀ w, Walked w steps := by
  refine ⟨?_, fun w => walked w steps⟩
  have hlevel := (walked .empty steps).level
  have hempty : (Writer.empty.level : Int) = 0 := rfl
  have hlowest : lowest steps ≤ 0 := lowest_le steps 0
  rw [hempty] at hlevel
  omega

end Toolflow.Xml
