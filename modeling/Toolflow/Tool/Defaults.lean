import Toolflow.Tool.Settings

/-!
# What is used where a setting says nothing

Every default of the program stands here.  An empty string says nothing either, where a default
exists for it (`orDefault`); a text without a default is empty when it is absent (`plain`).

`FileFormat.ofName` goes by the text behind the last point of a file name, in small or capital
letters alike, and by the whole name if there is no point.
-/

namespace Toolflow

/-! ## texts -/

def orDefault (standard : String) : Option String → String
  | some s => if s = "" then standard else s
  | none => standard

def plain (s : Option String) : String := s.getD ""

/-! ## the settings in use -/

def inputFile (table : Option String) : String := orDefault "input.csv" table

def outputFile (table : Option String) : String := orDefault "output.yxdb" table

def filterExpression (expression : Option String) : String := orDefault "1=1" expression

/-- the name of the result, made of action and field if none is given -/
def Aggregation.result (a : Aggregation) : String :=
  orDefault (plain a.action ++ "_" ++ plain a.field) a.rename

/-- what a formula tool is labelled with: its first assignment -/
def formulaLabel : List Assignment → String
  | [] => "Formula"
  | first :: _ => plain first.field ++ " = " ++ plain first.expression

def sampleCount (count : Option UInt64) : UInt64 :=
  match count with
  | some n => if n = 0 then 1 else n
  | none => 1

def sampleMethod (method : Option String) : String := orDefault "First" method

def Column.isSelected (c : Column) : Bool := c.selected.getD true

/-! ## file formats -/

inductive FileFormat where
  | csv
  | yxdb
  | xlsx
  deriving Repr, DecidableEq

namespace FileFormat

def code : FileFormat → Nat
  | csv => 0
  | yxdb => 19
  | xlsx => 25

def extension (name : List Char) : List Char := (name.reverse.takeWhile (· ≠ '.')).reverse

def lower (s : List Char) : List Char := s.map Char.toLower

def ofName (name : String) : FileFormat :=
  let ext := lower (extension name.toList)
  if ext = ['y', 'x', 'd', 'b'] then yxdb
  else if ext = ['x', 'l', 's', 'x'] then xlsx
  else csv

theorem takeWhile_reverse_of_notMem {ext : List Char} (h : '.' ∉ ext) (rest : List Char) :
    (ext.reverse ++ rest).takeWhile (· ≠ '.') = ext.reverse ++ rest.takeWhile (· ≠ '.') := by
  refine List.takeWhile_append_of_pos fun c hc => decide_eq_true ?_
  rintro rfl
  exact h (List.mem_reverse.1 hc)

theorem extension_append_cons {ext : List Char} (h : '.' ∉ ext) (stem : List Char) :
    extension (stem ++ '.' :: ext) = ext := by
  simp only [extension, List.reverse_append, List.reverse_cons, List.append_assoc]
  rw [takeWhile_reverse_of_notMem h]
  simp

theorem extension_of_notMem {name : List Char} (h : '.' ∉ name) : extension name = name := by
  have := takeWhile_reverse_of_notMem h []
  simp only [List.append_nil, List.takeWhile_nil] at this
  rw [extension, this, List.reverse_reverse]

end FileFormat

end Toolflow
