import Toolflow.Json.Basic
import Toolflow.Json.Failure
import Toolflow.Json.Numeral
import Toolflow.Json.Text

/-!
# Reading a JSON text

The reader is a machine that takes one character at a time (`step`).

* `Frame`     an array or object that is open: the elements before the value being read (the last
              one first), or the members before it and its key;
* `Reader`    where the reading stands, together with the open frames, the innermost one first.
              Once they are as many as the limit, no further one is opened;
* `finish`    the value, if the text may end here.

A step looks at one character and at nothing behind it.  So a text fails with the same cause at
the same place as every other text that goes on differently after the character of the failure.
-/

namespace Toolflow.Json

inductive Frame where
  | items (before : List Json)
  | member (before : Members) (key : String)
  deriving Repr

/-- what a string is for: a value, or the key of a member after these -/
inductive Purpose where
  | value
  | key (before : Members)
  deriving Repr

inductive Reader where
  | expecting (frames : List Frame)
  | firstItem (frames : List Frame)
  | nextItem (before : List Json) (frames : List Frame)
  | firstKey (frames : List Frame)
  | nextKey (before : Members) (frames : List Frame)
  | colon (before : Members) (key : String) (frames : List Frame)
  | done (value : Json) (frames : List Frame)
  /-- inside one of the three words -/
  | word (next : Char) (rest : List Char) (value : Json) (frames : List Frame)
  | numeral (n : Numeral) (frames : List Frame)
  | text (purpose : Purpose) (t : Text) (frames : List Frame)
  deriving Repr

namespace Reader

/-! ## one character -/

def isBlank (c : Char) : Bool := c = ' ' || c = '\n' || c = '\t' || c = '\r'

def beginValue (limit : Nat) (frames : List Frame) (c : Char) : Except Stop Reader :=
  if c = '[' then
    if frames.length < limit then .ok (.firstItem frames) else .error (.past .tooDeep)
  else if c = '\x7b' then
    if frames.length < limit then .ok (.firstKey frames) else .error (.past .tooDeep)
  else if c = '"' then .ok (.text .value .empty frames)
  else if c = 'n' then .ok (.word 'u' ['l', 'l'] .null frames)
  else if c = 't' then .ok (.word 'r' ['u', 'e'] (.bool true) frames)
  else if c = 'f' then .ok (.word 'a' ['l', 's', 'e'] (.bool false) frames)
  else match Numeral.start? c with
    | some n => .ok (.numeral n frames)
    | none => .error (.past .expectedValue)

def follow (value : Json) (frames : List Frame) (c : Char) : Except Stop Reader :=
  if isBlank c then .ok (.done value frames)
  else match frames with
    | [] => .error (.past .trailingCharacters)
    | .items before :: outer =>
      if c = ',' then .ok (.nextItem (value :: before) outer)
      else if c = ']' then .ok (.done (.arr (value :: before).reverse) outer)
      else .error (.past .expectedCommaOrBracket)
    | .member before key :: outer =>
      if c = ',' then .ok (.nextKey (insert key value before) outer)
      else if c = '\x7d' then .ok (.done (.obj (insert key value before)) outer)
      else .error (.past .expectedCommaOrBrace)

def closeText (purpose : Purpose) (s : String) (frames : List Frame) : Reader :=
  match purpose with
  | .value => .done (.str s) frames
  | .key before => .colon before s frames

def step (limit : Nat) (c : Char) : Reader → Except Stop Reader
  | .expecting frames =>
    if isBlank c then .ok (.expecting frames) else beginValue limit frames c
  | .firstItem frames =>
    if isBlank c then .ok (.firstItem frames)
    else if c = ']' then .ok (.done (.arr []) frames)
    else beginValue limit (.items [] :: frames) c
  | .nextItem before frames =>
    if isBlank c then .ok (.nextItem before frames)
    else if c = ']' then .error (.past .trailingComma)
    else beginValue limit (.items before :: frames) c
  | .firstKey frames =>
    if isBlank c then .ok (.firstKey frames)
    else if c = '\x7d' then .ok (.done (.obj []) frames)
    else if c = '"' then .ok (.text (.key []) .empty frames)
    else .error (.past .keyNotString)
  | .nextKey before frames =>
    if isBlank c then .ok (.nextKey before frames)
    else if c = '\x7d' then .error (.past .trailingComma)
    else if c = '"' then .ok (.text (.key before) .empty frames)
    else .error (.past .keyNotString)
  | .colon before key frames =>
    if isBlank c then .ok (.colon before key frames)
    else if c = ':' then .ok (.expecting (.member before key :: frames))
    else .error (.past .expectedColon)
  | .done value frames => follow value frames c
  | .word next rest value frames =>
    if c ≠ next then .error (.past .expectedIdent)
    else match rest with
      | [] => .ok (.done value frames)
      | r :: rest => .ok (.word r rest value frames)
  | .numeral n frames =>
    match n.step c with
    | .more n => .ok (.numeral n frames)
    | .stops stop => .error stop
    | .ends =>
      match n.value with
      | .ok number => follow (.num number) frames c
      | .error cause => .error (.before cause)
  | .text purpose t frames =>
    match t.step c with
    | .more t => .ok (.text purpose t frames)
    | .stops stop => .error stop
    | .ends s => .ok (closeText purpose s frames)

/-! ## whole texts -/

/-- a complete value, if all frames are closed -/
def closed (value : Json) : List Frame → Except Cause Json
  | [] => .ok value
  | .items _ :: _ => .error .endInList
  | .member _ _ :: _ => .error .endInObject

def finish : Reader → Except Cause Json
  | .expecting _ | .nextItem _ _ | .nextKey _ _ | .word _ _ _ _ => .error .endInValue
  | .firstItem _ => .error .endInList
  | .firstKey _ | .colon _ _ _ => .error .endInObject
  | .text _ _ _ => .error .endInString
  | .done value frames => closed value frames
  | .numeral n frames =>
    match n.value with
    | .ok number => closed (.num number) frames
    | .error cause => .error cause

def start : Reader := .expecting []

/-- the reader goes on with these characters, after that many bytes -/
def run (limit : Nat) (r : Reader) (offset : Nat) : List Char → Except (Cause × Nat) Json
  | [] =>
    match r.finish with
    | .ok value => .ok value
    | .error cause => .error (cause, offset)
  | c :: rest =>
    match r.step limit c with
    | .ok r => run limit r (offset + c.utf8Size) rest
    | .error stop => .error (stop.cause, offset + stop.ahead)

end Reader

def nestingLimit : Nat := 127

/-- the value that a text spells, with at most `limit` open arrays and objects -/
def parseWithin (limit : Nat) (text : String) : Except Failure Json :=
  match Reader.start.run limit 0 text.toList with
  | .ok value => .ok value
  | .error (cause, offset) => .error ⟨cause, .inText text offset⟩

def parse (text : String) : Except Failure Json := parseWithin nestingLimit text

end Toolflow.Json
