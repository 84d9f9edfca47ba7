import Toolflow.Xml.Escape

/-!
# Writing XML line by line

A `Step` writes one line: its markup behind two spaces for every open element.  A start tag opens
an element, an end tag closes one; an end tag stands where its start tag stands, and where nothing
is open it closes nothing.

* `Step.markup`   what the step writes between the indentation and the line feed;
* `Step.output`   the line, at a level;
* `Step.next`     the level after it;
* `Writer`        the text so far and the level;
* `Writer.write`  a step, piece by piece: two spaces at a time, the markup, the line feed.  A start
                  tag moves the level behind its line, an end tag before it (`Writer.write_eq`).

Attribute values, texts and comments are given raw and escaped here; names and `raw` markup are
written as they are.
-/

namespace Toolflow.Xml

abbrev Attr := String × String

inductive Step where
  | raw (line : String)
  | startTag (name : String) (attrs : List Attr)
  | endTag (name : String)
  | emptyTag (name : String) (attrs : List Attr)
  | text (name : String) (attrs : List Attr) (content : String)
  | value (name content : String)
  | comment (content : String)
  deriving Repr, DecidableEq

/-! ## markup -/

def attrMarkup (a : Attr) : String := " " ++ a.1 ++ "=\"" ++ escape a.2 ++ "\""

def attrsMarkup (attrs : List Attr) : String := String.join (attrs.map attrMarkup)

def emptyMarkup (name : String) (attrs : List Attr) : String :=
  "<" ++ name ++ attrsMarkup attrs ++ " />"

def startMarkup (name : String) (attrs : List Attr) : String :=
  "<" ++ name ++ attrsMarkup attrs ++ ">"

def endMarkup (name : String) : String := "</" ++ name ++ ">"

namespace Step

def markup : Step → String
  | raw line => line
  | startTag name attrs => startMarkup name attrs
  | endTag name => endMarkup name
  | emptyTag name attrs => emptyMarkup name attrs
  | text name attrs content =>
    if content = "" then emptyMarkup name attrs
    else startMarkup name attrs ++ escape content ++ endMarkup name
  | value name content => emptyMarkup name [("value", content)]
  | comment content => "<!-- " ++ commentBody content ++ " -->"

/-! ## lines -/

def lineLevel (level : Nat) : Step → Nat
  | endTag _ => level - 1
  | _ => level

def next (level : Nat) : Step → Nat
  | startTag _ _ => level + 1
  | endTag _ => level - 1
  | _ => level

end Step

def indent (level : Nat) : String := String.ofList (List.replicate (2 * level) ' ')

def Step.output (level : Nat) (s : Step) : String :=
  indent (s.lineLevel level) ++ s.markup ++ "\n"

/-! ## writers -/

structure Writer where
  text : String
  level : Nat
  deriving Repr, DecidableEq

namespace Writer

def empty : Writer := ⟨"", 0⟩

def push (w : Writer) (s : String) : Writer := { w with text := w.text ++ s }

/-- two spaces for each of so many elements -/
def pushIndent (w : Writer) : Nat → Writer
  | 0 => w
  | n + 1 => (w.push "  ").pushIndent n

def line (w : Writer) (markup : String) : Writer :=
  ((w.pushIndent w.level).push markup).push "\n"

def startTag (w : Writer) (name : String) (attrs : List Attr) : Writer :=
  let w := w.line (startMarkup name attrs)
  { w with level := w.level + 1 }

def endTag (w : Writer) (name : String) : Writer :=
  let w := { w with level := w.level - 1 }
  w.line (endMarkup name)

def emptyTag (w : Writer) (name : String) (attrs : List Attr) : Writer :=
  w.line (emptyMarkup name attrs)

/-- an element with a text; where the text is empty, one without content -/
def textTag (w : Writer) (name : String) (attrs : List Attr) (content : String) : Writer :=
  if content = "" then w.emptyTag name attrs
  else w.line (startMarkup name attrs ++ escape content ++ endMarkup name)

def write (w : Writer) : Step → Writer
  | .raw markup => w.line markup
  | .startTag name attrs => w.startTag name attrs
  | .endTag name => w.endTag name
  | .emptyTag name attrs => w.emptyTag name attrs
  | .text name attrs content => w.textTag name attrs content
  | .value name content => w.emptyTag name [("value", content)]
  | .comment content => w.line ("<!-- " ++ commentBody content ++ " -->")

def writeAll (w : Writer) (steps : List Step) : Writer := steps.foldl write w

theorem pushIndent_eq (w : Writer) (n : Nat) : w.pushIndent n = w.push (indent n) := by
  induction n generalizing w with
  | zero => simp [pushIndent, push, indent]
  | succ n ih =>
    have hindent : indent (n + 1) = "  " ++ indent n := by
      simp [indent, Nat.mul_succ, List.replicate_succ, ← String.toList_inj]
    rw [pushIndent, ih, hindent, push, push, push, String.append_assoc]

theorem line_eq (w : Writer) (markup : String) :
    w.line markup = ⟨w.text ++ (indent w.level ++ markup ++ "\n"), w.level⟩ := by
  simp [line, pushIndent_eq, push, String.append_assoc]

/-- what a step writes is its own line at the level before it -/
theorem write_eq (w : Writer) (s : Step) :
    w.write s = ⟨w.text ++ s.output w.level, s.next w.level⟩ := by
  cases s with
  | text name attrs content =>
    by_cases hcontent : content = "" <;>
      simp [write, textTag, emptyTag, line_eq, Step.output, Step.lineLevel, Step.markup, Step.next,
        hcontent]
  | _ =>
    simp [write, startTag, endTag, emptyTag, line_eq, Step.output, Step.lineLevel, Step.markup,
      Step.next]

theorem writeAll_nil (w : Writer) : w.writeAll [] = w := rfl

theorem writeAll_cons (w : Writer) (s : Step) (steps : List Step) :
    w.writeAll (s :: steps) = (w.write s).writeAll steps := rfl

theorem writeAll_append (w : Writer) (a b : List Step) :
    w.writeAll (a ++ b) = (w.writeAll a).writeAll b := by
  simp [writeAll]

theorem writeAll_concat (w : Writer) (steps : List Step) (s : Step) :
    w.writeAll (steps ++ [s]) = ⟨(w.writeAll steps).text ++ s.output (w.writeAll steps).level,
      s.next (w.writeAll steps).level⟩ := by
  rw [writeAll_append, writeAll_cons, writeAll_nil, write_eq]

end Writer

/-- the text of some steps from a level on -/
def outputs (level : Nat) : List Step → String
  | [] => ""
  | s :: rest => s.output level ++ outputs (s.next level) rest

/-- the level after some steps -/
def nexts (level : Nat) (steps : List Step) : Nat := steps.foldl Step.next level

theorem Writer.writeAll_eq (w : Writer) (steps : List Step) :
    w.writeAll steps = ⟨w.text ++ outputs w.level steps, nexts w.level steps⟩ := by
  induction steps generalizing w with
  | nil => simp [writeAll_nil, outputs, nexts]
  | cons s rest ih => simp [writeAll_cons, ih, write_eq, outputs, nexts, String.append_assoc]

end Toolflow.Xml
