import Mathlib.Tactic.Common
import Toolflow.Xml.Writer

/-!
# Reading an XML text

A reader of plain XML, apart from everything that writes XML here.  It is a machine that takes one
character at a time.

* `Tree`     what is read: elements, texts and comments;
* `Event`    what the markup says, tag by tag;
* `Mode`     where the reading stands, and `Mode.step` one character;
* `Nest`     the open elements and what they hold so far, and `Nest.add` one event;
* `State`    both together; `State.run` reads some characters, and `forest?` a whole text;
* `document?`  a text that declares itself XML and holds one element.

Names are the names of XML.  An end tag must name the innermost open element, attributes stand in
double quotes and hold no `<`, the five named entities are decoded and no others are known, and no
two hyphens meet in a comment before its end.  Nothing is normalised.  White space between tags is
dropped, except in the elements that `leaf` names: their text is kept as it is.
-/

namespace Toolflow.Xml

inductive Tree where
  | element (name : String) (attrs : List Attr) (content : List Tree)
  | text (text : String)
  | comment (body : String)
  deriving Repr

structure Tag where
  name : String
  attrs : List Attr
  deriving Repr, DecidableEq

inductive Event where
  | text (text : String)
  | comment (body : String)
  | startTag (tag : Tag)
  | emptyTag (tag : Tag)
  | endTag (name : String)
  deriving Repr, DecidableEq

/-! ## characters -/

def isBlank (c : Char) : Bool := c = ' ' || c = '\n' || c = '\t' || c = '\r'

def isNameStart (c : Char) : Bool :=
  c = ':' || c = '_' || ('A' ≤ c && c ≤ 'Z') || ('a' ≤ c && c ≤ 'z')
    || ('\u00c0' ≤ c && c ≤ '\u00d6') || ('\u00d8' ≤ c && c ≤ '\u00f6')
    || ('\u00f8' ≤ c && c ≤ '\u02ff') || ('\u0370' ≤ c && c ≤ '\u037d')
    || ('\u037f' ≤ c && c ≤ '\u1fff') || ('\u200c' ≤ c && c ≤ '\u200d')
    || ('\u2070' ≤ c && c ≤ '\u218f') || ('\u2c00' ≤ c && c ≤ '\u2fef')
    || ('\u3001' ≤ c && c ≤ '\ud7ff') || ('\uf900' ≤ c && c ≤ '\ufdcf')
    || ('\ufdf0' ≤ c && c ≤ '\ufffd') || (0x10000 ≤ c.toNat && c.toNat ≤ 0xeffff)

def isNameChar (c : Char) : Bool :=
  isNameStart c || c = '-' || c = '.' || ('0' ≤ c && c ≤ '9') || c = '\u00b7'
    || ('\u0300' ≤ c && c ≤ '\u036f') || ('\u203f' ≤ c && c ≤ '\u2040')

def isName : List Char → Bool
  | [] => false
  | c :: rest => isNameStart c && rest.all isNameChar

def name? (s : List Char) : Option String :=
  if isName s then some (String.ofList s) else none

def entity? (s : List Char) : Option Char :=
  if s = ['l', 't'] then some '<'
  else if s = ['g', 't'] then some '>'
  else if s = ['a', 'm', 'p'] then some '&'
  else if s = ['a', 'p', 'o', 's'] then some '\''
  else if s = ['q', 'u', 'o', 't'] then some '"'
  else none

/-! ## markup -/

/-- what the characters that are read belong to -/
inductive Place where
  | content
  | attribute (tag : Tag) (name : String)
  deriving Repr

/-- the characters `read` are those since the last markup, entities decoded -/
inductive Mode where
  | data (place : Place) (read : List Char)
  | entity (place : Place) (read name : List Char)
  | markup
  | tagName (read : List Char)
  /-- after the white space in a tag -/
  | gap (tag : Tag)
  | attrName (tag : Tag) (read : List Char)
  | equals (tag : Tag) (name : String)
  /-- after the closing quote of an attribute -/
  | attrEnd (tag : Tag)
  /-- after the slash of a tag without content -/
  | slash (tag : Tag)
  | endName (read : List Char)
  | endGap (name : String)
  | bang
  | bangHyphen
  | comment (read : List Char)
  | commentHyphen (read : List Char)
  | commentEnd (read : List Char)
  deriving Repr

namespace Mode

def go (m : Mode) : Option (Mode × Option Event) := some (m, none)

def tell (e : Event) : Option (Mode × Option Event) := some (.data .content [], some e)

def step (c : Char) : Mode → Option (Mode × Option Event)
  | .data .content read =>
    if c = '<' then some (.markup, some (.text (String.ofList read)))
    else if c = '&' then go (.entity .content read [])
    else go (.data .content (read ++ [c]))
  | .data (.attribute tag name) read =>
    if c = '"' then go (.attrEnd ⟨tag.name, tag.attrs ++ [(name, String.ofList read)]⟩)
    else if c = '&' then go (.entity (.attribute tag name) read [])
    else if c = '<' then none
    else go (.data (.attribute tag name) (read ++ [c]))
  | .entity place read name =>
    if c = ';' then (entity? name).bind fun d => go (.data place (read ++ [d]))
    else go (.entity place read (name ++ [c]))
  | .markup =>
    if c = '/' then go (.endName []) else if c = '!' then go .bang else go (.tagName [c])
  | .tagName read =>
    if c = '>' then (name? read).bind fun name => tell (.startTag ⟨name, []⟩)
    else if c = '/' then (name? read).bind fun name => go (.slash ⟨name, []⟩)
    else if isBlank c then (name? read).bind fun name => go (.gap ⟨name, []⟩)
    else go (.tagName (read ++ [c]))
  | .gap tag =>
    if c = '>' then tell (.startTag tag)
    else if c = '/' then go (.slash tag)
    else if isBlank c then go (.gap tag)
    else go (.attrName tag [c])
  | .attrName tag read =>
    if c = '=' then (name? read).bind fun name => go (.equals tag name)
    else go (.attrName tag (read ++ [c]))
  | .equals tag name => if c = '"' then go (.data (.attribute tag name) []) else none
  | .attrEnd tag =>
    if c = '>' then tell (.startTag tag)
    else if c = '/' then go (.slash tag)
    else if isBlank c then go (.gap tag)
    else none
  | .slash tag => if c = '>' then tell (.emptyTag tag) else none
  | .endName read =>
    if c = '>' then (name? read).bind fun name => tell (.endTag name)
    else if isBlank c then (name? read).bind fun name => go (.endGap name)
    else go (.endName (read ++ [c]))
  | .endGap name =>
    if c = '>' then tell (.endTag name) else if isBlank c then go (.endGap name) else none
  | .bang => if c = '-' then go .bangHyphen else none
  | .bangHyphen => if c = '-' then go (.comment []) else none
  | .comment read =>
    if c = '-' then go (.commentHyphen read) else go (.comment (read ++ [c]))
  | .commentHyphen read =>
    if c = '-' then go (.commentEnd read) else go (.comment (read ++ ['-', c]))
  | .commentEnd read => if c = '>' then tell (.comment (String.ofList read)) else none

end Mode

/-! ## open elements -/

/-- an open element and what stands before it in the element around it -/
structure Open where
  name : String
  attrs : List Attr
  before : List Tree
  deriving Repr

/-- the open elements, the innermost one first, and what the innermost one holds -/
structure Nest where
  opens : List Open
  content : List Tree
  deriving Repr

namespace Nest

def empty : Nest := ⟨[], []⟩

def put (n : Nest) (t : Tree) : Nest := ⟨n.opens, n.content ++ [t]⟩

/-- the innermost open element holds text and no elements -/
def inLeaf (leaf : String → Bool) (n : Nest) : Bool :=
  match n.opens with
  | [] => false
  | o :: _ => leaf o.name

def addText (leaf : String → Bool) (n : Nest) (s : String) : Nest :=
  if s = "" ∨ (n.inLeaf leaf = false ∧ s.toList.all isBlank) then n else n.put (.text s)

def close (n : Nest) (name : String) : Option Nest :=
  match n.opens with
  | [] => none
  | o :: rest =>
    if o.name = name then some ⟨rest, o.before ++ [.element o.name o.attrs n.content]⟩ else none

def add (leaf : String → Bool) (n : Nest) : Event → Option Nest
  | .text s => some (n.addText leaf s)
  | .comment body => some (n.put (.comment body))
  | .startTag tag => some ⟨⟨tag.name, tag.attrs, n.content⟩ :: n.opens, []⟩
  | .emptyTag tag => some (n.put (.element tag.name tag.attrs []))
  | .endTag name => n.close name

end Nest

/-! ## texts -/

structure State where
  mode : Mode
  nest : Nest
  deriving Repr

namespace State

def start : State := ⟨.data .content [], .empty⟩

def step (leaf : String → Bool) (st : State) (c : Char) : Option State :=
  match st.mode.step c with
  | none => none
  | some (mode, none) => some ⟨mode, st.nest⟩
  | some (mode, some e) => (st.nest.add leaf e).map (⟨mode, ·⟩)

def run (leaf : String → Bool) (st : State) : List Char → Option State
  | [] => some st
  | c :: rest => (st.step leaf c).bind fun st => run leaf st rest

/-- what was read, if the text may end here -/
def finish (leaf : String → Bool) (st : State) : Option (List Tree) :=
  match st.mode with
  | .data .content read =>
    let n := st.nest.addText leaf (String.ofList read)
    if n.opens.isEmpty then some n.content else none
  | _ => none

end State

/-- the trees that a text holds, side by side -/
def forest? (leaf : String → Bool) (s : List Char) : Option (List Tree) :=
  (State.start.run leaf s).bind (State.finish leaf)

/-- how a text declares itself XML -/
def declared : String := "<?xml version=\"1.0\"?>"

/-- the one element of a text that declares itself XML -/
def document? (leaf : String → Bool) (s : String) : Option Tree :=
  match (s.toList.dropPrefix? declared.toList).bind (forest? leaf) with
  | some [.element name attrs content] => some (.element name attrs content)
  | _ => none

example : document? (· = "b") "<?xml version=\"1.0\"?>\n<a x=\"&lt;\">\n  <b> </b>\n</a>\n"
    = some (.element "a" [("x", "<")] [.element "b" [] [.text " "]]) := rfl

end Toolflow.Xml
