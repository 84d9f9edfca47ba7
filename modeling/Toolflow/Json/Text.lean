import Toolflow.Json.Failure

/-!
# Reading a string

A `Text` is the inside of a string read up to some character, its characters so far the last one
first.  `Text.step` takes one more character: the string goes on, or it ends with its closing
quote.

An escape of four hexadecimal digits names a UTF-16 unit.  Two such escapes, a high surrogate and
then a low one, name one character together.  The four digits are taken as four bytes, whatever
they hold, before they are judged.
-/

namespace Toolflow.Json

inductive Escape where
  | plain
  | backslash
  /-- some bytes into the digits of an escape; `units` is none when one was no digit, and `high` is
  the high surrogate read before -/
  | digits (high : Option Nat) (bytes : Nat) (units : Option Nat)
  | surrogate (high : Nat)
  | surrogateBackslash (high : Nat)
  deriving Repr, DecidableEq

structure Text where
  chars : List Char
  escape : Escape
  deriving Repr, DecidableEq

/-! ## digits and units -/

def hexDigit? (c : Char) : Option Nat :=
  if c.isDigit then some (c.toNat - '0'.toNat)
  else if 'a' ≤ c ∧ c ≤ 'f' then some (c.toNat - 'a'.toNat + 10)
  else if 'A' ≤ c ∧ c ≤ 'F' then some (c.toNat - 'A'.toNat + 10)
  else none

def isHighSurrogate (unit : Nat) : Bool := decide (0xD800 ≤ unit ∧ unit < 0xDC00)

def isLowSurrogate (unit : Nat) : Bool := decide (0xDC00 ≤ unit ∧ unit < 0xE000)

def pairedChar (high low : Nat) : Char :=
  Char.ofNat (0x10000 + (high - 0xD800) * 0x400 + (low - 0xDC00))

/-- the character that a backslash and this letter name -/
def shortEscape? : Char → Option Char
  | '"' => some '"'
  | '\\' => some '\\'
  | '/' => some '/'
  | 'b' => some '\x08'
  | 'f' => some '\x0c'
  | 'n' => some '\n'
  | 'r' => some '\r'
  | 't' => some '\t'
  | _ => none

namespace Text

def empty : Text := ⟨[], .plain⟩

inductive Progress where
  | more (text : Text)
  | ends (value : String)
  | stops (stop : Stop)
  deriving Repr, DecidableEq

def push (chars : List Char) (c : Char) : Progress := .more ⟨c :: chars, .plain⟩

/-- four digits have been read and name this unit -/
def pushUnit (chars : List Char) (high : Option Nat) (unit : Nat) (lone : Stop) : Progress :=
  match high with
  | none =>
    if isHighSurrogate unit then .more ⟨chars, .surrogate unit⟩
    else if isLowSurrogate unit then .stops lone
    else push chars (Char.ofNat unit)
  | some h =>
    if isLowSurrogate unit then push chars (pairedChar h unit) else .stops lone

def step (c : Char) (t : Text) : Progress :=
  match t.escape with
  | .plain =>
    if c = '"' then .ends (String.ofList t.chars.reverse)
    else if c = '\\' then .more ⟨t.chars, .backslash⟩
    else if c.toNat < 0x20 then .stops (.past .controlCharacter)
    else push t.chars c
  | .backslash =>
    if c = 'u' then .more ⟨t.chars, .digits none 0 (some 0)⟩
    else match shortEscape? c with
      | some e => push t.chars e
      | none => .stops (.past .invalidEscape)
  | .digits high bytes units =>
    let units' := units.bind fun u => (hexDigit? c).map fun d => u * 16 + d
    if bytes + c.utf8Size < 4 then .more ⟨t.chars, .digits high (bytes + c.utf8Size) units'⟩
    else match units' with
      | some unit => pushUnit t.chars high unit ⟨.loneSurrogate, 4 - bytes⟩
      | none => .stops ⟨.invalidEscape, 4 - bytes⟩
  | .surrogate high =>
    if c = '\\' then .more ⟨t.chars, .surrogateBackslash high⟩
    else .stops (.past .unfinishedSurrogate)
  | .surrogateBackslash high =>
    if c = 'u' then .more ⟨t.chars, .digits (some high) 0 (some 0)⟩
    else .stops (.past .unfinishedSurrogate)

end Text

end Toolflow.Json
