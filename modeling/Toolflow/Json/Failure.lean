/-!
# Why and where a text is no JSON value

* `Cause`      what was found wrong, one constructor per message;
* `Stop`       a cause together with the number of bytes, counted from the first byte of the
               character at hand, after which it is reported;
* `Position`   a place in a text as a line and a column.  Both count bytes: the line is one more
               than the line feeds before the place, the column is the number of bytes since the
               last of them (`Position.after`);
* `Failure`    a cause and the place where it is reported.
-/

namespace Toolflow.Json

/-! ## causes -/

inductive Cause where
  | endInValue
  | endInList
  | endInObject
  | endInString
  | expectedValue
  | expectedIdent
  | trailingCharacters
  | expectedCommaOrBracket
  | expectedCommaOrBrace
  | expectedColon
  | trailingComma
  | keyNotString
  | tooDeep
  | controlCharacter
  | invalidEscape
  | loneSurrogate
  | unfinishedSurrogate
  | invalidNumber
  | numberOutOfRange
  deriving Repr, DecidableEq

def Cause.message : Cause → String
  | .endInValue => "EOF while parsing a value"
  | .endInList => "EOF while parsing a list"
  | .endInObject => "EOF while parsing an object"
  | .endInString => "EOF while parsing a string"
  | .expectedValue => "expected value"
  | .expectedIdent => "expected ident"
  | .trailingCharacters => "trailing characters"
  | .expectedCommaOrBracket => "expected `,` or `]`"
  | .expectedCommaOrBrace => "expected `,` or `\x7d`"
  | .expectedColon => "expected `:`"
  | .trailingComma => "trailing comma"
  | .keyNotString => "key must be a string"
  | .tooDeep => "recursion limit exceeded"
  | .controlCharacter => "control character (\\u0000-\\u001F) found while parsing a string"
  | .invalidEscape => "invalid escape"
  | .loneSurrogate => "lone leading surrogate in hex escape"
  | .unfinishedSurrogate => "unexpected end of hex escape"
  | .invalidNumber => "invalid number"
  | .numberOutOfRange => "number out of range"

structure Stop where
  cause : Cause
  ahead : Nat
  deriving Repr, DecidableEq

/-- reported after the first byte of the character at hand -/
def Stop.past (cause : Cause) : Stop := ⟨cause, 1⟩

/-- reported before the character at hand -/
def Stop.before (cause : Cause) : Stop := ⟨cause, 0⟩

/-! ## positions -/

structure Position where
  line : Nat
  column : Nat
  deriving Repr, DecidableEq

def Position.after (bytes : List UInt8) : Position where
  line := 1 + bytes.count 10
  column := (bytes.reverse.takeWhile (· ≠ 10)).length

theorem Position.after_concat (bytes : List UInt8) (b : UInt8) :
    Position.after (bytes ++ [b]) =
      if b = 10 then ⟨(Position.after bytes).line + 1, 0⟩
      else ⟨(Position.after bytes).line, (Position.after bytes).column + 1⟩ := by
  by_cases h : b = 10 <;> simp [Position.after, h, List.count_append, Nat.add_assoc]

def Position.inText (text : String) (offset : Nat) : Position :=
  .after (text.toUTF8.data.toList.take offset)

structure Failure where
  cause : Cause
  position : Position
  deriving Repr, DecidableEq

def Failure.message (f : Failure) : String :=
  s!"{f.cause.message} at line {f.position.line} column {f.position.column}"

end Toolflow.Json
