import Toolflow.Json.Basic
import Toolflow.Json.Failure
import Toolflow.Json.Magnitude

/-!
# Reading a number

A `Numeral` is a number read up to some character; its constructors say which part was read last.
`Numeral.step` takes one more character: the number goes on, or the character does not belong to
it (`ends`).  `Numeral.value` is the number when it ends there, with `Number.ofWhole` deciding
between the three kinds.

A whole number that fits 64 bits is kept, a negative one if it fits as a signed number; `-0`, and
everything written with a point or an exponent, is a real.  An exponent that needs more than 31
bits makes the number too large at once, unless it is negative or the digits before it are all
zero; then the rest of the exponent does not matter.
-/

namespace Toolflow.Json

/-! ## digits -/

def digit? (c : Char) : Option Nat :=
  if c.isDigit then some (c.toNat - '0'.toNat) else none

def exponentLimit : Nat := 2147483647

/-! ## numbers in progress -/

inductive Numeral where
  | minus
  | zero (negative : Bool)
  | whole (negative : Bool) (size : Magnitude)
  | point (size : Magnitude)
  | fraction (size : Magnitude)
  | mark (size : Magnitude)
  | signedMark (down : Bool) (size : Magnitude)
  | exponent (down : Bool) (digits : Nat) (size : Magnitude)
  | anyExponent
  deriving Repr, DecidableEq

namespace Numeral

inductive Progress where
  | more (numeral : Numeral)
  | ends
  | stops (stop : Stop)
  deriving Repr, DecidableEq

def start? (c : Char) : Option Numeral :=
  if c = '-' then some .minus
  else if c = '0' then some (.zero false)
  else (digit? c).map fun d => .whole false (.ofDigit d)

/-- what may follow complete digits: a point, if none was there, or an exponent -/
def afterDigits (size : Magnitude) (pointed : Bool) (c : Char) : Progress :=
  if c = '.' ∧ ¬pointed then .more (.point size.atPoint)
  else if c = 'e' ∨ c = 'E' then .more (.mark size)
  else .ends

def pushExponent (down : Bool) (digits : Nat) (size : Magnitude) (d : Nat) : Progress :=
  if digits * 10 + d ≤ exponentLimit then .more (.exponent down (digits * 10 + d) size)
  else if size.significand ≠ 0 ∧ ¬down then .stops (.past .numberOutOfRange)
  else .more .anyExponent

def step (c : Char) : Numeral → Progress
  | .minus =>
    if c = '0' then .more (.zero true)
    else match digit? c with
      | some d => .more (.whole true (.ofDigit d))
      | none => .stops (.past .invalidNumber)
  | .zero _ =>
    match digit? c with
    | some _ => .stops (.past .invalidNumber)
    | none => afterDigits (.ofDigit 0) false c
  | .whole negative size =>
    match digit? c with
    | some d => .more (.whole negative (size.pushWhole d))
    | none => afterDigits size false c
  | .point size =>
    match digit? c with
    | some d => .more (.fraction (size.pushFraction d))
    | none => .stops (.past .invalidNumber)
  | .fraction size =>
    match digit? c with
    | some d => .more (.fraction (size.pushFraction d))
    | none => afterDigits size true c
  | .mark size =>
    if c = '+' then .more (.signedMark false size)
    else if c = '-' then .more (.signedMark true size)
    else match digit? c with
      | some d => .more (.exponent false d size)
      | none => .stops (.past .invalidNumber)
  | .signedMark down size =>
    match digit? c with
    | some d => .more (.exponent down d size)
    | none => .stops (.past .invalidNumber)
  | .exponent down digits size =>
    match digit? c with
    | some d => pushExponent down digits size d
    | none => .ends
  | .anyExponent =>
    match digit? c with
    | some _ => .more .anyExponent
    | none => .ends

/-! ## the value of a complete number -/

def realOf (size : Magnitude) : Except Cause Number :=
  if size.outOfRange then .error .numberOutOfRange else .ok .real

/-- a number without point and exponent -/
def ofWhole (negative : Bool) (size : Magnitude) : Except Cause Number :=
  if size.full then realOf size
  else if ¬negative then .ok (.natural (UInt64.ofNat size.significand))
  else if size.significand ≤ Nat.pow 2 63 then .ok (.negative (Int64.ofInt (-size.significand)))
  else realOf size

def value : Numeral → Except Cause Number
  | .minus | .point _ | .mark _ | .signedMark _ _ => .error .endInValue
  | .zero negative => .ok (if negative then .real else .natural 0)
  | .whole negative size => ofWhole negative size
  | .fraction size => realOf size
  | .exponent down digits size =>
    realOf (size.scaledBy (if down then -(digits : Int) else digits))
  | .anyExponent => .ok .real

end Numeral

end Toolflow.Json
