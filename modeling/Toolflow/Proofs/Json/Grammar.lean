import Mathlib.Data.List.Forall2
import Toolflow.Json.Basic
import Toolflow.Json.Magnitude

/-!
# What a JSON text spells

The grammar of JSON (RFC 8259) and the meaning of its texts, apart from everything that reads them
here.

* `Literal`           a number as it is written, with its `text`; there are no digits behind the
                      point where there is no point.  `Literal.Denotes` says which number it is;
* `Spells d t v`      the text `t` spells the value `v`, with at most `d` arrays and objects inside
                      one another; white space may stand around it;
* `SpelledBy text v`  a whole text, where the limit is 127.

A whole number without point and exponent is kept if 64 bits hold it, as a natural number or, below
zero, as a signed one.  Every other number is a real, `-0` among them.  It must not be too large
(`Literal.TooLarge`), which is judged by the digits that 64 bits hold.
-/

namespace Toolflow.Json

/-! ## digits -/

def digitValue (c : Char) : Nat := c.toNat - '0'.toNat

/-- the number that these digits make behind the digits of another number -/
def decimalFrom (n : Nat) (ds : List Char) : Nat := ds.foldl (fun n c => n * 10 + digitValue c) n

def decimal (ds : List Char) : Nat := decimalFrom 0 ds

structure IsDigits (ds : List Char) : Prop where
  ne_nil : ds ≠ []
  digit : ∀ c ∈ ds, c.isDigit = true

/-- digits are taken as long as 64 bits hold the number; the second part counts those left out -/
def taken (n : Nat) : List Char → Nat × Nat
  | [] => (n, 0)
  | c :: rest =>
    if n * 10 + digitValue c < Nat.pow 2 64 then taken (n * 10 + digitValue c) rest
    else (n, rest.length + 1)

/-! ## numbers -/

structure Exponent where
  mark : Char
  sign : Option Char
  digits : List Char
  mark_eq : mark = 'e' ∨ mark = 'E'
  sign_eq : ∀ c ∈ sign, c = '+' ∨ c = '-'
  isDigits : IsDigits digits

def Exponent.text (e : Exponent) : List Char := e.mark :: (e.sign.toList ++ e.digits)

def Exponent.value (e : Exponent) : Int :=
  if e.sign = some '-' then -decimal e.digits else decimal e.digits

structure Literal where
  minus : Bool
  whole : List Char
  fraction : List Char
  exponent : Option Exponent
  isDigits : IsDigits whole
  no_leading_zero : whole.head? = some '0' → whole = ['0']
  digit : ∀ c ∈ fraction, c.isDigit = true

namespace Literal

def signText (minus : Bool) : List Char := if minus then ['-'] else []

def fractionText (ds : List Char) : List Char := if ds = [] then [] else '.' :: ds

def exponentText (e : Option Exponent) : List Char := (e.map Exponent.text).getD []

def text (l : Literal) : List Char :=
  signText l.minus ++ l.whole ++ fractionText l.fraction ++ exponentText l.exponent

/-- a whole number that 64 bits hold; zero has no sign -/
def Fits (l : Literal) : Prop :=
  l.fraction = [] ∧ l.exponent = none ∧
    if l.minus then 0 < decimal l.whole ∧ decimal l.whole ≤ Nat.pow 2 63
    else decimal l.whole < Nat.pow 2 64

def significand (l : Literal) : Nat := (taken (taken 0 l.whole).1 l.fraction).1

/-- the power of ten behind the digits that are taken: a digit left out before the point raises
it, a digit taken behind the point lowers it -/
def scale (l : Literal) : Int :=
  (taken 0 l.whole).2 - (l.fraction.length - (taken (taken 0 l.whole).1 l.fraction).2 : Nat)

/-- too large for a double; an exponent of more than 31 bits is not even added, and it is too large
unless the digits are zero or the exponent is negative -/
def TooLarge (l : Literal) : Prop :=
  match l.exponent with
  | none => Magnitude.outOfRange ⟨l.significand, l.scale, false⟩ = true
  | some e =>
    if decimal e.digits ≤ 2147483647 then
      Magnitude.outOfRange ⟨l.significand, l.scale + e.value, false⟩ = true
    else l.significand ≠ 0 ∧ e.sign ≠ some '-'

inductive Denotes (l : Literal) : Number → Prop
  | natural (n : UInt64) (fits : l.Fits) (plus : l.minus = false)
      (value : n.toNat = decimal l.whole) : Denotes l (.natural n)
  | negative (n : Int64) (fits : l.Fits) (minus : l.minus = true)
      (value : n.toInt = -(decimal l.whole : Int)) : Denotes l (.negative n)
  | real (notFits : ¬ l.Fits) (notTooLarge : ¬ l.TooLarge) : Denotes l .real

end Literal

/-! ## strings -/

def shortEscapes : List (Char × Char) :=
  [('"', '"'), ('\\', '\\'), ('/', '/'), ('b', '\x08'), ('f', '\x0c'), ('n', '\n'), ('r', '\r'),
    ('t', '\t')]

def HexDigit (c : Char) (d : Nat) : Prop :=
  "0123456789abcdef".toList[d]? = some c ∨ "0123456789ABCDEF".toList[d]? = some c

instance (c : Char) (d : Nat) : Decidable (HexDigit c d) := inferInstanceAs (Decidable (_ ∨ _))

def SpellsHex (t : List Char) (n : Nat) : Prop :=
  ∃ ds, List.Forall₂ HexDigit t ds ∧ n = ds.foldl (fun n d => n * 16 + d) 0

/-- four digits that name a unit of UTF-16 -/
def SpellsUnit (t : List Char) (unit : Nat) : Prop := t.length = 4 ∧ SpellsHex t unit

def highUnit (c : Char) : Nat := 0xD800 + (c.toNat - 0x10000) / 0x400

def lowUnit (c : Char) : Nat := 0xDC00 + (c.toNat - 0x10000) % 0x400

inductive SpellsChar : List Char → Char → Prop
  | plain {c : Char} : 0x20 ≤ c.toNat → c ≠ '"' → c ≠ '\\' → SpellsChar [c] c
  | short {e c : Char} : (e, c) ∈ shortEscapes → SpellsChar ['\\', e] c
  | unit {t : List Char} {c : Char} : SpellsUnit t c.toNat → SpellsChar ('\\' :: 'u' :: t) c
  | pair {high low : List Char} {c : Char} : 0x10000 ≤ c.toNat → SpellsUnit high (highUnit c) →
      SpellsUnit low (lowUnit c) →
      SpellsChar ('\\' :: 'u' :: high ++ '\\' :: 'u' :: low) c

def SpellsString (t : List Char) (s : List Char) : Prop :=
  ∃ pieces : List (List Char × Char), (∀ p ∈ pieces, SpellsChar p.1 p.2) ∧
    t = pieces.flatMap Prod.fst ∧ s = pieces.map Prod.snd

/-! ## values -/

def Blank (t : List Char) : Prop := ∀ c ∈ t, c = ' ' ∨ c = '\t' ∨ c = '\n' ∨ c = '\r'

instance (t : List Char) : Decidable (Blank t) :=
  List.decidableBAll (fun c => c = ' ' ∨ c = '\t' ∨ c = '\n' ∨ c = '\r') t

def SpellsKey (t : List Char) (key : String) : Prop :=
  ∃ front inside chars, Blank front ∧ SpellsString inside chars ∧ key = String.ofList chars ∧
    t = front ++ '"' :: (inside ++ ['"'])

/-- a member as it is written: the key, white space, and what stands behind the colon -/
structure Member where
  keyText : List Char
  key : String
  blank : List Char
  valueText : List Char
  value : Json

def Member.text (m : Member) : List Char := m.keyText ++ m.blank ++ ':' :: m.valueText

def Member.pair (m : Member) : String × Json := (m.key, m.value)

inductive Spells : Nat → List Char → Json → Prop
  | null (d : Nat) : Spells d ['n', 'u', 'l', 'l'] .null
  | true (d : Nat) : Spells d ['t', 'r', 'u', 'e'] (.bool true)
  | false (d : Nat) : Spells d ['f', 'a', 'l', 's', 'e'] (.bool false)
  | number (d : Nat) {l : Literal} {n : Number} : l.Denotes n → Spells d l.text (.num n)
  | string (d : Nat) {t s : List Char} : SpellsString t s →
      Spells d ('"' :: (t ++ ['"'])) (.str (String.ofList s))
  | emptyArray (d : Nat) {b : List Char} : Blank b → Spells (d + 1) ('[' :: (b ++ [']'])) (.arr [])
  | array (d : Nat) {pieces : List (List Char × Json)} : pieces ≠ [] →
      (∀ p ∈ pieces, Spells d p.1 p.2) →
      Spells (d + 1) ('[' :: (List.intercalate [','] (pieces.map Prod.fst) ++ [']']))
        (.arr (pieces.map Prod.snd))
  | emptyObject (d : Nat) {b : List Char} : Blank b →
      Spells (d + 1) ('\x7b' :: (b ++ ['\x7d'])) (.obj [])
  | object (d : Nat) {pieces : List Member} : pieces ≠ [] →
      (∀ m ∈ pieces, SpellsKey m.keyText m.key ∧ Blank m.blank) →
      (∀ m ∈ pieces, Spells d m.valueText m.value) →
      Spells (d + 1) ('\x7b' :: (List.intercalate [','] (pieces.map Member.text) ++ ['\x7d']))
        (.obj (ofPairs (pieces.map Member.pair)))
  | padded {d : Nat} {front t behind : List Char} {v : Json} : Blank front → Blank behind →
      Spells d t v → Spells d (front ++ t ++ behind) v

/-- a whole text; no more than 127 arrays and objects stand inside one another -/
def SpelledBy (text : String) (v : Json) : Prop := Spells 127 text.toList v

end Toolflow.Json
