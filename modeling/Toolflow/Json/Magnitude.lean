/-!
# The size of a number, as 64 bits hold it

The digits of a number are gathered into a `significand` below 2^64 and a power of ten, `scale`.
A digit that no longer fits is dropped, and so is every later one of the same part: before the
point each dropped digit raises the scale, behind it none changes anything.

A magnitude is `outOfRange` when the product of its two factors, each rounded to 53 bits, is too
large for a double (`limit`); a scale above 308 has no second factor.
-/

namespace Toolflow.Json

structure Magnitude where
  significand : Nat
  scale : Int
  full : Bool
  deriving Repr, DecidableEq

namespace Magnitude

def ofDigit (d : Nat) : Magnitude := ⟨d, 0, false⟩

def fits (m : Magnitude) (d : Nat) : Bool :=
  !m.full && decide (m.significand * 10 + d < Nat.pow 2 64)

def pushWhole (m : Magnitude) (d : Nat) : Magnitude :=
  if m.fits d then { m with significand := m.significand * 10 + d }
  else { m with scale := m.scale + 1, full := true }

/-- at the point digits are taken again, if they fit -/
def atPoint (m : Magnitude) : Magnitude := { m with full := false }

def pushFraction (m : Magnitude) (d : Nat) : Magnitude :=
  if m.fits d then ⟨m.significand * 10 + d, m.scale - 1, false⟩
  else { m with full := true }

def scaledBy (m : Magnitude) (exponent : Int) : Magnitude :=
  { m with scale := m.scale + exponent }

/-! ## range -/

/-- nearest number of 53 significant bits, ties to even -/
def round53 (n : Nat) : Nat :=
  let unit := Nat.pow 2 (n.log2 - 52)
  let low := n / unit
  let rest := n % unit
  if 2 * rest < unit then low * unit
  else if 2 * rest = unit ∧ low % 2 = 0 then low * unit
  else (low + 1) * unit

/-- the least number that rounds to no finite double -/
def limit : Nat := Nat.pow 2 1024 - Nat.pow 2 970

def outOfRange (m : Magnitude) : Bool :=
  if m.significand = 0 then false
  else if m.scale < 0 then false
  else if 308 < m.scale then true
  else decide (limit ≤ round53 m.significand * round53 (Nat.pow 10 m.scale.toNat))

theorem outOfRange_zero (scale : Int) (full : Bool) :
    outOfRange ⟨0, scale, full⟩ = false := rfl

end Magnitude

end Toolflow.Json
