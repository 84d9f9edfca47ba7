/-!
# JSON values

The values a workflow is described with.  A number keeps what a reader of workflows can tell apart:

* `Number.natural n`    a non-negative whole number of at most 64 bits;
* `Number.negative n`   a negative whole number of at most 64 bits;
* `Number.real`         every other number; nothing depends on how large it is.

An object is a list of members in ascending order of their keys.  `Json.insert` keeps that order
and lets a later member replace an earlier one of the same key, so that two texts which spell the
same members, in whatever order, give the same value.  All reading goes through `Json.find?`; the
laws of the two (`find?_insert_self`, `find?_insert_of_ne`) hold for every list, ordered or not.
-/

namespace Toolflow

namespace Json

inductive Number where
  | natural (value : UInt64)
  | negative (value : Int64)
  | real
  deriving Repr, DecidableEq

end Json

inductive Json where
  | null
  | bool (value : Bool)
  | num (value : Json.Number)
  | str (value : String)
  | arr (items : List Json)
  | obj (members : List (String × Json))
  deriving Repr, Inhabited

namespace Json

/-! ## members -/

abbrev Members := List (String × Json)

def find? (members : Members) (key : String) : Option Json :=
  members.lookup key

/-- a member put where its key belongs, in place of the member that has the key already -/
def insert (key : String) (value : Json) : Members → Members
  | [] => [(key, value)]
  | (k, v) :: rest =>
    if key = k then (key, value) :: rest
    else if key < k then (key, value) :: (k, v) :: rest
    else (k, v) :: insert key value rest

/-- members in the order they were written: the last of equal keys counts -/
def ofPairs (pairs : List (String × Json)) : Members :=
  pairs.foldl (fun members p => insert p.1 p.2 members) []

theorem find?_nil (key : String) : find? [] key = none := rfl

theorem find?_cons (k : String) (v : Json) (rest : Members) (key : String) :
    find? ((k, v) :: rest) key = if key = k then some v else find? rest key := by
  by_cases h : key = k
  · simp [find?, h]
  · simp [find?, List.lookup_cons, beq_false_of_ne h, h]

theorem find?_insert_self (key : String) (value : Json) (members : Members) :
    find? (insert key value members) key = some value := by
  induction members with
  | nil => simp [insert, find?_cons]
  | cons p rest ih =>
    obtain ⟨k, v⟩ := p
    by_cases h : key = k
    · simp [insert, h, find?_cons]
    · by_cases hlt : key < k
      · simp [insert, h, hlt, find?_cons]
      · simp [insert, h, hlt, find?_cons, ih]

theorem find?_insert_of_ne {key other : String} (h : other ≠ key) (value : Json)
    (members : Members) : find? (insert key value members) other = find? members other := by
  induction members with
  | nil => simp [insert, find?_cons, find?_nil, h]
  | cons p rest ih =>
    obtain ⟨k, v⟩ := p
    by_cases hk : key = k
    · subst hk
      simp [insert, find?_cons, h]
    · by_cases hlt : key < k
      · simp [insert, hk, hlt, find?_cons, h]
      · simp [insert, hk, hlt, find?_cons, ih]

/-! ## views of a value -/

def string? : Json → Option String
  | .str s => some s
  | _ => none

def bool? : Json → Option Bool
  | .bool b => some b
  | _ => none

/-- a non-negative whole number of at most 64 bits; a number written with a point or an exponent
is none -/
def natural? : Json → Option UInt64
  | .num (.natural n) => some n
  | _ => none

def items? : Json → Option (List Json)
  | .arr items => some items
  | _ => none

/-- the members of an object; every other value has none -/
def members : Json → Members
  | .obj members => members
  | _ => []

def get? (value : Json) (key : String) : Option Json :=
  find? value.members key

def stringAt (value : Json) (key : String) : String :=
  ((value.get? key).bind string?).getD ""

/-! ## making values -/

def ofObject (pairs : List (String × Json)) : Json := .obj (ofPairs pairs)

def ofStrings (l : List String) : Json := .arr (l.map .str)

def ofString? : Option String → Json
  | some s => .str s
  | none => .null

def ofBool? : Option Bool → Json
  | some b => .bool b
  | none => .null

def ofNatural? : Option UInt64 → Json
  | some n => .num (.natural n)
  | none => .null

def ofNat (n : Nat) : Json := .num (.natural (UInt64.ofNat n))

end Json

end Toolflow
