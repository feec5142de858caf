/-!
Rounding to a binary format.

A format numbers its non-negative values from zero upwards: value `0` has code 0,
the least positive value has code 1, and infinity has the last code.  The code is
the bit pattern without its sign, and it ascends with the value, so rounding up
across a power of two is one step to the next code like any other.
-/

namespace QuestArchive

def pow2 (n : Nat) : Nat := Nat.pow 2 n

theorem pow2_zero : pow2 0 = 1 := rfl

theorem pow2_succ (n : Nat) : pow2 (n + 1) = 2 * pow2 n := Nat.mul_comm _ _

theorem pow2_pos (n : Nat) : 0 < pow2 n := Nat.pow_pos (by omega)

structure BinaryFormat where
  /-- Significant bits. -/
  precision : Nat
  /-- The exponent of the least positive value, `2 ^ least`. -/
  least : Int
  /-- The code of infinity. -/
  infinity : Nat
  deriving DecidableEq

namespace BinaryFormat

def single : BinaryFormat := { precision := 24, least := -149, infinity := 0x7F800000 }

def double : BinaryFormat :=
  { precision := 53, least := -1074, infinity := 0x7FF0000000000000 }

def parts (f : BinaryFormat) (code : Nat) : Nat × Int :=
  let unit := pow2 (f.precision - 1)
  if code / unit = 0 then (code, f.least)
  else (unit + code % unit, f.least + (code / unit : Nat) - 1)

/-- The integer nearest to `num / den`, the even one of two equally near. -/
def roundRatio (num den : Nat) : Nat :=
  let q := num / den
  let r := num % den
  if 2 * r < den then q
  else if den < 2 * r then q + 1
  else if q % 2 = 0 then q else q + 1

def inUnits (num den : Nat) (e : Int) : Nat × Nat :=
  (num * pow2 (-e).toNat, den * pow2 e.toNat)

def leadingBit (num den : Nat) : Int :=
  let guess : Int := (Nat.log2 num : Int) - Nat.log2 den
  let scaled := inUnits num den guess
  if scaled.1 < scaled.2 then guess - 1 else guess

/-- The code of the value nearest to `num / den`, ties going to the even code.
What is nearer to the next power of two than to any finite value is infinite. -/
def round (f : BinaryFormat) (num den : Nat) : Nat :=
  if num = 0 then 0
  else
    let e := max f.least (leadingBit num den - (f.precision - 1 : Nat))
    let scaled := inUnits num den e
    min f.infinity
      ((e - f.least).toNat * pow2 (f.precision - 1) + roundRatio scaled.1 scaled.2)

end BinaryFormat
end QuestArchive
