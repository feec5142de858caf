import QuestArchive.Number.Binary

/-!
Numbers of double precision, as bit patterns.

Every operation is the exact result rounded once to nearest, ties to even, so its
value is a matter of integer arithmetic on the decoded patterns.  Patterns of
single precision are widened exactly; narrowing reports a finite number that would
become infinite.
-/

namespace QuestArchive

structure Double where
  bits : UInt64
  deriving DecidableEq, Repr, Inhabited

namespace Double

def signBit : Nat := 0x8000000000000000

def negative (x : Double) : Bool := signBit ≤ x.bits.toNat

def code (x : Double) : Nat := x.bits.toNat % signBit

def ofCode (negative : Bool) (code : Nat) : Double :=
  ⟨UInt64.ofNat (code + if negative then signBit else 0)⟩

def infinityCode : Nat := BinaryFormat.double.infinity

def isNaN (x : Double) : Bool := infinityCode < x.code

def isInfinite (x : Double) : Bool := x.code = infinityCode

def isFinite (x : Double) : Bool := x.code < infinityCode

def nan : Double := ⟨0x7FF8000000000000⟩

def zero : Double := ⟨0⟩

def parts (x : Double) : Nat × Int := BinaryFormat.double.parts x.code

/-- The ratio `num / den`, a positive denominator, scaled by `2 ^ e` and rounded. -/
def ofRatio (negative : Bool) (num den : Nat) (e : Int) : Double :=
  ofCode negative (BinaryFormat.double.round (num * pow2 e.toNat) (den * pow2 (-e).toNat))

/-- The nearest number to an integer; an integer past the greatest finite number
has none. -/
def ofInt? (n : Int) : Option Double :=
  let x := ofRatio (n < 0) n.natAbs 1 0
  if x.isFinite then some x else none

def ratio (x : Double) : Nat × Nat :=
  (x.parts.1 * pow2 x.parts.2.toNat, pow2 (-x.parts.2).toNat)

/-- The nearest integer to a finite number, ties to even. -/
def roundInt (x : Double) : Int :=
  let n := BinaryFormat.roundRatio x.ratio.1 x.ratio.2
  if x.negative then -(n : Int) else n

def truncate (x : Double) : Int :=
  let n := x.ratio.1 / x.ratio.2
  if x.negative then -(n : Int) else n

def isZero (x : Double) : Bool := x.code = 0

def mul (x y : Double) : Double :=
  let negative := x.negative != y.negative
  if x.isNaN || y.isNaN then nan
  else if x.isInfinite || y.isInfinite then
    if x.isZero || y.isZero then nan else ofCode negative infinityCode
  else ofRatio negative (x.parts.1 * y.parts.1) 1 (x.parts.2 + y.parts.2)

def div (x y : Double) : Double :=
  let negative := x.negative != y.negative
  if x.isNaN || y.isNaN then nan
  else if x.isInfinite then
    if y.isInfinite then nan else ofCode negative infinityCode
  else if y.isInfinite then ofCode negative 0
  else if y.isZero then
    if x.isZero then nan else ofCode negative infinityCode
  else ofRatio negative x.parts.1 y.parts.1 (x.parts.2 - y.parts.2)

/-- A finite number as an integer count of units of `2 ^ e`, for an exponent not
above its own. -/
def countUnits (x : Double) (e : Int) : Int :=
  let n : Int := (x.parts.1 * pow2 (x.parts.2 - e).toNat : Nat)
  if x.negative then -n else n

def distanceFromOne (x : Double) : Double :=
  if x.isNaN then nan
  else if x.isInfinite then ofCode false infinityCode
  else
    let e := min x.parts.2 0
    ofRatio false (x.countUnits e - pow2 (-e).toNat).natAbs 1 e

/-- Order on numbers; nothing is less or greater than a NaN, and the zeros are
equal. -/
def lt (x y : Double) : Bool :=
  if x.isNaN || y.isNaN then false
  else if x.isZero && y.isZero then false
  else match x.negative, y.negative with
    | false, false => x.code < y.code
    | true, true => y.code < x.code
    | true, false => true
    | false, true => false

/-- How a number compares with an integer, exactly; a NaN does not compare. -/
def compareInt? (x : Double) (n : Int) : Option Ordering :=
  if x.isNaN then none
  else if x.isInfinite then some (if x.negative then .lt else .gt)
  else
    let e := min x.parts.2 0
    some (compare (x.countUnits e) (n * pow2 (-e).toNat))

/-- The bit pattern of a single-precision number, widened.  A NaN keeps its sign
and payload and becomes quiet. -/
def ofSingle (s : UInt32) : Double :=
  let negative := 0x80000000 ≤ s.toNat
  let code := s.toNat % 0x80000000
  let f := BinaryFormat.single
  if f.infinity < code then
    ofCode negative (0x7FF8000000000000 + code % 0x400000 * 0x20000000)
  else if code = f.infinity then ofCode negative infinityCode
  else
    let p := f.parts code
    ofRatio negative p.1 1 p.2

/-- The nearest single-precision pattern, or nothing when a finite number is too
large for one. -/
def toSingle? (x : Double) : Option UInt32 :=
  let f := BinaryFormat.single
  let sign := if x.negative then 0x80000000 else 0
  if x.isNaN then some (UInt32.ofNat (sign + 0x7FC00000 + x.code / 0x20000000 % 0x400000))
  else if x.isInfinite then some (UInt32.ofNat (sign + f.infinity))
  else
    let code := f.round x.ratio.1 x.ratio.2
    if code = f.infinity then none else some (UInt32.ofNat (sign + code))

end Double
end QuestArchive
