import QuestArchive.Number.Double

/-!
Numbers as text: integers, decimal or hexadecimal, and numbers of double precision.

A number of double precision is written with the fewest digits that read back.  The
reals that round to a finite number form an interval around it, closed when the
significand is even.  Writing picks, for one digit, two digits and so on, the decimals
next to the number on that grid, and takes the first grid on which one of them lies in
the interval.  Reading rounds the exact decimal once.
-/

namespace QuestArchive
namespace Numeral

def decimal (n : Int) : List Char :=
  if n < 0 then '-' :: Nat.toDigits 10 n.natAbs else Nat.toDigits 10 n.natAbs

def decimalText (n : Int) : String := String.ofList (decimal n)

def countText (items : List α) : String := decimalText items.length

def hexText (width : Nat) (n : Int) : String :=
  let sign := if n < 0 then ['-'] else []
  let digits := Nat.toDigits 16 n.natAbs
  let zeros := width - (sign.length + 2 + digits.length)
  String.ofList (sign ++ ['0', 'x'] ++ List.replicate zeros '0' ++ digits)

def padLeft (width : Nat) (n : Int) : String :=
  let digits := decimal n
  String.ofList (List.replicate (width - digits.length) ' ' ++ digits)

end Numeral

def pow10 (n : Nat) : Nat := Nat.pow 10 n

theorem pow10_zero : pow10 0 = 1 := rfl

theorem pow10_succ (n : Nat) : pow10 (n + 1) = 10 * pow10 n := Nat.mul_comm _ _

theorem pow10_pos (n : Nat) : 0 < pow10 n := Nat.pow_pos (by omega)

/-- The value `digits * 10 ^ exponent`. -/
structure Decimal where
  digits : Nat
  exponent : Int
  deriving DecidableEq, Repr

namespace Decimal

/-- Compares `a * 10 ^ i` with `n * 2 ^ j`, exactly. -/
def compareBinary (a : Nat) (i : Int) (n : Nat) (j : Int) : Ordering :=
  compare (a * pow10 i.toNat * pow2 (-j).toNat) (n * pow2 j.toNat * pow10 (-i).toNat)

/-- Whether a decimal rounds to the number `m * 2 ^ q`.  Below a power of two the
neighbours are half as far apart, which `narrow` says. -/
def readsBack (m : Nat) (q : Int) (narrow : Bool) (d : Decimal) : Bool :=
  let low := if narrow then 4 * m - 1 else 4 * m - 2
  let high := 4 * m + 2
  let closed := m % 2 = 0
  let atLow := compareBinary d.digits d.exponent low (q - 2)
  let atHigh := compareBinary d.digits d.exponent high (q - 2)
  (atLow == .gt || (closed && atLow == .eq)) && (atHigh == .lt || (closed && atHigh == .eq))

/-- The least `k` with `m * 2 ^ q < 10 ^ k`, for a positive number: the count of
digits before the point once the point is moved far enough right. -/
def magnitude (m : Nat) (q : Int) : Int :=
  let shifted := m * pow2 q.toNat * pow10 400 / pow2 (-q).toNat
  (Nat.toDigits 10 shifted).length - 400

/-- The decimal on the grid of `10 ^ g` that reads back as `m * 2 ^ q`: the nearer
of the two next to it, the even one when they are equally near. -/
def onGrid? (m : Nat) (q : Int) (narrow : Bool) (g : Int) : Option Decimal :=
  let num := m * pow2 q.toNat * pow10 (-g).toNat
  let den := pow2 (-q).toNat * pow10 g.toNat
  let below : Decimal := ⟨num / den, g⟩
  let above : Decimal := ⟨num / den + 1, g⟩
  match readsBack m q narrow below, readsBack m q narrow above with
  | true, false => some below
  | false, true => some above
  | false, false => none
  | true, true =>
    match compare (2 * num) ((2 * (num / den) + 1) * den) with
    | .lt => some below
    | .gt => some above
    | .eq => some (if num / den % 2 = 0 then below else above)

def strip : Nat → Decimal → Decimal
  | 0, d => d
  | fuel + 1, d =>
    if d.digits ≠ 0 ∧ d.digits % 10 = 0 then strip fuel ⟨d.digits / 10, d.exponent + 1⟩
    else d

def exact (m : Nat) (q : Int) : Decimal :=
  if 0 ≤ q then ⟨m * pow2 q.toNat, 0⟩ else ⟨m * Nat.pow 5 (-q).toNat, q⟩

/-- The shortest decimal that reads back as the positive number `m * 2 ^ q`. -/
def shortest (m : Nat) (q : Int) (narrow : Bool) : Decimal :=
  let k := magnitude m q
  let found := (List.range 17).findSome? fun n => onGrid? m q narrow (k - (n + 1 : Nat))
  strip 20 (found.getD (exact m q))

/-- Lays a positive decimal out: positional where its leading digit stands for
`10 ^ -4` to `10 ^ 15`, always with a digit after the point; otherwise with a
signed exponent of at least two digits. -/
def layout (d : Decimal) : List Char :=
  let ds := Nat.toDigits 10 d.digits
  let lead : Int := d.exponent + ds.length - 1
  if -4 ≤ lead ∧ lead < 16 then
    if lead < 0 then '0' :: '.' :: (List.replicate (-lead - 1).toNat '0' ++ ds)
    else if ds.length ≤ lead.toNat + 1 then
      ds ++ List.replicate (lead.toNat + 1 - ds.length) '0' ++ ['.', '0']
    else ds.take (lead.toNat + 1) ++ '.' :: ds.drop (lead.toNat + 1)
  else
    let point := match ds with
      | [] => []
      | [c] => [c]
      | c :: rest => c :: '.' :: rest
    let e := Nat.toDigits 10 lead.natAbs
    let padded := if e.length < 2 then '0' :: e else e
    point ++ 'e' :: (if lead < 0 then '-' else '+') :: padded

end Decimal

namespace Double

def render (x : Double) : List Char :=
  if x.isNaN then ['n', 'a', 'n']
  else
    let sign := if x.negative then ['-'] else []
    if x.isInfinite then sign ++ ['i', 'n', 'f']
    else if x.isZero then sign ++ ['0', '.', '0']
    else
      let p := x.parts
      let narrow := x.code % 0x10000000000000 = 0 && 0x20000000000000 ≤ x.code
      sign ++ (Decimal.shortest p.1 p.2 narrow).layout

/-- The number nearest to `digits * 10 ^ exponent`.  Far outside the range of
finite numbers the exact power is not needed to know the answer. -/
def ofDecimal (negative : Bool) (digits : Nat) (exponent : Int) : Double :=
  let lead : Int := (Nat.toDigits 10 digits).length + exponent
  if digits = 0 ∨ lead < -400 then ofCode negative 0
  else if 400 < lead then ofCode negative infinityCode
  else ofRatio negative (digits * pow10 exponent.toNat) (pow10 (-exponent).toNat) 0

end Double
end QuestArchive
