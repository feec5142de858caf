import QuestArchive.Script.Check

/-!
How a source spells values: quoted texts, registers, integers in decimal and
hexadecimal, and numbers with a point or an exponent.

Digits are the decimal digits of any script, and a line feed may stand behind anything
but a quoted text.
-/

namespace QuestArchive
namespace Literal

def ofDigits (base : Nat) (digits : List Nat) : Nat :=
  digits.foldl (fun n d => n * base + d) 0

def digits? (digit? : Rune → Option Nat) (t : Text) : Option (List Nat) :=
  if t.isEmpty then none else t.mapM digit?

/-- The number that decimal digits spell; there may not be too many of them, leading
zeros included. -/
def natural (digits : List Nat) : Except Fault Nat :=
  if Value.maxDigits < digits.length then .error (.numeralLength (some digits.length))
  else .ok (ofDigits 10 digits)

def sign : Text → Bool × Text
  | .char '-' :: rest => (true, rest)
  | t => (false, t)

def signed (negative : Bool) (n : Nat) : Int := if negative then -(n : Int) else n

def register? : Text → Option (List Nat)
  | .char 'r' :: rest | .char 'R' :: rest => digits? Rune.digit? rest
  | _ => none

def hexadecimal? (t : Text) : Option Int :=
  match sign t with
  | (negative, .char '0' :: .char x :: rest) =>
    if x = 'x' ∨ x = 'X' then
      (digits? Rune.hexDigit? rest).map fun ds => signed negative (ofDigits 16 ds)
    else none
  | _ => none

def isExponentMark (r : Rune) : Bool := r = .char 'e' || r = .char 'E'

def exponent? : Text → Option Int
  | [] => some 0
  | mark :: rest =>
    if isExponentMark mark then
      let (negative, digits) :=
        match rest with
        | .char '-' :: t => (true, t)
        | .char '+' :: t => (false, t)
        | t => (false, t)
      (digits? Rune.digit? digits).map fun ds => signed negative (ofDigits 10 ds)
    else none

def number? (t : Text) : Option Double :=
  let (negative, t) := sign t
  let whole := t.takeWhile Rune.isDigit
  let make (fraction exponent : Text) : Option Double := do
    let e ← exponent? exponent
    let ds ← (whole ++ fraction).mapM Rune.digit?
    return Double.ofDecimal negative (ofDigits 10 ds) (e - fraction.length)
  match t.dropWhile Rune.isDigit with
  | .char '.' :: rest =>
    let fraction := rest.takeWhile Rune.isDigit
    if whole.isEmpty && fraction.isEmpty then none
    else make fraction (rest.dropWhile Rune.isDigit)
  | mark :: rest => if whole.isEmpty then none else make [] (mark :: rest)
  | [] => none

def dropLineFeed (t : Text) : Text :=
  if t.getLast? = some (.char '\n') then t.dropLast else t

def bare (token : Text) : Except Fault Value :=
  let t := dropLineFeed token
  match register? t with
  | some ds => do return .register (.int (← natural ds))
  | none =>
    match hexadecimal? t with
    | some n => .ok (.int n)
    | none =>
      match digits? Rune.digit? (sign t).2 with
      | some ds => do return .int (signed (sign t).1 (← natural ds))
      | none =>
        match number? t with
        | some x => .ok (.float x)
        | none => .error (.source (.badArgument token))

def parse (token : Text) : Except Fault Value :=
  match token with
  | [] => .error (.source .missingArgument)
  | .char '"' :: rest =>
    match Text.Quoted.decode rest with
    | .ok t => .ok (.text t)
    | .error cause => .error (.source (.badLiteral token cause))
  | _ => bare token

end Literal
end QuestArchive
