import QuestArchive.Text.Digit

/-!
Arguments of a command: flags, with or without a value, and operands.

A flag may be shortened as long as it stays the only one that fits, flags of one letter
may share a dash, and a value may follow its flag or be attached to it.  Text attached to
a flag of one letter without a value names further flags.  Behind two
dashes everything is an operand.  All operands stand together.
-/

namespace QuestArchive
namespace Shell

structure Flag where
  /-- With two dashes. -/
  long : String
  /-- With one dash. -/
  short : Option Char := none
  takesValue : Bool := false
  deriving DecidableEq, Repr

/-- The flags of a command line in order, with their values, and its operands. -/
structure Arguments where
  flags : List (Flag × String) := []
  operands : List String := []
  deriving DecidableEq, Repr

inductive Token where
  | operand (s : String)
  | separator
  /-- One or more flags, the last one with the text attached to it. -/
  | flags (set : List Flag) (last : Flag) (attached : Option String)
  deriving DecidableEq, Repr

namespace Token

/-- Flags that share a dash, and the text behind the first one: its value if it takes one,
and further flags if it does not. -/
def cluster (known : List Flag) (f : Flag) : List Char → Option Token
  | [] => some (.flags [] f none)
  | c :: rest =>
    if f.takesValue then some (.flags [] f (some (String.ofList (c :: rest))))
    else do
      let next ← known.find? (·.short = some c)
      match ← cluster known next rest with
      | .flags set last attached => some (.flags (f :: set) last attached)
      | token => some token

/-- A flag of one letter, and the text behind it.  A sign of equality may stand between
the two, in front of some text if the flag takes no value. -/
def lettered (known : List Flag) (f : Flag) (s : List Char) : Option Token :=
  match s with
  | '=' :: text =>
    if f.takesValue then some (.flags [] f (some (String.ofList text)))
    else if text.isEmpty then none
    else cluster known f text
  | text => cluster known f text

/-- A flag by its name or the start of it, with two dashes, and perhaps a value. -/
def named (known : List Flag) (s : List Char) : Option Token :=
  let name := s.takeWhile (· ≠ '=')
  let attached :=
    if name.length = s.length then none else some (String.ofList (s.drop (name.length + 1)))
  let exact := known.filter fun f => f.long.toList = name
  let longer := known.filter fun f => name.isPrefixOf f.long.toList
  match if exact.isEmpty then longer else exact with
  | [f] => if f.takesValue || attached.isNone then some (.flags [] f attached) else none
  | _ => none

/-- Whether an argument is a number below zero; a line feed may stand at its end. -/
def isNegativeNumber (s : List Char) : Bool :=
  let isDigit (c : Char) := (Rune.char c).isDigit
  match if s.getLast? = some '\n' then s.dropLast else s with
  | '-' :: rest =>
    let fraction := rest.dropWhile isDigit
    (!rest.isEmpty && fraction.isEmpty) ||
      (fraction.head? = some '.' && 1 < fraction.length && (fraction.drop 1).all isDigit)
  | _ => false

/-- What an argument in front of the two dashes is; nothing if it looks like a flag but
is none. -/
def ofArgument (known : List Flag) (s : String) : Option Token :=
  let operand? := if isNegativeNumber s.toList || s.contains ' ' then some (.operand s) else none
  match s.toList with
  | ['-', '-'] => some .separator
  | '-' :: '-' :: rest =>
    let name := ('-' :: '-' :: rest).takeWhile (· ≠ '=')
    if known.any fun f => name.isPrefixOf f.long.toList then named known ('-' :: '-' :: rest)
    else operand?
  | '-' :: c :: rest =>
    match known.find? (·.short = some c) with
    | some f => lettered known f rest
    | none => operand?
  | _ => some (.operand s)

def ofArguments (known : List Flag) : List String → Option (List Token)
  | [] => some []
  | s :: rest => do
    match ← ofArgument known s with
    | .separator => some (.separator :: rest.map .operand)
    | token => return token :: (← ofArguments known rest)

end Token

inductive Item where
  | flag (f : Flag) (value : String)
  | operand (s : String)
  | separator
  deriving DecidableEq, Repr

namespace Item

def flags (set : List Flag) (last : Flag) (value : String) : List Item :=
  set.map (flag · "") ++ [flag last value]

/-- Gives each flag that takes a value the one attached to it or the next operand. -/
def ofTokens : List Token → Option (List Item)
  | [] => some []
  | .separator :: rest => (ofTokens rest).map (separator :: ·)
  | .operand s :: rest => (ofTokens rest).map (operand s :: ·)
  | .flags set last (some value) :: rest => (ofTokens rest).map (flags set last value ++ ·)
  | .flags set last none :: rest =>
    if last.takesValue then
      match rest with
      | .operand value :: rest => (ofTokens rest).map (flags set last value ++ ·)
      | _ => none
    else (ofTokens rest).map (flags set last "" ++ ·)

def isFlag : Item → Bool
  | flag .. => true
  | _ => false

end Item

namespace Arguments

def contiguous (items : List Item) : Bool :=
  ((items.dropWhile (·.isFlag)).dropWhile (!·.isFlag)).all (·.isFlag)

def ofItems (items : List Item) : Arguments :=
  { flags := items.filterMap fun
      | .flag f value => some (f, value)
      | _ => none
    operands := items.filterMap fun
      | .operand s => some s
      | _ => none }

/-- Reads a command line with one operand or more, up to a limit. -/
def parse? (known : List Flag) (limit : Nat) (args : List String) : Option Arguments := do
  let items ← Item.ofTokens (← Token.ofArguments known args)
  let a := ofItems items
  if contiguous items && !a.operands.isEmpty && a.operands.length ≤ limit then some a else none

def has (a : Arguments) (f : Flag) : Bool := a.flags.any (·.1 = f)

def texts (a : Arguments) : List String :=
  a.operands ++ (a.flags.filter (·.1.takesValue)).map (·.2)

/-- The value of a flag, the last one if it was given more than once. -/
def value? (a : Arguments) (f : Flag) : Option String :=
  (a.flags.reverse.find? (·.1 = f)).map (·.2)

end Arguments
end Shell
end QuestArchive
