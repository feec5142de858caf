/-!
The kinds of parameter an instruction can have.
-/

namespace QuestArchive

inductive ParamKind where
  | byte
  | word
  | dword
  | int
  | float
  /-- A register, by its number. -/
  | register
  /-- The first register of a run. -/
  | registerTuple
  | codeLabel
  | dataLabel
  | textLabel
  | string
  | codeLabels
  | registers
  deriving DecidableEq, Repr

namespace ParamKind

def all : List ParamKind :=
  [byte, word, dword, int, float, register, registerTuple, codeLabel, dataLabel, textLabel,
   string, codeLabels, registers]

def name : ParamKind → String
  | byte => "byte"
  | word => "word"
  | dword => "dword"
  | int => "int"
  | float => "float"
  | register => "register"
  | registerTuple => "register_tuple"
  | codeLabel => "instruction_label"
  | dataLabel => "data_label"
  | textLabel => "string_label"
  | string => "string"
  | codeLabels => "instruction_label_list"
  | registers => "register_list"

def isRegister : ParamKind → Bool
  | register | registerTuple => true
  | _ => false

/-- A list, which takes all remaining arguments. -/
def isList : ParamKind → Bool
  | codeLabels | registers => true
  | _ => false

/-- Bytes in the code, for the kinds whose width does not depend on the value. -/
def width? : ParamKind → Option Nat
  | byte | register | registerTuple => some 1
  | word | codeLabel | dataLabel | textLabel => some 2
  | dword | int | float => some 4
  | string | codeLabels | registers => none

/-- The integers that a source may give for a parameter, for the kinds that take
integers. -/
def range? : ParamKind → Option (Int × Int)
  | byte => some (0, 0xFF)
  | word | codeLabel | dataLabel | textLabel => some (0, 0xFFFF)
  | dword => some (0, 0xFFFFFFFF)
  | int => some (-0x80000000, 0x7FFFFFFF)
  | _ => none

end ParamKind
end QuestArchive
