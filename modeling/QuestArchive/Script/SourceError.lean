import QuestArchive.Script.Param
import QuestArchive.Text.Quoted
import QuestArchive.Value.Basic

/-!
What can be wrong with one line of a script source.
-/

namespace QuestArchive

inductive SourceError where
  | missingArgument
  | badLiteral (token : Text) (cause : QuotedError)
  | badArgument (token : Text)
  | registerRange (number : Value)
  | registerExpected
  | registerUnexpected
  | stringExpected
  | stringUnexpected
  | integerExpected
  | valueRange (n : Int) (param : ParamKind)
  /-- Too few or too many arguments; with `atLeast` only too few. -/
  | argumentCount (atLeast : Bool) (expected got : Nat)
  | labelRange (n : Nat)
  | duplicateLabel (n : Nat)
  | unknownDirective (marker : Text)
  | unknownInstruction (mnemonic : Text)
  /-- Content before the first label. -/
  | unlabelledStart
  | badByte (token : Text)
  | literalExpected
  deriving DecidableEq, Repr

def SourceError.message : SourceError → String
  | missingArgument => "Missing argument."
  | badLiteral token cause =>
    "Invalid string literal " ++ token.toString ++ ": " ++ cause.message ++ "."
  | badArgument token => "Invalid argument " ++ token.toString ++ "."
  | registerRange number =>
    "Register reference r" ++ number.plain.toString ++ " out of range."
  | registerExpected => "Expected a register reference."
  | registerUnexpected => "Unexpected register reference."
  | stringExpected => "Expected a string."
  | stringUnexpected => "Unexpected string."
  | integerExpected => "Expected an integer."
  | valueRange n param =>
    "Value " ++ Numeral.decimalText n ++ " doesn't fit in a " ++ param.name ++ " argument."
  | argumentCount atLeast expected got =>
    "Expected " ++ (if atLeast then "at least " else "") ++ Numeral.decimalText expected ++
      " arguments, got " ++ Numeral.decimalText got ++ "."
  | labelRange n => "Label " ++ Numeral.decimalText n ++ " is out of range."
  | duplicateLabel n => "Duplicate label " ++ Numeral.decimalText n ++ "."
  | unknownDirective marker => "Unknown directive " ++ marker.toString ++ "."
  | unknownInstruction mnemonic => "Unknown instruction " ++ mnemonic.toString ++ "."
  | unlabelledStart => "Expected a label before the first segment's content."
  | badByte token => "Expected hexadecimal bytes, got " ++ token.toString ++ "."
  | literalExpected => "Expected a string literal."

end QuestArchive
