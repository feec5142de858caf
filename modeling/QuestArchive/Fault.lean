import QuestArchive.Script.SourceError

/-!
The reasons why an operation of the library fails, and their wording.
-/

namespace QuestArchive

inductive SpanUse where
  | read
  | skip
  | slice
  deriving DecidableEq, Repr

inductive PathError where
  | missing
  | folder
  /-- A part of the path that should be a folder is a file. -/
  | notFolder
  /-- The path, or the name of one of its parts, has too many bytes. -/
  | longName
  deriving DecidableEq, Repr

inductive Fault where
  /-- A span of bytes that is negative or ends past the cursor's bound. -/
  | pastBound (use : SpanUse) (size offset bound : Int)
  | unterminated (offset : Int)
  | seekOutside (offset bound : Int)
  /-- The bound leaves room for a byte that the data does not have. -/
  | noByte
  /-- The data ends inside a field of fixed width. -/
  | cutField
  /-- An integer does not fit the field that it is written to. -/
  | fieldRange
  /-- A number is too large for its field or for a number of double precision. -/
  | tooLarge
  | infiniteInteger
  | nanInteger
  /-- A lone surrogate in a text that is to be encoded. -/
  | loneSurrogate (unit position : Nat)
  /-- The first run of characters beyond ASCII in a name. -/
  | nonAscii (run : List Char) (position : Nat)
  /-- A register of a list that is no byte. -/
  | byteRange
  /-- A decimal numeral of too many digits; the count is known when it was read. -/
  | numeralLength (digits : Option Nat)
  | compressedEnd (offset : Nat)
  | copyBeforeStart (distance produced : Nat)
  | unsupported (version : String)
  | longName (name : String)
  | longSecondName (name second : String)
  | tooManyFiles (count : Nat)
  | longFile (name : String) (size : Nat)
  | sectionSizes (expected got : Int)
  | scriptOffsets (code table size : Nat)
  | tooManyShopItems
  /-- An instruction that cannot be read, at its offset in the segment of `label`. -/
  | unreadable (offset : Int) (label : Nat) (cause : Fault)
  | codeSize (expected got : Nat)
  | writtenSize (expected got : Int)
  | unknownOpcode (code : Nat)
  | duplicateLabel (label : Int)
  /-- A negative label below the start of the label table. -/
  | labelOutside (label : Int)
  /-- An instruction that lacks the argument asked for. -/
  | noArgument
  /-- A record that lacks one of its uninterpreted spans. -/
  | noSpan
  | stackArguments (mnemonic : String)
  | argumentCount (mnemonic : String) (expected got : Nat)
  | source (error : SourceError)
  /-- A single value for a parameter that takes a list. -/
  | listParameter (param : ParamKind)
  /-- A value of a kind for which an operation has no meaning. -/
  | wrongKind
  /-- A value that is no text for a parameter that is stored as one. -/
  | textExpected
  /-- A text that spells no integer. -/
  | badInteger (t : Text)
  | noEntityTable
  | noScript
  | unstorableNpc (name : String)
  | unknownNpc (name : String)
  /-- An identity without an entry in the table of stored data. -/
  | npcWithoutData (name : String)
  | propertyNames (typeId : Int) (needed got : List String)
  /-- There are fewer objects or NPCs than asked for. -/
  | noEntity (index : Int)
  | path (error : PathError) (name : String)
  /-- A null character in a path. -/
  | nullInPath
  /-- A source file that is not in UTF-8. -/
  | notText
  /-- An output that two dashes took the name from. -/
  | noOutput
  deriving DecidableEq, Repr

namespace SpanUse

def verb : SpanUse → String
  | read => "Read"
  | skip => "Skip"
  | slice => "Slice"

end SpanUse

namespace PathError

def message : PathError → String
  | missing => "[Errno 2] No such file or directory"
  | folder => "[Errno 21] Is a directory"
  | notFolder => "[Errno 20] Not a directory"
  | longName => "[Errno 36] File name too long"

end PathError

namespace Fault

def message : Fault → String
  | pastBound use size offset bound =>
    use.verb ++ " of " ++ Numeral.decimalText size ++ " bytes at offset " ++
      Numeral.decimalText offset ++ " would exceed boundary at " ++ Numeral.decimalText bound
  | unterminated offset =>
    "No null terminator found starting at offset " ++ Numeral.decimalText offset
  | seekOutside offset bound =>
    "Seek to " ++ Numeral.decimalText offset ++ " is outside bounds [0, " ++
      Numeral.decimalText bound ++ "]"
  | noByte => "No byte at the cursor"
  | cutField => "Too few bytes for the field"
  | fieldRange => "Value does not fit its field"
  | tooLarge => "Number too large"
  | infiniteInteger => "cannot convert float infinity to integer"
  | nanInteger => "cannot convert float NaN to integer"
  | loneSurrogate unit position =>
    "'utf-16-le' codec can't encode character '" ++ Text.codeEscape unit ++ "' in position " ++
      Numeral.decimalText position ++ ": surrogates not allowed"
  | nonAscii run position =>
    match run with
    | [c] =>
      "'ascii' codec can't encode character '" ++ Text.codeEscape c.toNat ++ "' in position " ++
        Numeral.decimalText position ++ ": ordinal not in range(128)"
    | _ =>
      "'ascii' codec can't encode characters in position " ++ Numeral.decimalText position ++
        "-" ++ Numeral.decimalText (position + run.length - 1 : Nat) ++
        ": ordinal not in range(128)"
  | byteRange => "bytes must be in range(0, 256)"
  | numeralLength digits =>
    "Exceeds the limit (4300 digits) for integer string conversion" ++
      (match digits with
        | some n => ": value has " ++ Numeral.decimalText n ++ " digits"
        | none => "") ++
      "; use sys.set_int_max_str_digits() to increase the limit"
  | compressedEnd offset =>
    "PRS: unexpected end of data at offset " ++ Numeral.decimalText offset
  | copyBeforeStart distance produced =>
    "PRS: copy from " ++ Numeral.decimalText (-distance) ++ " at output offset " ++
      Numeral.decimalText produced ++ " reaches before the start of the data"
  | unsupported version => "Can't parse " ++ version ++ " QST files."
  | longName name => "File " ++ name ++ " has a name longer than 16 characters."
  | longSecondName name second =>
    "File " ++ name ++ " has a file_name2 (" ++ second ++ ") longer than 24 characters."
  | tooManyFiles count =>
    "A QST archive holds at most 2 files, got " ++ Numeral.decimalText count ++ "."
  | longFile name size =>
    "File " ++ name ++ " is " ++ Numeral.decimalText size ++
      " bytes, more than a QST archive can address (262144 bytes)."
  | sectionSizes expected got =>
    "Malformed DAT file. Expected an entities size of " ++ Numeral.decimalText expected ++
      ", got " ++ Numeral.decimalText got ++ "."
  | scriptOffsets code table size =>
    "Object code offset " ++ Numeral.decimalText code ++ " and label table offset " ++
      Numeral.decimalText table ++ " don't fit in a file of " ++ Numeral.decimalText size ++
      " bytes."
  | tooManyShopItems => "Bin file can't contain more than 932 shop items."
  | unreadable offset label cause =>
    "Couldn't parse instruction at offset " ++ Numeral.decimalText offset ++ " (label " ++
      Numeral.decimalText label ++ "): " ++ cause.message
  | codeSize expected got =>
    "Expected to parse " ++ Numeral.decimalText expected ++
      " bytes of object code but the segments add up to " ++ Numeral.decimalText got ++ " bytes."
  | writtenSize expected got =>
    "Expected " ++ Numeral.decimalText expected ++ " bytes of object code, but wrote " ++
      Numeral.decimalText got ++ "."
  | unknownOpcode code => "Unknown opcode " ++ Numeral.decimalText code
  | duplicateLabel label => "Duplicate label " ++ Numeral.decimalText label ++ "."
  | labelOutside label =>
    "Label " ++ Numeral.decimalText label ++ " lies outside the label table"
  | noArgument => "Missing instruction argument"
  | noSpan => "Missing span of uninterpreted bytes"
  | stackArguments mnemonic => mnemonic ++ " takes its arguments from the stack."
  | argumentCount mnemonic expected got =>
    mnemonic ++ " expects " ++ Numeral.decimalText expected ++ " arguments, got " ++
      Numeral.decimalText got ++ "."
  | source error => error.message
  | listParameter param => "Parameter type " ++ param.name ++ " takes no single value"
  | wrongKind => "Value of the wrong kind"
  | textExpected => "Value is no text"
  | badInteger t =>
    "invalid literal for int() with base 10: " ++ Text.toString (t.shown.take 200)
  | noEntityTable => "File contains no DAT file."
  | noScript => "File contains no BIN file."
  | unstorableNpc name => "NPC type " ++ name ++ " can't be written to a DAT file."
  | unknownNpc name => Text.shownName name ++ " is not a valid NpcType"
  | npcWithoutData name => "No stored data for " ++ name
  | propertyNames typeId needed got =>
    "Object of type " ++ Numeral.hexText 5 typeId ++ " needs properties " ++
      ", ".intercalate needed ++ ", got " ++ ", ".intercalate got ++ "."
  | path error name => error.message ++ ": " ++ Text.shownName name
  | noEntity index => "No entity at index " ++ Numeral.decimalText index
  | nullInPath => "embedded null byte"
  | notText => "Source is not in UTF-8"
  | noOutput => "The output has no name"

/-- Whether a quest cannot be had from its files or put into them. -/
def isFormat : Fault → Bool
  | unsupported _ | longName _ | longSecondName .. | tooManyFiles _ | longFile ..
  | sectionSizes .. | scriptOffsets .. | tooManyShopItems | unreadable .. | codeSize ..
  | writtenSize .. | noEntityTable | noScript | unstorableNpc _ | propertyNames .. => true
  | _ => false

/-- Whether a file is too short, or a value or a text does not suit its place. -/
def isValue : Fault → Bool
  | pastBound .. | unterminated _ | seekOutside .. | nanInteger | byteRange | numeralLength _
  | duplicateLabel _ | stackArguments _ | argumentCount .. | loneSurrogate .. | nonAscii ..
  | compressedEnd _ | copyBeforeStart .. | badInteger _ | unknownNpc _ | nullInPath | source _ =>
    true
  | _ => false

def isPath : Fault → Bool
  | path .. => true
  | _ => false

end Fault
end QuestArchive
