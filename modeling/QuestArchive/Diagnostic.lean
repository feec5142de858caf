import QuestArchive.Fault
import QuestArchive.Number.Numeral

/-!
Problems that do not stop an operation: what was found, how severe it is, and how
it is worded.
-/

namespace QuestArchive

inductive Severity where
  | warning
  | error
  deriving DecidableEq, Repr

def Severity.name : Severity → String
  | warning => "warning"
  | error => "error"

inductive Notice where
  | duplicateChunk (number : Nat) (file : String)
  | clampedChunk (size : Nat)
  | trailingBytes (count : Nat)
  | fileSize (file : String) (actual expected : Nat)
  | missingChunk (file : String) (number : Nat)
  | sectionRemainder (objects : Bool) (area : Nat) (record remainder : Nat)
  | scriptSize (stated actual : Nat)
  | unregisteredLabel (label : Int)
  | labelPastEnd (label : Nat) (offset : Int) (size : Nat)
  | unterminatedText (label : Nat)
  | unreadableInstruction (fault : Fault)
  | codeSize (expected got : Nat)
  | unplacedLabel (label : Nat) (offset : Int)
  | npcScriptLabel (index : Nat) (value : Double)
  | noObjectCode
  | noStartSegment
  | noEpisode
  | redundantSection (marker : Text)
  | badLine (error : SourceError)
  deriving DecidableEq, Repr

namespace Notice

def severity : Notice → Severity
  | unreadableInstruction _ | badLine _ => .error
  | _ => .warning

def code : Notice → String
  | duplicateChunk .. => "duplicate_chunk"
  | clampedChunk .. => "chunk_size_clamped"
  | trailingBytes .. => "trailing_bytes"
  | fileSize .. => "file_size_mismatch"
  | missingChunk .. => "missing_chunk"
  | sectionRemainder .. => "dat_section_remainder"
  | scriptSize .. => "bin_size_mismatch"
  | unregisteredLabel .. => "unregistered_label"
  | labelPastEnd .. => "label_out_of_bounds"
  | unterminatedText .. => "unterminated_string"
  | unreadableInstruction .. => "instruction_parse_failed"
  | codeSize .. => "object_code_size_mismatch"
  | unplacedLabel .. => "unplaced_label"
  | npcScriptLabel .. => "npc_script_label"
  | noObjectCode => "no_object_code"
  | noStartSegment => "no_label_0"
  | noEpisode => "no_set_episode"
  | redundantSection .. => "redundant_section"
  | badLine .. => "assembly_error"

def message : Notice → String
  | duplicateChunk number file =>
    "File chunk number " ++ Numeral.decimalText number ++ " of file " ++ file ++
      " was already encountered, overwriting previous chunk."
  | clampedChunk size =>
    "Data segment size of " ++ Numeral.decimalText size ++
      " is larger than expected maximum size, reading just 1024 bytes."
  | trailingBytes count => Numeral.decimalText count ++ " Bytes left in file."
  | fileSize file actual expected =>
    "File " ++ file ++ " has an actual size of " ++ Numeral.decimalText actual ++
      " instead of the expected size " ++ Numeral.decimalText expected ++ "."
  | missingChunk file number =>
    "File " ++ file ++ " is missing chunk " ++ Numeral.decimalText number ++ "."
  | sectionRemainder objects area record remainder =>
    "Section size of " ++ (if objects then "object" else "NPC") ++ " section in area " ++
      Numeral.decimalText area ++ " is not divisible by " ++ Numeral.decimalText record ++
      ", keeping the last " ++ Numeral.decimalText remainder ++ " bytes as unknown data."
  | scriptSize stated actual =>
    "Value " ++ Numeral.decimalText stated ++ " in bin size field does not match actual size " ++
      Numeral.decimalText actual ++ "."
  | unregisteredLabel label =>
    "Label " ++ Numeral.decimalText label ++ " is not registered in the label table."
  | labelPastEnd label offset size =>
    "Label " ++ Numeral.decimalText label ++ " points to offset " ++
      Numeral.decimalText offset ++ ", past the end of the object code (" ++
      Numeral.decimalText size ++ " bytes)."
  | unterminatedText label =>
    "String segment at label " ++ Numeral.decimalText label ++ " has no null terminator."
  | unreadableInstruction fault => fault.message
  | codeSize expected got => (Fault.codeSize expected got).message
  | unplacedLabel label offset =>
    "Label " ++ Numeral.decimalText label ++ " with offset " ++ Numeral.decimalText offset ++
      " does not point to the start of a segment."
  | npcScriptLabel index value =>
    "NPC " ++ Numeral.decimalText index ++ " has script label " ++ String.ofList value.render ++
      ", it won't be used."
  | noObjectCode => "File contains no instruction labels, defaulting to Episode I."
  | noStartSegment => "No instruction segment for label 0 found, defaulting to Episode I."
  | noEpisode => "Label 0 has no set_episode instruction, defaulting to Episode I."
  | redundantSection marker => "Unnecessary section marker " ++ marker.toString ++ "."
  | badLine error => error.message

end Notice

/-- A notice, with the source line it is about if it is about one. -/
structure Diagnostic where
  notice : Notice
  line : Option Nat := none
  deriving DecidableEq, Repr

namespace Diagnostic

def severity (d : Diagnostic) : Severity := d.notice.severity

def code (d : Diagnostic) : String := d.notice.code

def message (d : Diagnostic) : String := d.notice.message

def render (d : Diagnostic) : String :=
  match d.line with
  | some n => "Line " ++ Numeral.decimalText n ++ ": " ++ d.message
  | none => d.message

end Diagnostic
end QuestArchive
