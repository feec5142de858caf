import QuestArchive.Text.Digit

/-!
Quoted literals.  A literal stands between double quotes; a backslash spells a
quote, a backslash, a control character or a 16-bit unit.  Two units that form a
surrogate pair spell one character; a surrogate unit without its partner stays one.
-/

namespace QuestArchive

inductive QuotedError where
  | unterminated
  | controlCharacter
  | unknownEscape
  | brokenUnit
  | trailing
  deriving DecidableEq, Repr

def QuotedError.message : QuotedError → String
  | unterminated => "Unterminated string starting at"
  | controlCharacter => "Invalid control character at"
  | unknownEscape => "Invalid \\escape"
  | brokenUnit => "Invalid \\uXXXX escape"
  | trailing => "Extra data"

namespace Text
namespace Quoted

def escaped? : Rune → Option Rune
  | .char '"' => some (.char '"')
  | .char '\\' => some (.char '\\')
  | .char '/' => some (.char '/')
  | .char 'b' => some (.char '\x08')
  | .char 'f' => some (.char '\x0c')
  | .char 'n' => some (.char '\n')
  | .char 'r' => some (.char '\r')
  | .char 't' => some (.char '\t')
  | _ => none

def unit? (a b c d : Rune) : Option Nat := do
  let a ← a.hexDigit?
  let b ← b.hexDigit?
  let c ← c.hexDigit?
  let d ← d.hexDigit?
  some (((a * 16 + b) * 16 + c) * 16 + d)

/-- Reads up to the closing quote: the text spelled and what follows the quote.
The digits of a unit must have something after them, since the quote is still to
come. -/
def body : Text → Except QuotedError (Text × Text)
  | [] => .error .unterminated
  | .char '"' :: rest => .ok ([], rest)
  | [.char '\\'] => .error .unterminated
  | .char '\\' :: .char 'u' :: a :: b :: c :: d :: e :: rest =>
    match unit? a b c d with
    | none => .error .brokenUnit
    | some u =>
      match isHighUnit u, e, _hr : rest with
      | true, .char '\\', .char 'u' :: a' :: b' :: c' :: d' :: f :: rest' =>
        match unit? a' b' c' d' with
        | none => .error .brokenUnit
        | some v =>
          if isLowUnit v then do
            let r ← body (f :: rest')
            .ok (.join u v :: r.1, r.2)
          else do
            let r ← body (e :: rest)
            .ok (.ofUnit u :: r.1, r.2)
      | _, _, _ => do
        let r ← body (e :: rest)
        .ok (.ofUnit u :: r.1, r.2)
  | .char '\\' :: .char 'u' :: _ => .error .brokenUnit
  | .char '\\' :: e :: rest =>
    match escaped? e with
    | none => .error .unknownEscape
    | some r => do
      let t ← body rest
      .ok (r :: t.1, t.2)
  | r :: rest =>
    if r.code < 0x20 then .error .controlCharacter
    else do
      let t ← body rest
      .ok (r :: t.1, t.2)
termination_by t => t.length
decreasing_by
  all_goals simp_wf
  all_goals try have hl := congrArg List.length _hr
  all_goals try simp only [List.length_cons] at hl
  all_goals omega

def isSpace (r : Rune) : Bool :=
  r = .char ' ' || r = .char '\t' || r = .char '\n' || r = .char '\r'

/-- The text that a literal spells; `t` is what follows its opening quote.  Only
white space may come after the closing one. -/
def decode (t : Text) : Except QuotedError Text :=
  match body t with
  | .error e => .error e
  | .ok (value, rest) =>
    if (rest.dropWhile isSpace).isEmpty then .ok value else .error .trailing

def encodeRune : Rune → Text
  | .char '"' => [.char '\\', .char '"']
  | .char '\\' => [.char '\\', .char '\\']
  | .char '\n' => [.char '\\', .char 'n']
  | .char '\r' => [.char '\\', .char 'r']
  | .char '\t' => [.char '\\', .char 't']
  | .char '\x0c' => [.char '\\', .char 'f']
  | .char '\x08' => [.char '\\', .char 'b']
  | r =>
    if r.code < 0x20 then
      [.char '\\', .char 'u', .char '0', .char '0',
        .char (Nat.digitChar (r.code / 16)), .char (Nat.digitChar (r.code % 16))]
    else [r]

def encode (t : Text) : Text := .char '"' :: (t.flatMap encodeRune ++ [.char '"'])

end Quoted
end Text
end QuestArchive
