import QuestArchive.Bytes.Word
import QuestArchive.Text.Rune

/-!
Text in little-endian 16-bit units.  A character beyond the first plane takes two
units.  Reading never fails: what spells no character is read as one replacement
character.
-/

namespace QuestArchive

namespace Text

def charUnits (c : Char) : List Nat :=
  if c.toNat < 0x10000 then [c.toNat]
  else [0xD800 + (c.toNat - 0x10000) / 0x400, 0xDC00 + (c.toNat - 0x10000) % 0x400]

/-- The bytes of a text, or the position of its first lone surrogate and that
surrogate. -/
def encode16 (t : Text) : Except (Nat × Nat) Bytes := go 0 t
where
  go (position : Nat) : Text → Except (Nat × Nat) Bytes
    | [] => .ok []
    | .char c :: t => do
      let rest ← go (position + 1) t
      .ok ((charUnits c).flatMap (Word.encode 2) ++ rest)
    | .surrogate n :: _ => .error (position, 0xD800 + n.val)

/-- The number of bytes of a text, where a lone surrogate would take one unit. -/
def size16 (t : Text) : Nat :=
  t.foldr
    (fun
      | .char c, size => 2 * (charUnits c).length + size
      | .surrogate _, size => 2 + size)
    0

/-- Reads bytes as text.  A high unit needs a low unit after it: without one it is
replaced, together with whatever is left when fewer than two bytes follow. -/
def decode16 : Bytes → Text
  | [] => []
  | [_] => [.replacement]
  | a :: b :: rest =>
    let u := Word.decode [a, b]
    if isLowUnit u then .replacement :: decode16 rest
    else if isHighUnit u then
      match rest with
      | c :: d :: rest' =>
        if isLowUnit (Word.decode [c, d]) then .join u (Word.decode [c, d]) :: decode16 rest'
        else .replacement :: decode16 (c :: d :: rest')
      | _ => [.replacement]
    else .char (Char.ofNat u) :: decode16 rest

/-- The bytes before the first null unit; without one, all whole units. -/
def beforeNull : Bytes → Bytes
  | a :: b :: rest => if a = 0 ∧ b = 0 then [] else a :: b :: beforeNull rest
  | _ => []

end Text
end QuestArchive
