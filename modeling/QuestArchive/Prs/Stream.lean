import QuestArchive.Bytes.Word
import QuestArchive.Fault
import QuestArchive.Number.Binary
import QuestArchive.Prs.Token

/-!
The stored form of PRS tokens.

Control bits tell the tokens apart and stand, eight to a byte, in control bytes among
the data bytes.  A control byte stands where its first bit is needed, so the data
bytes of a token can come before the control byte that holds the next token's bits.

- `1`, byte: a literal;
- `0 0`, two bits of length - 2, byte of 256 - distance: a short copy;
- `0 1`, word with length - 2 in its low three bits and 8192 - distance above: a long
  copy; with zero in the low bits a byte of length - 1 follows;
- `0 1`, zero word: the end.
-/

namespace QuestArchive
namespace Prs

inductive Item where
  | bit (b : Bool)
  | byte (b : UInt8)
  deriving DecidableEq, Repr

def Token.items : Token → List Item
  | literal b => [.bit true, .byte b]
  | short distance length =>
    [.bit false, .bit false, .bit ((length - 2) / 2 % 2 = 1), .bit ((length - 2) % 2 = 1),
      .byte (UInt8.ofNat (256 - distance))]
  | long distance length =>
    let field := (8192 - distance) * 8
    let word := if length ≤ 9 then field + (length - 2) else field
    [.bit false, .bit true] ++ (Word.encode 2 word).map .byte ++
      if length ≤ 9 then [] else [.byte (UInt8.ofNat (length - 1))]

def endItems : List Item := [.bit false, .bit true, .byte 0, .byte 0]

structure Group where
  flags : Nat
  used : Nat
  body : Array UInt8

def Group.bytes (g : Group) : Array UInt8 := #[UInt8.ofNat g.flags] ++ g.body

/-- A stream being written: the finished groups, and the group that still grows. -/
structure Packer where
  done : Array UInt8 := #[]
  group : Option Group := none

namespace Packer

def bytes (p : Packer) : Array UInt8 :=
  match p.group with
  | none => p.done
  | some g => p.done ++ g.bytes

/-- Adds an item.  A bit that finds no room opens the next group. -/
def put (p : Packer) : Item → Packer
  | .byte b =>
    match p.group with
    | none => { p with done := p.done.push b }
    | some g => { p with group := some { g with body := g.body.push b } }
  | .bit b =>
    match p.group with
    | none => { p with group := some ⟨b.toNat, 1, #[]⟩ }
    | some g =>
      if g.used < 8 then
        { p with group := some ⟨g.flags + b.toNat * pow2 g.used, g.used + 1, g.body⟩ }
      else { done := p.done ++ g.bytes, group := some ⟨b.toNat, 1, #[]⟩ }

end Packer

def pack (items : List Item) : Bytes := (items.foldl Packer.put {}).bytes.toList

def encode (tokens : List Token) : Bytes := pack (tokens.flatMap Token.items ++ endItems)

/-- A stream being read: the bits left in the current control byte, and the bytes
behind what was read. -/
structure Source where
  flags : Nat := 0
  left : Nat := 0
  rest : Bytes

namespace Source

def byte? (s : Source) : Option (UInt8 × Source) :=
  match s.rest with
  | [] => none
  | b :: rest => some (b, { s with rest := rest })

def bit? (s : Source) : Option (Bool × Source) :=
  if s.left = 0 then
    match s.rest with
    | [] => none
    | b :: rest =>
      some (b.toNat % 2 = 1, { flags := b.toNat / 2, left := 7, rest := rest })
  else some (s.flags % 2 = 1, { s with flags := s.flags / 2, left := s.left - 1 })

/-- Reads a token, or the end of the stream as no token.  Fails only where the bytes
end. -/
def token? (s : Source) : Option (Option Token × Source) := do
  let (isLiteral, s) ← s.bit?
  if isLiteral then
    let (b, s) ← s.byte?
    some (some (.literal b), s)
  else
    let (isLong, s) ← s.bit?
    if isLong then
      let (low, s) ← s.byte?
      let (high, s) ← s.byte?
      let word := Word.decode [low, high]
      if word = 0 then some (none, s)
      else if word % 8 = 0 then
        let (extra, s) ← s.byte?
        some (some (.long (8192 - word / 8) (extra.toNat + 1)), s)
      else some (some (.long (8192 - word / 8) (word % 8 + 2)), s)
    else
      let (high, s) ← s.bit?
      let (low, s) ← s.bit?
      let (b, s) ← s.byte?
      some (some (.short (256 - b.toNat) (2 * high.toNat + low.toNat + 2)), s)

theorem byte?_length {s s' : Source} {b : UInt8} (h : s.byte? = some (b, s')) :
    s'.rest.length < s.rest.length := by
  unfold byte? at h
  split at h
  · simp at h
  · next hr => cases h; simp [hr]

theorem bit?_length {s s' : Source} {b : Bool} (h : s.bit? = some (b, s')) :
    s'.rest.length ≤ s.rest.length := by
  unfold bit? at h
  split at h
  · split at h
    · simp at h
    · next hr => cases h; simp [hr]
  · cases h; exact Nat.le_refl _

theorem token?_length {s s' : Source} {t : Option Token} (h : s.token? = some (t, s')) :
    s'.rest.length < s.rest.length := by
  unfold token? at h
  simp only [Option.bind_eq_bind, Option.bind_eq_some_iff, Prod.exists] at h
  obtain ⟨isLiteral, s1, h1, h⟩ := h
  have l1 := bit?_length h1
  split at h
  · simp only [Option.bind_eq_some_iff, Prod.exists] at h
    obtain ⟨b, s2, h2, h⟩ := h
    have l2 := byte?_length h2
    cases h
    omega
  · simp only [Option.bind_eq_some_iff, Prod.exists] at h
    obtain ⟨isLong, s2, h2, h⟩ := h
    have l2 := bit?_length h2
    split at h
    · simp only [Option.bind_eq_some_iff, Prod.exists] at h
      obtain ⟨low, s3, h3, high, s4, h4, h⟩ := h
      have l3 := byte?_length h3
      have l4 := byte?_length h4
      split at h
      · cases h; omega
      · split at h
        · simp only [Option.bind_eq_some_iff, Prod.exists] at h
          obtain ⟨extra, s5, h5, h⟩ := h
          have l5 := byte?_length h5
          cases h
          omega
        · cases h; omega
    · simp only [Option.bind_eq_some_iff, Prod.exists] at h
      obtain ⟨high, s3, h3, low, s4, h4, b, s5, h5, h⟩ := h
      have l3 := bit?_length h3
      have l4 := bit?_length h4
      have l5 := byte?_length h5
      cases h
      omega

end Source

def decodeFrom (size : Nat) (s : Source) (out : Array UInt8) : Except Fault Bytes :=
  match _h : s.token? with
  | none => .error (.compressedEnd size)
  | some (none, _) => .ok out.toList
  | some (some t, s') =>
    match t.extend out with
    | .ok out' => decodeFrom size s' out'
    | .error e => .error e
termination_by s.rest.length
decreasing_by exact Source.token?_length _h

/-- The data that a stream stands for; bytes behind the end marker do not matter. -/
def decompress (data : Bytes) : Except Fault Bytes :=
  decodeFrom data.length { rest := data } #[]

end Prs
end QuestArchive
