import QuestArchive.Proofs.Bytes.Reading

/-!
# Reads of a number of bytes that is known beforehand

Inside its window such a read finds too few bytes and leaves the cursor where it was, or it
passes over the bytes and says what they mean.  Nothing else of the cursor counts.
-/

namespace QuestArchive

inductive Fetch where
  | u8
  | i8
  | u16
  | i16
  | u32
  | i32
  | single
  | vec3
  | u16Array (count : Int)
  | u32Array (count : Int)
  | i32Array (count : Int)
  | bytes (size : Int)
  | ascii (size : Int)
  | text (size : Int)
  deriving DecidableEq, Repr

inductive Reply where
  | done
  | integer (n : Int)
  | integers (ns : List Int)
  | number (x : Double)
  | vector (v : Vec3)
  | bytes (bs : Bytes)
  | name (s : String)
  | text (t : Text)
  | reader (number : Nat)
  deriving DecidableEq, Repr

namespace Fetch

def act : Fetch → Read Reply
  | u8 => return .integer (← Read.u8)
  | i8 => return .integer (← Read.i8)
  | u16 => return .integer (← Read.u16)
  | i16 => return .integer (← Read.i16)
  | u32 => return .integer (← Read.u32)
  | i32 => return .integer (← Read.i32)
  | single => return .number (← Read.single)
  | vec3 => return .vector (← Read.vec3)
  | u16Array count => return .integers ((← Read.u16Array count).map Int.ofNat)
  | u32Array count => return .integers ((← Read.u32Array count).map Int.ofNat)
  | i32Array count => return .integers (← Read.i32Array count)
  | bytes size => return .bytes (← Read.bytes size)
  | ascii size => return .name (← Read.ascii size)
  | text size => return .text (← Read.text size)

def size : Fetch → Int
  | u8 | i8 => 1
  | u16 | i16 => 2
  | u32 | i32 | single => 4
  | vec3 => 12
  | u16Array count => 2 * count
  | u32Array count | i32Array count => 4 * count
  | bytes size | ascii size | text size => size

def meaning : Fetch → Bytes → Reply
  | u8, bs | u16, bs | u32, bs => .integer (Word.decode bs)
  | i8, bs => .integer (Word.signed 1 (Word.decode bs))
  | i16, bs => .integer (Word.signed 2 (Word.decode bs))
  | i32, bs => .integer (Word.signed 4 (Word.decode bs))
  | single, bs => .number (Read.singleOf bs)
  | vec3, bs => .vector ⟨Read.singleOf (bs.take 4), Read.singleOf ((bs.drop 4).take 4),
      Read.singleOf (bs.drop 8)⟩
  | u16Array count, bs =>
    .integers (((Read.groups 2 count.toNat bs).map Word.decode).map Int.ofNat)
  | u32Array count, bs =>
    .integers (((Read.groups 4 count.toNat bs).map Word.decode).map Int.ofNat)
  | i32Array count, bs =>
    .integers ((Read.groups 4 count.toNat bs).map fun g => Word.signed 4 (Word.decode g))
  | bytes _, bs => .bytes bs
  | ascii _, bs => .name (Read.asciiOf bs)
  | text _, bs => .text (Text.decode16 (Text.beforeNull bs))

end Fetch

namespace Read

variable {α β : Type} {n : Int}

/-- An action finds too few bytes, or passes over `n` of them and gives what they mean. -/
def Fetches (a : Read α) (n : Int) (meaning : Bytes → α) : Prop :=
  ∀ c : Cursor, c.Inside → a c =
    if n < 0 ∨ c.stop < c.pos + n then .error (.pastBound .read n c.position c.size) c
    else .ok (meaning (Cursor.span c.data c.pos (c.pos + n))) { c with pos := c.pos + n }

theorem fetches_bytes (n : Int) : Fetches (bytes n) n id := fun _ _ => rfl

/-- What follows a read of bytes need only be known for as many bytes. -/
theorem fetches_bytes_bind {f : Bytes → Read α} {meaning : Bytes → α}
    (h : ∀ bs : Bytes, (bs.length : Int) = n → f bs = pure (meaning bs)) :
    Fetches (bytes n >>= f) n meaning := by
  intro c hc
  have hb := fetches_bytes n c hc
  split
  · next hn =>
    rw [if_pos hn] at hb
    exact bind_of_error hb
  · next hn =>
    rw [if_neg hn] at hb
    have hlow := hc.low
    have hhigh := hc.high
    have hlen := @Cursor.length_span c.data c.pos (c.pos + n) hlow (by omega) (by omega)
    rw [bind_of_ok hb, id, h _ (by omega)]
    rfl

theorem Fetches.map {a : Read α} {meaning : Bytes → α} (h : Fetches a n meaning) (f : α → β) :
    Fetches (a >>= fun x => pure (f x)) n fun bs => f (meaning bs) := by
  intro c hc
  have ha := h c hc
  split
  · next hn =>
    rw [if_pos hn] at ha
    exact bind_of_error ha
  · next hn =>
    rw [if_neg hn] at ha
    exact bind_of_ok ha

theorem fetches_field (width : Nat) : Fetches (field width) width id :=
  fetches_bytes_bind fun bs h => if_neg (by omega)

theorem fetches_u8 : Fetches u8 1 Word.decode := by
  refine fetches_bytes_bind fun bs h => ?_
  obtain ⟨b, rfl⟩ := List.length_eq_one_iff.1 (by omega : bs.length = 1)
  rfl

theorem fetches_array (width : Nat) (count : Int) :
    Fetches (array width count) (width * count) (groups width count.toNat) :=
  fetches_bytes_bind fun bs h => if_neg (by omega)

end Read

open Read in
/-- Every one of these reads is told by its number of bytes and their meaning. -/
theorem Fetch.fetches (f : Fetch) : Read.Fetches f.act f.size f.meaning := by
  cases f with
  | u8 => exact fetches_u8.map _
  | i8 => exact ((fetches_field 1).map _).map _
  | u16 => exact ((fetches_field 2).map _).map _
  | i16 => exact ((fetches_field 2).map _).map _
  | u32 => exact ((fetches_field 4).map _).map _
  | i32 => exact ((fetches_field 4).map _).map _
  | single => exact ((fetches_field 4).map _).map _
  | vec3 => exact ((fetches_field 12).map _).map _
  | u16Array count => exact ((fetches_array 2 count).map _).map _
  | u32Array count => exact ((fetches_array 4 count).map _).map _
  | i32Array count => exact ((fetches_array 4 count).map _).map _
  | bytes size => exact (fetches_bytes size).map _
  | ascii size => exact ((fetches_bytes size).map _).map _
  | text size => exact ((fetches_bytes size).map _).map _

end QuestArchive
