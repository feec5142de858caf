/-!
Little-endian words: the low byte comes first.
-/

namespace QuestArchive

abbrev Bytes := List UInt8

namespace Word

def bound (width : Nat) : Nat := Nat.pow 256 width

def encode : Nat → Nat → Bytes
  | 0, _ => []
  | width + 1, n => UInt8.ofNat (n % 256) :: encode width (n / 256)

def decode : Bytes → Nat
  | [] => 0
  | b :: rest => b.toNat + 256 * decode rest

def signed (width n : Nat) : Int :=
  if 2 * n < bound width then n else (n : Int) - bound width

/-- The word of `width` bytes that an integer leaves modulo their number. -/
def wrap (width : Nat) (n : Int) : Nat := (n % (bound width : Int)).toNat

theorem bound_zero : bound 0 = 1 := rfl

theorem bound_succ (width : Nat) : bound (width + 1) = 256 * bound width := Nat.mul_comm _ _

theorem length_encode (width n : Nat) : (encode width n).length = width := by
  induction width generalizing n with
  | zero => rfl
  | succ width ih => simp [encode, ih]

theorem decode_encode {width n : Nat} (h : n < bound width) : decode (encode width n) = n := by
  induction width generalizing n with
  | zero => simp only [bound_zero] at h; simp only [encode, decode]; omega
  | succ width ih =>
    have hq : n / 256 < bound width := by
      rw [bound_succ] at h
      exact Nat.div_lt_of_lt_mul h
    have hb : (UInt8.ofNat (n % 256)).toNat = n % 256 := by
      simp only [UInt8.toNat_ofNat']; omega
    simp only [encode, decode, ih hq, hb]
    omega

theorem encode_decode (bs : Bytes) : encode bs.length (decode bs) = bs := by
  induction bs with
  | nil => rfl
  | cons b rest ih =>
    have hb : b.toNat < 256 := b.toNat_lt
    have hm : (b.toNat + 256 * decode rest) % 256 = b.toNat := by omega
    have hd : (b.toNat + 256 * decode rest) / 256 = decode rest := by omega
    simp only [List.length_cons, encode, decode, hm, hd, ih, UInt8.ofNat_toNat]

theorem decode_lt (bs : Bytes) : decode bs < bound bs.length := by
  induction bs with
  | nil => exact Nat.lt_add_one 0
  | cons b rest ih =>
    have hb : b.toNat < 256 := b.toNat_lt
    simp only [decode, List.length_cons, bound_succ]
    omega

end Word
end QuestArchive
