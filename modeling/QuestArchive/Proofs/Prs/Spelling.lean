import QuestArchive.Proofs.Prs.Packing

/-!
# Streams and their tokens

`Spells` says that a reader finds some tokens and then the end marker.  Decompression
depends on a stream only through them: it is the expansion of the tokens spelled.  A
stream written from tokens that have a stored form spells these tokens and nothing
else.
-/

namespace QuestArchive
namespace Prs

/-- A token has a stored form that is read as this token.  The greatest distance with an
extended length would be stored as the end marker. -/
def Token.Storable : Token → Prop
  | literal _ => True
  | short distance length => (1 ≤ distance ∧ distance ≤ 256) ∧ 2 ≤ length ∧ length ≤ 5
  | long distance length =>
    (1 ≤ distance ∧ distance ≤ 8192 ∧ 3 ≤ length ∧ length ≤ 9) ∨
      (1 ≤ distance ∧ distance ≤ 8191 ∧ 10 ≤ length ∧ length ≤ 256)

namespace Source

/-- Reading finds some tokens and the end marker, behind which it stops. -/
inductive Spells : Source → List Token → Source → Prop where
  | stop {s s' : Source} (h : s.token? = some (none, s')) : Spells s [] s'
  | token {s s' s'' : Source} {t : Token} {ts : List Token}
      (h : s.token? = some (some t, s')) (hs : Spells s' ts s'') : Spells s (t :: ts) s''

end Source

theorem decodeFrom_of_spells {s s' : Source} {ts : List Token} (h : s.Spells ts s') (size : Nat)
    (out : Array UInt8) : decodeFrom size s out = (expand out ts).map Array.toList := by
  induction h generalizing out with
  | stop h =>
    rw [decodeFrom.eq_def]
    split
    · next h' => rw [h] at h'; cases h'
    · rfl
    · next h' => rw [h] at h'; cases h'
  | @token s s' s'' t ts h hs ih =>
    have step : expand out (t :: ts) = t.extend out >>= fun out' => expand out' ts := rfl
    rw [decodeFrom.eq_def, step]
    split
    · next h' => rw [h] at h'; cases h'
    · next h' => rw [h] at h'; cases h'
    · next t' s₁ h' =>
      rw [h] at h'
      cases h'
      cases t.extend out with
      | error e => rfl
      | ok out' => exact ih out'

theorem decompress_of_spells {data : Bytes} {ts : List Token} {s : Source}
    (h : Source.Spells { rest := data } ts s) :
    decompress data = (expand #[] ts).map Array.toList :=
  decodeFrom_of_spells h data.length #[]

namespace Source

theorem word_bytes {n : Nat} (h : n < 65536) :
    Word.decode [UInt8.ofNat (n % 256), UInt8.ofNat (n / 256 % 256)] = n :=
  @Word.decode_encode 2 n h

theorem token?_literal {s : Source} {b : UInt8} {items : List Item} {tail : Bytes}
    (h : s.Holds ((Token.literal b).items ++ items) tail) :
    ∃ s', s.token? = some (some (.literal b), s') ∧ s'.Holds items tail := by
  obtain ⟨s₁, h₁, hs₁⟩ := bit?_of_holds h
  obtain ⟨s₂, h₂, hs₂⟩ := byte?_of_holds hs₁
  refine ⟨s₂, ?_, hs₂⟩
  simp [token?, h₁, h₂]

theorem token?_short {s : Source} {distance length : Nat} {items : List Item} {tail : Bytes}
    (ht : (Token.short distance length).Storable)
    (h : s.Holds ((Token.short distance length).items ++ items) tail) :
    ∃ s', s.token? = some (some (.short distance length), s') ∧ s'.Holds items tail := by
  obtain ⟨⟨hd, hd'⟩, hl, hl'⟩ := ht
  obtain ⟨s₁, h₁, hs₁⟩ := bit?_of_holds h
  obtain ⟨s₂, h₂, hs₂⟩ := bit?_of_holds hs₁
  obtain ⟨s₃, h₃, hs₃⟩ := bit?_of_holds hs₂
  obtain ⟨s₄, h₄, hs₄⟩ := bit?_of_holds hs₃
  obtain ⟨s₅, h₅, hs₅⟩ := byte?_of_holds hs₄
  have hb : 256 - (UInt8.ofNat (256 - distance)).toNat = distance := by
    rw [UInt8.toNat_ofNat']
    omega
  have hbits : 2 * (decide ((length - 2) / 2 % 2 = 1)).toNat +
      (decide ((length - 2) % 2 = 1)).toNat + 2 = length := by
    have : length = 2 ∨ length = 3 ∨ length = 4 ∨ length = 5 := by omega
    rcases this with rfl | rfl | rfl | rfl <;> rfl
  refine ⟨s₅, ?_, hs₅⟩
  simp only [token?, h₁, h₂, h₃, h₄, h₅, Option.bind_eq_bind, Option.bind_some,
    Bool.false_eq_true, if_false, hb, hbits]

theorem token?_long {s : Source} {distance length : Nat} {items : List Item} {tail : Bytes}
    (ht : (Token.long distance length).Storable)
    (h : s.Holds ((Token.long distance length).items ++ items) tail) :
    ∃ s', s.token? = some (some (.long distance length), s') ∧ s'.Holds items tail := by
  by_cases hl : length ≤ 9
  · have hd : 1 ≤ distance ∧ distance ≤ 8192 ∧ 3 ≤ length := by
      rcases ht with ⟨h1, h2, h3, -⟩ | ⟨-, -, h3, -⟩
      · exact ⟨h1, h2, h3⟩
      · omega
    simp only [Token.items, hl, if_true, Word.encode, List.map_cons, List.map_nil,
      List.append_nil] at h
    obtain ⟨s₁, h₁, hs₁⟩ := bit?_of_holds h
    obtain ⟨s₂, h₂, hs₂⟩ := bit?_of_holds hs₁
    obtain ⟨s₃, h₃, hs₃⟩ := byte?_of_holds hs₂
    obtain ⟨s₄, h₄, hs₄⟩ := byte?_of_holds hs₃
    have hw := word_bytes (n := (8192 - distance) * 8 + (length - 2)) (by omega)
    have hzero : (8192 - distance) * 8 + (length - 2) ≠ 0 := by omega
    have hlow : ((8192 - distance) * 8 + (length - 2)) % 8 ≠ 0 := by omega
    have hlen : ((8192 - distance) * 8 + (length - 2)) % 8 + 2 = length := by omega
    have hdist : 8192 - ((8192 - distance) * 8 + (length - 2)) / 8 = distance := by omega
    refine ⟨s₄, ?_, hs₄⟩
    simp only [token?, h₁, h₂, h₃, h₄, Option.bind_eq_bind, Option.bind_some,
      Bool.false_eq_true, if_false, if_true, hw, hzero, hlow, hlen, hdist]
  · have hd : 1 ≤ distance ∧ distance ≤ 8191 ∧ length ≤ 256 := by
      rcases ht with ⟨-, -, -, h4⟩ | ⟨h1, h2, -, h4⟩
      · omega
      · exact ⟨h1, h2, h4⟩
    simp only [Token.items, hl, if_false, Word.encode, List.map_cons, List.map_nil] at h
    obtain ⟨s₁, h₁, hs₁⟩ := bit?_of_holds h
    obtain ⟨s₂, h₂, hs₂⟩ := bit?_of_holds hs₁
    obtain ⟨s₃, h₃, hs₃⟩ := byte?_of_holds hs₂
    obtain ⟨s₄, h₄, hs₄⟩ := byte?_of_holds hs₃
    obtain ⟨s₅, h₅, hs₅⟩ := byte?_of_holds hs₄
    have hw := word_bytes (n := (8192 - distance) * 8) (by omega)
    -- Only the distance 8192, kept for short lengths, would give the end marker here.
    have hzero : (8192 - distance) * 8 ≠ 0 := by omega
    have hlow : (8192 - distance) * 8 % 8 = 0 := by omega
    have hdist : 8192 - (8192 - distance) * 8 / 8 = distance := by omega
    have hlen : (UInt8.ofNat (length - 1)).toNat + 1 = length := by
      rw [UInt8.toNat_ofNat']
      omega
    refine ⟨s₅, ?_, hs₅⟩
    simp only [token?, h₁, h₂, h₃, h₄, h₅, Option.bind_eq_bind, Option.bind_some,
      Bool.false_eq_true, if_false, if_true, hw, hzero, hlow, hlen, hdist]

theorem token?_of_holds {s : Source} {t : Token} {items : List Item} {tail : Bytes}
    (ht : t.Storable) (h : s.Holds (t.items ++ items) tail) :
    ∃ s', s.token? = some (some t, s') ∧ s'.Holds items tail := by
  cases t with
  | literal b => exact token?_literal h
  | short distance length => exact token?_short ht h
  | long distance length => exact token?_long ht h

theorem token?_end {s : Source} {tail : Bytes} (h : s.Holds endItems tail) :
    ∃ s', s.token? = some (none, s') ∧ s'.rest = tail := by
  obtain ⟨s₁, h₁, hs₁⟩ := bit?_of_holds h
  obtain ⟨s₂, h₂, hs₂⟩ := bit?_of_holds hs₁
  obtain ⟨s₃, h₃, hs₃⟩ := byte?_of_holds hs₂
  obtain ⟨s₄, h₄, hs₄⟩ := byte?_of_holds hs₃
  refine ⟨s₄, ?_, rest_of_holds_nil hs₄⟩
  simp [token?, h₁, h₂, h₃, h₄, Word.decode]

theorem spells_of_holds {s : Source} {ts : List Token} {tail : Bytes}
    (ht : ∀ t ∈ ts, t.Storable) (h : s.Holds (ts.flatMap Token.items ++ endItems) tail) :
    ∃ s', s.Spells ts s' ∧ s'.rest = tail := by
  induction ts generalizing s with
  | nil =>
    obtain ⟨s', h', hs'⟩ := token?_end h
    exact ⟨s', .stop h', hs'⟩
  | cons t ts ih =>
    rw [List.flatMap_cons, List.append_assoc] at h
    obtain ⟨s₁, h₁, hs₁⟩ := token?_of_holds (ht t List.mem_cons_self) h
    obtain ⟨s', h', hs'⟩ := ih (fun t' ht' => ht t' (List.mem_cons_of_mem t ht')) hs₁
    exact ⟨s', .token h₁ h', hs'⟩

end Source

/-- A stream spells the tokens that it was written from, whatever follows it. -/
theorem spells_encode {ts : List Token} (ht : ∀ t ∈ ts, t.Storable) (tail : Bytes) :
    ∃ s, Source.Spells { rest := encode ts ++ tail } ts s ∧ s.rest = tail :=
  Source.spells_of_holds ht (Source.holds_pack _ tail)

end Prs
end QuestArchive
