import QuestArchive.Proofs.Lists
import QuestArchive.Proofs.Prs.RoundTrip

/-!
# Where a stream ends

A reader looks at no byte before it needs it.  So what it makes of a stream hangs on the bytes
up to the end marker alone: any others may stand behind them, and if one of them is missing the
reader comes to the end of the bytes.  A compressed form has no bytes behind its end marker.
-/

namespace QuestArchive
namespace Prs

namespace Source

def withRest (s : Source) (bs : Bytes) : Source := { s with rest := bs }

/-- From one source to another some bytes are taken, and `read` takes them off the front of
whatever they stand in. -/
def Takes {α : Type} (read : Source → Option (α × Source)) (s : Source) (x : α) (s' : Source) :
    Prop :=
  ∃ front, s.rest = front ++ s'.rest ∧
    ∀ tail, read (s.withRest (front ++ tail)) = some (x, s'.withRest tail)

theorem takes_byte? {s s' : Source} {b : UInt8} (h : s.byte? = some (b, s')) :
    Takes byte? s b s' := by
  unfold byte? at h
  split at h
  · cases h
  · next hr =>
    cases h
    exact ⟨[b], hr, fun tail => rfl⟩

theorem takes_bit? {s s' : Source} {b : Bool} (h : s.bit? = some (b, s')) :
    Takes bit? s b s' := by
  unfold bit? at h
  split at h
  · next hl =>
    split at h
    · cases h
    · next c rest hr =>
      cases h
      exact ⟨[c], hr, fun tail => if_pos hl⟩
  · next hl =>
    cases h
    exact ⟨[], rfl, fun tail => if_neg hl⟩

theorem takes_token? {s s' : Source} {t : Option Token} (h : s.token? = some (t, s')) :
    Takes token? s t s' := by
  unfold token? at h
  simp only [Option.bind_eq_bind, Option.bind_eq_some_iff, Prod.exists] at h
  obtain ⟨isLiteral, s₁, h₁, h⟩ := h
  obtain ⟨f₁, r₁, e₁⟩ := takes_bit? h₁
  split at h
  · next hlit =>
    simp only [Option.bind_eq_some_iff, Prod.exists] at h
    obtain ⟨b, s₂, h₂, h⟩ := h
    obtain ⟨f₂, r₂, e₂⟩ := takes_byte? h₂
    cases h
    refine ⟨f₁ ++ f₂, by rw [r₁, r₂, List.append_assoc], fun tail => ?_⟩
    simp [token?, e₁, e₂, hlit]
  · next hlit =>
    simp only [Option.bind_eq_some_iff, Prod.exists] at h
    obtain ⟨isLong, s₂, h₂, h⟩ := h
    obtain ⟨f₂, r₂, e₂⟩ := takes_bit? h₂
    split at h
    · next hlong =>
      simp only [Option.bind_eq_some_iff, Prod.exists] at h
      obtain ⟨low, s₃, h₃, high, s₄, h₄, h⟩ := h
      obtain ⟨f₃, r₃, e₃⟩ := takes_byte? h₃
      obtain ⟨f₄, r₄, e₄⟩ := takes_byte? h₄
      split at h
      · next hend =>
        cases h
        refine ⟨f₁ ++ (f₂ ++ (f₃ ++ f₄)), by simp only [r₁, r₂, r₃, r₄, List.append_assoc],
          fun tail => ?_⟩
        simp [token?, e₁, e₂, e₃, e₄, hlit, hlong, hend]
      · next hend =>
        split at h
        · next hextra =>
          simp only [Option.bind_eq_some_iff, Prod.exists] at h
          obtain ⟨extra, s₅, h₅, h⟩ := h
          obtain ⟨f₅, r₅, e₅⟩ := takes_byte? h₅
          cases h
          refine ⟨f₁ ++ (f₂ ++ (f₃ ++ (f₄ ++ f₅))),
            by simp only [r₁, r₂, r₃, r₄, r₅, List.append_assoc], fun tail => ?_⟩
          simp [token?, e₁, e₂, e₃, e₄, e₅, hlit, hlong, hend, hextra]
        · next hextra =>
          cases h
          refine ⟨f₁ ++ (f₂ ++ (f₃ ++ f₄)), by simp only [r₁, r₂, r₃, r₄, List.append_assoc],
            fun tail => ?_⟩
          simp [token?, e₁, e₂, e₃, e₄, hlit, hlong, hend, hextra]
    · next hlong =>
      simp only [Option.bind_eq_some_iff, Prod.exists] at h
      obtain ⟨high, s₃, h₃, low, s₄, h₄, b, s₅, h₅, h⟩ := h
      obtain ⟨f₃, r₃, e₃⟩ := takes_bit? h₃
      obtain ⟨f₄, r₄, e₄⟩ := takes_bit? h₄
      obtain ⟨f₅, r₅, e₅⟩ := takes_byte? h₅
      cases h
      refine ⟨f₁ ++ (f₂ ++ (f₃ ++ (f₄ ++ f₅))),
        by simp only [r₁, r₂, r₃, r₄, r₅, List.append_assoc], fun tail => ?_⟩
      simp [token?, e₁, e₂, e₃, e₄, e₅, hlit, hlong]

/-- With a byte missing at the end, a token is either the same or not there. -/
theorem token?_cut {s s' : Source} {t : Option Token} (h : s.token? = some (t, s')) {k : Nat}
    (hk : k < s.rest.length) :
    (s.withRest (s.rest.take k)).token? = none ∨ ∃ j < s'.rest.length,
      (s.withRest (s.rest.take k)).token? = some (t, s'.withRest (s'.rest.take j)) := by
  obtain ⟨front, hr, hfront⟩ := takes_token? h
  have hlen : s.rest.length = front.length + s'.rest.length := by rw [hr, List.length_append]
  by_cases hle : front.length ≤ k
  · right
    refine ⟨k - front.length, by omega, ?_⟩
    rw [hr, List.take_append, List.take_of_length_le hle]
    exact hfront _
  · left
    refine Option.eq_none_iff_forall_ne_some.2 fun p hp => ?_
    obtain ⟨t', s''⟩ := p
    obtain ⟨front', hr', hfront'⟩ := takes_token? hp
    -- with the missing bytes back in place the token would leave more than it does
    have hwhole : front' ++ (s''.rest ++ s.rest.drop k) = s.rest := by
      rw [← List.append_assoc, ← hr']
      exact List.take_append_drop k s.rest
    have hsame := hfront' (s''.rest ++ s.rest.drop k)
    rw [hwhole] at hsame
    cases h.symm.trans hsame
    have hmore : (s''.rest ++ s.rest.drop k).length < s.rest.length - k := by
      show (withRest s'' (s''.rest ++ s.rest.drop k)).rest.length < _
      omega
    rw [List.length_append, List.length_drop] at hmore
    omega

theorem takes_spells {s s' : Source} {ts : List Token} (h : s.Spells ts s') :
    ∃ front, s.rest = front ++ s'.rest ∧
      ∀ tail, (s.withRest (front ++ tail)).Spells ts (s'.withRest tail) := by
  induction h with
  | stop h =>
    obtain ⟨front, hr, hfront⟩ := takes_token? h
    exact ⟨front, hr, fun tail => .stop (hfront tail)⟩
  | token h _ ih =>
    obtain ⟨front, hr, hfront⟩ := takes_token? h
    obtain ⟨back, hr', hback⟩ := ih
    refine ⟨front ++ back, by rw [hr, hr', List.append_assoc], fun tail => ?_⟩
    rw [List.append_assoc]
    exact .token (hfront _) (hback tail)

theorem Spells.unique {s s' s'' : Source} {ts us : List Token} (h : s.Spells ts s')
    (h' : s.Spells us s'') : ts = us ∧ s' = s'' := by
  induction h generalizing us with
  | stop h =>
    cases h' with
    | stop h' =>
      cases h.symm.trans h'
      exact ⟨rfl, rfl⟩
    | token h' _ => cases h.symm.trans h'
  | token h _ ih =>
    cases h' with
    | stop h' => cases h.symm.trans h'
    | token h' hs' =>
      cases h.symm.trans h'
      obtain ⟨rfl, rfl⟩ := ih hs'
      exact ⟨rfl, rfl⟩

end Source

theorem decodeFrom_of_none {s : Source} (h : s.token? = none) (size : Nat) (out : Array UInt8) :
    decodeFrom size s out = .error (.compressedEnd size) := by
  rw [decodeFrom.eq_def]
  split
  · rfl
  · next h' => rw [h] at h'; cases h'
  · next h' => rw [h] at h'; cases h'

theorem decodeFrom_of_token {s s' : Source} {t : Token} (h : s.token? = some (some t, s'))
    (size : Nat) {out out' : Array UInt8} (hx : t.extend out = .ok out') :
    decodeFrom size s out = decodeFrom size s' out' := by
  rw [decodeFrom.eq_def]
  split
  · next h' => rw [h] at h'; cases h'
  · next h' => rw [h] at h'; cases h'
  · next h' =>
    rw [h] at h'
    cases h'
    rw [hx]

/-- What is accepted spells tokens up to an end marker, and each of their copies reaches. -/
theorem exists_spells {size : Nat} {s : Source} {out : Array UInt8} {bs : Bytes}
    (h : decodeFrom size s out = .ok bs) :
    ∃ ts s' data, s.Spells ts s' ∧ expand out ts = .ok data ∧ data.toList = bs := by
  fun_induction decodeFrom size s out with
  | case1 => cases h
  | case2 s out s' ht =>
    cases h
    exact ⟨[], s', out, .stop ht, rfl, rfl⟩
  | case3 s out t s' ht out' hx ih =>
    obtain ⟨ts, s'', data, hs, hdata, rfl⟩ := ih h
    have step : expand out (t :: ts) = t.extend out >>= fun out => expand out ts := rfl
    exact ⟨t :: ts, s'', data, .token ht hs, by rw [step, hx]; exact hdata, rfl⟩
  | case4 => cases h

/-- A stream that lacks some bytes at its end is read up to where they are missing. -/
theorem decodeFrom_cut {s s' : Source} {ts : List Token} (h : s.Spells ts s') (hend : s'.rest = [])
    (size : Nat) {out data : Array UInt8} (hx : expand out ts = .ok data) {k : Nat}
    (hk : k < s.rest.length) :
    decodeFrom size (s.withRest (s.rest.take k)) out = .error (.compressedEnd size) := by
  induction h generalizing out k with
  | stop h =>
    rcases Source.token?_cut h hk with hnone | ⟨j, hj, -⟩
    · exact decodeFrom_of_none hnone size out
    · rw [hend] at hj
      cases hj
  | @token s s₁ s' t ts h _ ih =>
    rcases Source.token?_cut h hk with hnone | ⟨j, hj, hsome⟩
    · exact decodeFrom_of_none hnone size out
    · have step : expand out (t :: ts) = t.extend out >>= fun out => expand out ts := rfl
      rw [step] at hx
      obtain ⟨out', ho, hx⟩ := bind_eq_ok_iff.1 hx
      rw [decodeFrom_of_token hsome size ho]
      exact ih hend hx hj

/-- A stream that is accepted has a last byte that counts: the bytes up to it are decompressed
alike whatever follows them, and no fewer are accepted.  Of a compressed form every byte
counts. -/
theorem decompress_delimited {bs out : Bytes} (h : decompress bs = .ok out) :
    ∃ n ≤ bs.length, (∀ k < n, decompress (bs.take k) = .error (.compressedEnd k)) ∧
      (∀ tail, decompress (bs.take n ++ tail) = .ok out) ∧
      ∀ data, bs = compress data → n = bs.length := by
  obtain ⟨ts, s', data, hs, hx, rfl⟩ := exists_spells h
  obtain ⟨front, rfl, hfront⟩ := Source.takes_spells hs
  refine ⟨front.length, by simp, fun k hk => ?_, fun tail => ?_, fun packed hp => ?_⟩
  · have halone := hfront []
    rw [List.append_nil] at halone
    have hcut := decodeFrom_cut halone rfl k hx hk
    have htake : (front ++ s'.rest).take k = front.take k :=
      List.take_append_of_le_length (Nat.le_of_lt hk)
    have hlen : (front.take k).length = k := List.length_take_of_le (Nat.le_of_lt hk)
    rw [htake]
    unfold decompress
    rw [hlen]
    exact hcut
  · rw [List.take_left, decompress_of_spells (hfront tail), hx]
    rfl
  · obtain ⟨s'', hs'', hend⟩ := spells_encode (tokens_spec packed).2 []
    rw [List.append_nil, show encode (tokens packed) = front ++ s'.rest from hp.symm] at hs''
    obtain ⟨-, rfl⟩ := hs.unique hs''
    rw [hend, List.append_nil]

/-- A stream that was put together by hand, and bytes behind it. -/
theorem decompress_delimited_trailing :
    let bs : Bytes := [0b10110011, 97, 98, 0xFE, 0, 0, 5, 5]
    let out : Bytes := [97, 98, 97, 98, 97, 98, 97]
    decompress bs = .ok out ∧
      ∃ n ≤ bs.length, (∀ k < n, decompress (bs.take k) = .error (.compressedEnd k)) ∧
        (∀ tail, decompress (bs.take n ++ tail) = .ok out) ∧
        ∀ data, bs = compress data → n = bs.length := by
  intro bs out
  have h : decompress bs = .ok out := by decide +kernel
  exact ⟨h, decompress_delimited h⟩

end Prs
end QuestArchive
