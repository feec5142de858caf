import QuestArchive.Proofs.Bytes.Fetching
import QuestArchive.Proofs.Bytes.Field

/-!
# Requests in a window

A cursor that stands in a window of its data is told by the bytes of the window and the position
there.  These settle what every request comes to, as long as it does not skip backwards: a fault
leaves the cursor where it was, and any other end leaves it in the window.
-/

namespace QuestArchive

/-! ## Requests -/

inductive Request where
  | fetch (f : Fetch)
  | terminated (maxSize : Int)
  | skip (size : Int)
  | slice (size : Int)
  | seek (offset : Int)
  | position
  | size
  | remaining
  deriving DecidableEq, Repr

/-- What a request gives: something that is said, or a cursor over a part of the window. -/
inductive Answer where
  | reply (r : Reply)
  | part (c : Cursor)

namespace Request

def act : Request → Read Answer
  | fetch f => return .reply (← f.act)
  | terminated maxSize => return .reply (.text (← Read.terminated maxSize))
  | skip n => do
    Read.skip n
    return .reply .done
  | slice n => return .part (← Read.slice n)
  | seek offset => do
    Read.seek offset
    return .reply .done
  | position => return .reply (.integer (← Read.position))
  | size => return .reply (.integer (← Read.cursor).size)
  | remaining => return .reply (.integer (← Read.remaining))

def Forward : Request → Prop
  | skip n => 0 ≤ n
  | _ => True

instance : DecidablePred Forward
  | skip n => inferInstanceAs (Decidable (0 ≤ n))
  | fetch _ | terminated _ | slice _ | seek _ | position | size | remaining => .isTrue trivial

end Request

/-! ## What a request comes to in a window -/

inductive Finding where
  | reply (r : Reply)
  | part (size : Nat)

/-- How far a request reaches from a position, if the window has so many bytes. -/
def reach (window : Bytes) (pos : Nat) (use : SpanUse) (size : Int) : Except Fault Nat :=
  if size < 0 ∨ window.length < pos + size then .error (.pastBound use size pos window.length)
  else .ok (pos + size.toNat)

/-- What a request comes to for a reader at a position of a window: what it gives, and the
position that it leaves. -/
def Request.outcome (window : Bytes) (pos : Nat) : Request → Except Fault (Finding × Nat)
  | fetch f => do
    let stop ← reach window pos .read f.size
    return (.reply (f.meaning ((window.take stop).drop pos)), stop)
  | terminated maxSize =>
    let near := (window.drop pos).take maxSize.toNat
    let units := Text.beforeNull near
    if units.length + 1 < near.length then
      .ok (.reply (.text (Text.decode16 units)), pos + units.length + 2)
    else .error (.unterminated pos)
  | skip n => do
    let stop ← reach window pos .skip n
    return (.reply .done, stop)
  | slice n => do
    let stop ← reach window pos .slice n
    return (.part (stop - pos), stop)
  | seek offset =>
    if offset < 0 ∨ window.length < offset then .error (.seekOutside offset window.length)
    else .ok (.reply .done, offset.toNat)
  | position => .ok (.reply (.integer pos), pos)
  | size => .ok (.reply (.integer window.length), pos)
  | remaining => .ok (.reply (.integer (window.length - pos)), pos)

namespace Cursor

/-- A cursor stands at a position of a window of some bytes, which is a part of the data. -/
structure Shows (c : Cursor) (window : Bytes) (pos : Nat) : Prop where
  low : 0 ≤ c.start
  stop : c.stop = c.start + window.length
  high : c.stop ≤ c.data.size
  bytes : span c.data c.start c.stop = window
  place : c.pos = c.start + pos
  bound : pos ≤ window.length

def moved (c : Cursor) (pos : Nat) : Cursor := { c with pos := c.start + pos }

theorem shows_window {data : Array UInt8} {i j : Int} (hi : 0 ≤ i) (hij : i ≤ j)
    (hj : j ≤ data.size) : (window data i j).Shows (span data i j) 0 := by
  have hlen := length_span hi hij hj
  exact ⟨hi, by show j = i + _; omega, hj, rfl, (Int.add_zero i).symm, Nat.zero_le _⟩

namespace Shows

variable {c : Cursor} {window : Bytes} {pos : Nat}

theorem inside (h : c.Shows window pos) : c.Inside := by
  obtain ⟨low, stop, high, -, place, bound⟩ := h
  exact ⟨by omega, by omega, high⟩

theorem position (h : c.Shows window pos) : c.position = pos := by
  have := h.place
  unfold Cursor.position
  omega

theorem size (h : c.Shows window pos) : c.size = window.length := by
  have := h.stop
  unfold Cursor.size
  omega

theorem moved_self (h : c.Shows window pos) : c.moved pos = c := by
  rw [moved, ← h.place]

theorem moved (h : c.Shows window pos) {stop : Nat} (hs : stop ≤ window.length) :
    (c.moved stop).Shows window stop :=
  ⟨h.low, h.stop, h.high, h.bytes, rfl, hs⟩

theorem span_eq (h : c.Shows window pos) {a b : Nat} (hab : a ≤ b) (hb : b ≤ window.length) :
    span c.data (c.start + a) (c.start + b) = (window.take b).drop a := by
  obtain ⟨low, stop, high, bytes, -, -⟩ := h
  rw [← bytes, span_of_le low (by omega) high, span_of_le (by omega) (by omega) (by omega)]
  have hb' : (c.start + b).toNat = c.start.toNat + b := by omega
  have ha' : (c.start + a).toNat = c.start.toNat + a := by omega
  rw [hb', ha', List.take_drop, List.take_take, Nat.min_eq_left (by omega), List.drop_drop]

end Shows
end Cursor

namespace Read

open Cursor

/-- The first null unit of a span, at whole units from its start. -/
theorem nullUnit?_eq {data : Array UInt8} {limit i : Int} {near : Bytes} (hi : 0 ≤ i)
    (hil : i ≤ limit) (hl : limit ≤ data.size) (hs : span data i limit = near) :
    nullUnit? data limit i = .ok
      (if (Text.beforeNull near).length + 1 < near.length
        then some (i + (Text.beforeNull near).length) else none) := by
  have hlen := length_span hi hil hl
  rw [hs] at hlen
  fun_induction Text.beforeNull near generalizing i with
  | case1 a b rest hzero =>
    obtain ⟨hlt, ha, hs⟩ := byteAt?_of_span hi hil hl hs
    obtain ⟨hlt', hb, -⟩ := byteAt?_of_span (by omega) hlt hl hs
    rw [nullUnit?, if_pos hlt', ha, if_pos (by simp)]
    simp [hb, hzero]
  | case2 a b rest hunit ih =>
    obtain ⟨hlt, ha, hs⟩ := byteAt?_of_span hi hil hl hs
    obtain ⟨hlt', hb, hs⟩ := byteAt?_of_span (by omega) hlt hl hs
    have hi2 : i + 1 + 1 = i + 2 := by omega
    rw [hi2] at hs
    simp only [List.length_cons] at hlen
    have hnext := ih (by omega) (by omega) hs (by omega)
    have hgo : nullUnit? data limit i = nullUnit? data limit (i + 2) := by
      rw [nullUnit?, if_pos hlt', ha]
      by_cases hza : a = 0
      · have hzb : b ≠ 0 := fun hzb => hunit ⟨hza, hzb⟩
        simp only [if_pos hza, hb, if_neg hzb]
      · simp only [if_neg hza]
    have hsum : i + 2 + ((Text.beforeNull rest).length : Int) =
        i + ((a :: b :: Text.beforeNull rest).length : Nat) := by
      simp only [List.length_cons]
      omega
    rw [hgo, hnext, hsum]
    simp only [List.length_cons, Nat.add_lt_add_iff_right]
  | case3 near hshort =>
    have hone : near.length ≤ 1 := by
      rcases near with _ | ⟨a, _ | ⟨b, rest⟩⟩
      · exact Nat.zero_le 1
      · exact Nat.le_refl 1
      · exact absurd rfl (hshort a b rest)
    rw [nullUnit?, if_neg (by omega), if_neg (by simp only [List.length_nil]; omega)]

end Read

/-! ## Requests in a window -/

def Finding.answer (c : Cursor) : Finding → Answer
  | .reply r => .reply r
  | .part n => .part (.window c.data c.pos (c.pos + n))

namespace Cursor.Shows

open Read

variable {c : Cursor} {window : Bytes} {pos : Nat}

theorem reach_cases (h : c.Shows window pos) (use : SpanUse) (size : Int) :
    (size < 0 ∨ c.stop < c.pos + size) ∧
        reach window pos use size = .error (.pastBound use size c.position c.size) ∨
      ∃ n : Nat, size = n ∧ c.pos + n ≤ c.stop ∧ pos + n ≤ window.length ∧
        reach window pos use size = .ok (pos + n) := by
  have hstop := h.stop
  have hplace := h.place
  unfold reach
  rw [h.position, h.size]
  by_cases hr : size < 0 ∨ window.length < pos + size
  · exact .inl ⟨by omega, if_pos hr⟩
  · refine .inr ⟨size.toNat, by omega, by omega, by omega, if_neg hr⟩

theorem moved_add (h : c.Shows window pos) (n : Nat) :
    { c with pos := c.pos + n } = c.moved (pos + n) := by
  rw [Cursor.moved, h.place, Int.natCast_add, Int.add_assoc]

theorem span_add (h : c.Shows window pos) {n : Nat} (hn : pos + n ≤ window.length) :
    span c.data c.pos (c.pos + n) = (window.take (pos + n)).drop pos := by
  rw [← h.span_eq (Nat.le_add_right pos n) hn, h.place, Int.natCast_add, Int.add_assoc]

theorem part (h : c.Shows window pos) {n : Nat} (hn : pos + n ≤ window.length) :
    (Cursor.window c.data c.pos (c.pos + n)).Shows ((window.take (pos + n)).drop pos) 0 := by
  have hplace := h.place
  have hlow := h.low
  have hstop := h.stop
  have hhigh := h.high
  rw [← h.span_add hn]
  exact shows_window (by omega) (by omega) (by omega)

theorem span_front (h : c.Shows window pos) {front : Bytes} (hf : front <+: window.drop pos) :
    span c.data c.pos (c.pos + front.length) = front := by
  have hlen := hf.length_le
  have hbound := h.bound
  rw [List.length_drop] at hlen
  rw [h.span_add (by omega), List.drop_take, Nat.add_sub_cancel_left]
  exact (List.prefix_iff_eq_take.1 hf).symm

/-- A search for a null unit meets the bytes of the window up to its bound. -/
theorem nullUnit?_eq (h : c.Shows window pos) (maxSize : Int) :
    let near := (window.drop pos).take maxSize.toNat
    Read.nullUnit? c.data (min c.stop (c.pos + maxSize)) c.pos = .ok
      (if (Text.beforeNull near).length + 1 < near.length
        then some (c.pos + (Text.beforeNull near).length) else none) := by
  have hstop := h.stop
  have hplace := h.place
  have hbound := h.bound
  have hlow := h.low
  have hhigh := h.high
  by_cases hneg : maxSize < 0
  · rw [Int.toNat_of_nonpos (by omega), List.take_zero]
    rw [Read.nullUnit?, if_neg (by omega)]
    rfl
  · obtain ⟨n, hn⟩ : ∃ n : Nat, n = min maxSize.toNat (window.length - pos) := ⟨_, rfl⟩
    have hlimit : min c.stop (c.pos + maxSize) = c.pos + n := by omega
    have hnear : (window.drop pos).take maxSize.toNat = (window.take (pos + n)).drop pos := by
      rw [List.drop_take, Nat.add_sub_cancel_left, hn, List.take_eq_take_iff, List.length_drop]
      omega
    intro near
    rw [hlimit]
    exact Read.nullUnit?_eq (by omega) (by omega) (by omega)
      ((h.span_add (by omega)).trans hnear.symm)

/-- A terminated text goes up to the first null unit of the bytes that it may have. -/
theorem terminated_eq (h : c.Shows window pos) (maxSize : Int) :
    let near := (window.drop pos).take maxSize.toNat
    let units := Text.beforeNull near
    Read.terminated maxSize c =
      if units.length + 1 < near.length then
        .ok (Text.decode16 units) (c.moved (pos + units.length + 2))
      else .error (.unterminated pos) c := by
  intro near units
  have hnull : Read.nullUnit? c.data (min c.stop (c.pos + maxSize)) c.pos = .ok
      (if units.length + 1 < near.length then some (c.pos + units.length) else none) :=
    h.nullUnit?_eq maxSize
  have hunits : span c.data c.pos (c.pos + units.length) = units :=
    h.span_front ((Text.beforeNull_prefix near).trans (List.take_prefix _ _))
  have hmoved : { c with pos := c.pos + units.length + 2 } = c.moved (pos + units.length + 2) := by
    rw [Nat.add_assoc, ← h.moved_add, Int.natCast_add, Int.add_assoc]
    rfl
  unfold Read.terminated
  by_cases hfound : units.length + 1 < near.length
  · rw [if_pos hfound] at hnull ⊢
    rw [hnull]
    show EStateM.Result.ok (Text.decode16 (span c.data c.pos (c.pos + units.length))) _ = _
    rw [hunits, hmoved]
  · rw [if_neg hfound] at hnull ⊢
    rw [hnull, h.position]

theorem skip_eq (h : c.Shows window pos) {n : Int} (hn : 0 ≤ n) :
    Read.skip n c =
      match reach window pos .skip n with
      | .ok stop => .ok () (c.moved stop)
      | .error e => .error e c := by
  unfold Read.skip
  rcases h.reach_cases .skip n with ⟨hr, he⟩ | ⟨n, rfl, hle, -, he⟩
  · rw [he, if_pos (by omega)]
  · rw [he, if_neg (by omega), h.moved_add]

theorem slice_eq (h : c.Shows window pos) (n : Int) :
    Read.slice n c =
      match reach window pos .slice n with
      | .ok stop => .ok (.window c.data c.pos (c.pos + (stop - pos : Nat))) (c.moved stop)
      | .error e => .error e c := by
  unfold Read.slice
  rcases h.reach_cases .slice n with ⟨hr, he⟩ | ⟨n, rfl, hle, -, he⟩
  · rw [he, if_pos hr]
  · rw [he, if_neg (by omega), h.moved_add]
    dsimp only
    rw [Nat.add_sub_cancel_left]

theorem seek_eq (h : c.Shows window pos) (offset : Int) :
    Read.seek offset c =
      if offset < 0 ∨ window.length < offset then .error (.seekOutside offset window.length) c
      else .ok () (c.moved offset.toNat) := by
  unfold Read.seek
  rw [h.size]
  by_cases hr : offset < 0 ∨ (window.length : Int) < offset
  · rw [if_pos hr, if_pos hr]
  · rw [if_neg hr, if_neg hr, Cursor.moved, Int.toNat_of_nonneg (by omega)]

end Cursor.Shows

open Read in
/-- What a request comes to is settled by the bytes of the window and the position there. -/
theorem Request.act_eq {request : Request} (hf : request.Forward) {c : Cursor} {window : Bytes}
    {pos : Nat} (h : c.Shows window pos) :
    request.act c =
      match request.outcome window pos with
      | .ok (found, stop) => .ok (found.answer c) (c.moved stop)
      | .error e => .error e c := by
  have hstop := h.stop
  have hplace := h.place
  cases request with
  | fetch f =>
    have hfetch := f.fetches c h.inside
    rcases h.reach_cases .read f.size with ⟨hr, he⟩ | ⟨n, hn, hle, hlen, he⟩
    · rw [if_pos hr] at hfetch
      rw [outcome, he]
      exact bind_of_error hfetch
    · rw [if_neg (by omega), hn, h.span_add hlen, h.moved_add] at hfetch
      rw [outcome, he]
      exact bind_of_ok hfetch
  | terminated maxSize =>
    have hterm := h.terminated_eq maxSize
    dsimp only at hterm
    split at hterm
    · next hfound =>
      rw [outcome, if_pos hfound]
      exact bind_of_ok hterm
    · next hnone =>
      rw [outcome, if_neg hnone]
      exact bind_of_error hterm
  | skip n =>
    have hskip := h.skip_eq hf
    rw [outcome]
    cases hr : reach window pos .skip n <;> rw [hr] at hskip
    · exact bind_of_error hskip
    · exact bind_of_ok hskip
  | slice n =>
    have hslice := h.slice_eq n
    rw [outcome]
    cases hr : reach window pos .slice n <;> rw [hr] at hslice
    · exact bind_of_error hslice
    · exact bind_of_ok hslice
  | seek offset =>
    have hseek := h.seek_eq offset
    rw [outcome]
    split at hseek
    · next hr =>
      rw [if_pos hr]
      exact bind_of_error hseek
    · next hr =>
      rw [if_neg hr]
      exact bind_of_ok hseek
  | position =>
    rw [outcome, ← h.position]
    exact congrArg (EStateM.Result.ok _) h.moved_self.symm
  | size =>
    rw [outcome, ← h.size]
    exact congrArg (EStateM.Result.ok _) h.moved_self.symm
  | remaining =>
    have hr : c.remaining = window.length - pos := by
      unfold Cursor.remaining
      omega
    rw [outcome, ← hr]
    exact congrArg (EStateM.Result.ok _) h.moved_self.symm

theorem le_of_reach {window : Bytes} {pos stop : Nat} {use : SpanUse} {size : Int}
    (h : reach window pos use size = .ok stop) : pos ≤ stop ∧ stop ≤ window.length := by
  unfold reach at h
  split at h
  · cases h
  · cases h
    omega

/-- A request leaves the reader in its window, and gives a part of what it passed over. -/
theorem Request.outcome_bounds {request : Request} {window : Bytes} {pos stop : Nat}
    {found : Finding} (hpos : pos ≤ window.length)
    (h : request.outcome window pos = .ok (found, stop)) :
    stop ≤ window.length ∧ ∀ n, found = .part n → pos + n ≤ window.length := by
  cases request with
  | fetch f =>
    obtain ⟨reached, hr, h⟩ := bind_eq_ok_iff.1 h
    cases h
    exact ⟨(le_of_reach hr).2, fun n hn => nomatch hn⟩
  | terminated maxSize =>
    have hlen := (Text.beforeNull_prefix ((window.drop pos).take maxSize.toNat)).length_le
    rw [List.length_take, List.length_drop] at hlen
    rw [outcome] at h
    split at h
    · next hfound =>
      rw [List.length_take, List.length_drop] at hfound
      cases h
      exact ⟨by omega, fun n hn => nomatch hn⟩
    · cases h
  | skip n =>
    obtain ⟨reached, hr, h⟩ := bind_eq_ok_iff.1 h
    cases h
    exact ⟨(le_of_reach hr).2, fun n hn => nomatch hn⟩
  | slice n =>
    obtain ⟨reached, hr, h⟩ := bind_eq_ok_iff.1 h
    obtain ⟨hle, hlen⟩ := le_of_reach hr
    cases h
    refine ⟨hlen, fun n hn => ?_⟩
    cases hn
    omega
  | seek offset =>
    rw [outcome] at h
    split at h
    · cases h
    · cases h
      exact ⟨by omega, fun n hn => nomatch hn⟩
  | position | size | remaining =>
    cases h
    exact ⟨hpos, fun n hn => nomatch hn⟩

end QuestArchive
