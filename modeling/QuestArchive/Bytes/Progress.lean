import QuestArchive.Bytes.Read

/-!
Reads move forward.  What a successful read leaves before the cursor is less than what
it found there, which is why loops over the contents of a window end.
-/

namespace QuestArchive
namespace Read

/-- When it succeeds, the action moves the cursor forward by `n` or more, and leaves it
inside its window if it was there or if it moved. -/
def Moves (n : Nat) (a : Read α) : Prop :=
  ∀ c x c', a c = .ok x c' →
    c'.stop = c.stop ∧ c.pos + n ≤ c'.pos ∧
      (c.pos ≤ c.stop ∨ 0 < n → c'.pos ≤ c'.stop)

theorem Moves.pure (x : α) : Moves 0 (Pure.pure x : Read α) := by
  intro c y c' h
  cases h
  exact ⟨rfl, by omega, by omega⟩

theorem Moves.throw (e : Fault) : Moves n (MonadExcept.throw e : Read α) := by
  intro c y c' h
  cases h

theorem Moves.bind {a : Read α} {f : α → Read β} (ha : Moves m a) (hf : ∀ x, Moves n (f x)) :
    Moves (m + n) (a >>= f) := by
  intro c y c'' h
  simp only [Bind.bind, EStateM.bind] at h
  split at h
  · next x c' hx =>
    obtain ⟨s1, p1, w1⟩ := ha c x c' hx
    obtain ⟨s2, p2, w2⟩ := hf x c' y c'' h
    exact ⟨by omega, by omega, by omega⟩
  · cases h

theorem Moves.map {a : Read α} (f : α → β) (ha : Moves n a) : Moves n (f <$> a) := by
  intro c y c' h
  simp only [Functor.map, EStateM.map] at h
  split at h
  · next x s hx =>
    cases h
    exact ha c x _ hx
  · cases h

theorem Moves.remaining_lt {a : Read α} (ha : Moves n a) (hn : 0 < n) {c c' : Cursor} {x : α}
    (h : a c = .ok x c') : c'.remaining.toNat < c.remaining.toNat := by
  obtain ⟨s, p, w⟩ := ha c x c' h
  have := w (Or.inr hn)
  simp only [Cursor.remaining]
  omega

theorem Moves.mono {a : Read α} (ha : Moves n a) (h : m ≤ n) : Moves m a := by
  intro c x c' hx
  obtain ⟨s, p, w⟩ := ha c x c' hx
  exact ⟨s, by omega, by omega⟩

theorem moves_bytes (n : Nat) : Moves n (bytes n) := by
  intro c x c' h
  unfold bytes at h
  split at h
  · cases h
  · cases h
    exact ⟨rfl, Int.le_refl _, by simp only []; omega⟩

theorem moves_bytes_zero (n : Int) : Moves 0 (bytes n) := by
  intro c x c' h
  unfold bytes at h
  split at h
  · cases h
  · cases h
    exact ⟨rfl, by simp only []; omega, by simp only []; omega⟩

theorem moves_field (width : Nat) : Moves width (field width) := by
  refine (moves_bytes width).bind (n := 0) fun bs => ?_
  split
  · exact Moves.throw _
  · exact Moves.pure _

theorem moves_u8 : Moves 1 u8 := by
  refine (moves_bytes 1).bind (n := 0) fun bs => ?_
  split
  · exact Moves.pure _
  · exact Moves.throw _

theorem moves_u16 : Moves 2 u16 := (moves_field 2).bind (n := 0) fun _ => Moves.pure _

theorem moves_u32 : Moves 4 u32 := (moves_field 4).bind (n := 0) fun _ => Moves.pure _

theorem moves_i32 : Moves 4 i32 := (moves_field 4).bind (n := 0) fun _ => Moves.pure _

theorem moves_single : Moves 4 single := (moves_field 4).bind (n := 0) fun _ => Moves.pure _

theorem moves_array (width : Nat) (count : Int) : Moves 0 (array width count) := by
  refine (moves_bytes_zero _).bind (n := 0) fun bs => ?_
  split
  · exact Moves.throw _
  · exact Moves.pure _

theorem moves_u16Array (count : Int) : Moves 0 (u16Array count) :=
  (moves_array 2 count).bind (n := 0) fun _ => Moves.pure _

theorem moves_slice (n : Int) : Moves 0 (slice n) := by
  intro c x c' h
  unfold slice at h
  split at h
  · cases h
  · cases h
    exact ⟨rfl, by simp only []; omega, by simp only []; omega⟩

theorem nullUnit?_bounds {data : Array UInt8} {limit i j : Int}
    (h : nullUnit? data limit i = .ok (some j)) : i ≤ j ∧ j + 1 < limit := by
  fun_induction nullUnit? data limit i with
  | case1 => cases h
  | case2 => cases h
  | case3 => cases h; omega
  | case4 _ _ _ _ _ _ ih => have := ih h; omega
  | case5 _ _ _ _ _ ih => have := ih h; omega
  | case6 => cases h

theorem moves_terminated (maxSize : Int) : Moves 0 (terminated maxSize) := by
  intro c x c' h
  unfold terminated at h
  split at h
  · cases h
  · cases h
  · next i hi =>
    cases h
    have := nullUnit?_bounds hi
    exact ⟨rfl, by simp only []; omega, by simp only []; omega⟩

end Read
end QuestArchive
