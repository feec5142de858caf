import QuestArchive.Proofs.Bytes.Results

/-!
# The faults of reading

A read of fields fails for want of bytes and for no other reason, whatever cursor it
starts at.
-/

namespace QuestArchive

def Fault.IsShortage : Fault → Prop
  | .pastBound .. | .cutField | .noByte | .unterminated .. => True
  | _ => False

namespace Read

variable {α β : Type} {P : Fault → Prop}

def Raises (a : Read α) (P : Fault → Prop) : Prop := ∀ c e c', a c = .error e c' → P e

namespace Raises

theorem pure (x : α) : Raises (Pure.pure x : Read α) P := by
  intro c e c' h
  cases h

theorem throw {e : Fault} (he : P e) : Raises (MonadExcept.throw e : Read α) P := by
  intro c e' c' h
  cases h
  exact he

theorem bind {a : Read α} {f : α → Read β} (ha : Raises a P) (hf : ∀ x, Raises (f x) P) :
    Raises (a >>= f) P := by
  intro c e c' h
  rcases error_of_bind h with h | ⟨x, s, -, h⟩
  · exact ha _ e _ h
  · exact hf x _ e c' h

theorem map {a : Read α} (f : α → β) (ha : Raises a P) : Raises (f <$> a) P := by
  intro c e c' h
  change EStateM.map f a c = _ at h
  unfold EStateM.map at h
  split at h
  · cases h
  · next hs =>
    cases h
    exact ha _ e _ hs

theorem mono {Q : Fault → Prop} {a : Read α} (ha : Raises a P) (h : ∀ e, P e → Q e) :
    Raises a Q :=
  fun c e c' he => h e (ha c e c' he)

theorem mapM {f : α → Read β} (hf : ∀ x, Raises (f x) P) (xs : List α) :
    Raises (xs.mapM f) P := by
  induction xs with
  | nil => exact Raises.pure []
  | cons x xs ih =>
    rw [List.mapM_cons]
    exact (hf x).bind fun _ => ih.bind fun _ => Raises.pure _

end Raises

theorem raises_bytes (size : Int) : Raises (bytes size) Fault.IsShortage := by
  intro c e c' h
  unfold bytes at h
  split at h
  · cases h
    exact trivial
  · cases h

theorem raises_field (width : Nat) : Raises (field width) Fault.IsShortage := by
  refine (raises_bytes width).bind fun bs => ?_
  split
  · exact Raises.throw trivial
  · exact Raises.pure bs

theorem raises_u8 : Raises u8 Fault.IsShortage := by
  refine (raises_bytes 1).bind fun bs => ?_
  split
  · exact Raises.pure _
  · exact Raises.throw trivial

theorem raises_u16 : Raises u16 Fault.IsShortage :=
  (raises_field 2).bind fun _ => Raises.pure _

theorem raises_u32 : Raises u32 Fault.IsShortage :=
  (raises_field 4).bind fun _ => Raises.pure _

theorem raises_i32 : Raises i32 Fault.IsShortage :=
  (raises_field 4).bind fun _ => Raises.pure _

theorem raises_single : Raises single Fault.IsShortage :=
  (raises_field 4).bind fun _ => Raises.pure _

theorem raises_array (width : Nat) (count : Int) :
    Raises (array width count) Fault.IsShortage := by
  refine (raises_bytes _).bind fun bs => ?_
  split
  · exact Raises.throw trivial
  · exact Raises.pure _

theorem raises_u16Array (count : Int) : Raises (u16Array count) Fault.IsShortage :=
  (raises_array 2 count).bind fun _ => Raises.pure _

theorem nullUnit?_error {data : Array UInt8} {limit i : Int} {e : Fault}
    (h : nullUnit? data limit i = .error e) : e.IsShortage := by
  induction i using nullUnit?.induct data limit with
  | case1 i hi hn =>
    rw [nullUnit?, if_pos hi, hn] at h
    cases h
    exact trivial
  | case2 i hi hb hn =>
    rw [nullUnit?, if_pos hi, hb] at h
    simp only [if_true, hn] at h
    cases h
    exact trivial
  | case3 i hi ha hb =>
    rw [nullUnit?, if_pos hi, ha] at h
    simp only [if_true, hb] at h
    cases h
  | case4 i hi b hb hne ha ih =>
    rw [nullUnit?, if_pos hi, ha] at h
    simp only [if_true, hb, if_neg hne] at h
    exact ih h
  | case5 i hi a ha hne ih =>
    rw [nullUnit?, if_pos hi, ha] at h
    simp only [if_neg hne] at h
    exact ih h
  | case6 i hi =>
    rw [nullUnit?, if_neg hi] at h
    cases h

theorem raises_terminated (maxSize : Int) : Raises (terminated maxSize) Fault.IsShortage := by
  intro c e c' h
  unfold terminated at h
  split at h
  · next hs =>
    cases h
    exact nullUnit?_error hs
  · cases h
    exact trivial
  · cases h

theorem raises_position : Raises position P :=
  Raises.bind (fun _ _ _ h => by cases h) fun _ => Raises.pure _

theorem raises_remaining : Raises remaining P :=
  Raises.bind (fun _ _ _ h => by cases h) fun _ => Raises.pure _

end Read
end QuestArchive
