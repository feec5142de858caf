import QuestArchive.Prs.Stream

/-!
# Control bits in their bytes

A writer gathers bits into a control byte that stands before bytes written earlier,
so the state of a writer does not show the finished stream.  `gather` says what the
items still to come add to it, by recursion on the items: the bits that complete the
control byte at hand, and the bytes behind it.  Both directions are read off it.
`pack_eq` says that writing arrives at it, and `Holds` that a reader stands before it.
-/

namespace QuestArchive
namespace Prs

/-- What items add to a stream whose control byte has room for `room` more bits: these
bits as a number, the first one lowest, and the bytes that follow. -/
def gather (room : Nat) : List Item → Nat × Bytes
  | [] => (0, [])
  | .byte b :: rest => ((gather room rest).1, b :: (gather room rest).2)
  | .bit b :: rest =>
    match room with
    | 0 =>
      (0, UInt8.ofNat (b.toNat + 2 * (gather 7 rest).1) :: (gather 7 rest).2)
    | room + 1 => (b.toNat + 2 * (gather room rest).1, (gather room rest).2)

theorem gather_byte (room : Nat) (b : UInt8) (items : List Item) :
    gather room (.byte b :: items) = ((gather room items).1, b :: (gather room items).2) := rfl

theorem gather_bit_zero (b : Bool) (items : List Item) :
    gather 0 (.bit b :: items) =
      (0, UInt8.ofNat (b.toNat + 2 * (gather 7 items).1) :: (gather 7 items).2) := rfl

theorem gather_bit_succ (room : Nat) (b : Bool) (items : List Item) :
    gather (room + 1) (.bit b :: items) =
      (b.toNat + 2 * (gather room items).1, (gather room items).2) := rfl

theorem gather_lt (room : Nat) (items : List Item) : (gather room items).1 < pow2 room := by
  induction items generalizing room with
  | nil => exact pow2_pos room
  | cons item rest ih =>
    cases item with
    | byte b => exact ih room
    | bit b =>
      cases room with
      | zero => exact pow2_pos 0
      | succ room =>
        have h := ih room
        have hb := Bool.toNat_lt b
        rw [gather_bit_succ, pow2_succ]
        omega

namespace Packer

/-- The stream of a writer, once the items to come are written too. -/
def finished (p : Packer) (items : List Item) : Bytes :=
  match p.group with
  | none => p.done.toList ++ (gather 0 items).2
  | some g =>
    let r := gather (8 - g.used) items
    p.done.toList ++ UInt8.ofNat (g.flags + pow2 g.used * r.1) :: (g.body.toList ++ r.2)

theorem finished_nil (p : Packer) : p.finished [] = p.bytes.toList := by
  unfold finished bytes
  cases p.group with
  | none => simp [gather]
  | some g => simp [gather, Group.bytes]

theorem finished_put {p : Packer} (h : ∀ g, p.group = some g → g.used ≤ 8) (item : Item)
    (items : List Item) : (p.put item).finished items = p.finished (item :: items) := by
  obtain ⟨done, group⟩ := p
  cases group with
  | none =>
    cases item with
    | byte b => simp [put, finished, gather_byte]
    | bit b => simp [put, finished, gather_bit_zero, pow2]
  | some g =>
    have hg : g.used ≤ 8 := h g rfl
    cases item with
    | byte b => simp [put, finished, gather_byte]
    | bit b =>
      by_cases hu : g.used < 8
      · have hr : 8 - g.used = (8 - (g.used + 1)) + 1 := by omega
        have he : g.flags + b.toNat * pow2 g.used +
              pow2 (g.used + 1) * (gather (8 - (g.used + 1)) items).1 =
            g.flags + pow2 g.used * (b.toNat + 2 * (gather (8 - (g.used + 1)) items).1) := by
          rw [pow2_succ, Nat.mul_add]
          ac_rfl
        simp only [put, hu, if_true, finished]
        rw [hr, gather_bit_succ, he]
      · have hr : 8 - g.used = 0 := by omega
        simp only [put, hu, if_false, finished, Group.bytes]
        rw [hr, gather_bit_zero]
        simp [pow2]

theorem used_put {p : Packer} (h : ∀ g, p.group = some g → g.used ≤ 8) (item : Item) :
    ∀ g, (p.put item).group = some g → g.used ≤ 8 := by
  obtain ⟨done, group⟩ := p
  intro g hg
  cases group with
  | none =>
    cases item with
    | byte b => simp [put] at hg
    | bit b =>
      simp only [put, Option.some.injEq] at hg
      subst hg
      show 1 ≤ 8
      omega
  | some g' =>
    have hg' : g'.used ≤ 8 := h g' rfl
    cases item with
    | byte b =>
      simp only [put, Option.some.injEq] at hg
      subst hg
      exact hg'
    | bit b =>
      by_cases hu : g'.used < 8
      · simp only [put, hu, if_true, Option.some.injEq] at hg
        subst hg
        exact hu
      · simp only [put, hu, if_false, Option.some.injEq] at hg
        subst hg
        show 1 ≤ 8
        omega

theorem bytes_foldl_put {p : Packer} (h : ∀ g, p.group = some g → g.used ≤ 8)
    (items : List Item) : (items.foldl put p).bytes.toList = p.finished items := by
  induction items generalizing p with
  | nil => exact (finished_nil p).symm
  | cons item rest ih =>
    rw [List.foldl_cons, ih (used_put h item), finished_put h]

end Packer

theorem pack_eq (items : List Item) : pack items = (gather 0 items).2 := by
  rw [pack, Packer.bytes_foldl_put (by simp)]
  simp [Packer.finished]

namespace Source

structure Holds (s : Source) (items : List Item) (tail : Bytes) : Prop where
  flags : s.left = 0 ∨ s.flags = (gather s.left items).1
  rest : s.rest = (gather s.left items).2 ++ tail

theorem holds_pack (items : List Item) (tail : Bytes) :
    Holds { rest := pack items ++ tail } items tail :=
  ⟨Or.inl rfl, by rw [pack_eq]⟩

theorem rest_of_holds_nil {s : Source} {tail : Bytes} (h : s.Holds [] tail) : s.rest = tail := by
  rw [h.rest]
  rfl

theorem byte?_of_holds {s : Source} {b : UInt8} {items : List Item} {tail : Bytes}
    (h : s.Holds (.byte b :: items) tail) : ∃ s', s.byte? = some (b, s') ∧ s'.Holds items tail := by
  obtain ⟨hf, hr⟩ := h
  rw [gather_byte] at hf hr
  refine ⟨{ s with rest := (gather s.left items).2 ++ tail }, ?_, hf, rfl⟩
  unfold byte?
  rw [hr]
  rfl

theorem bit?_of_holds {s : Source} {b : Bool} {items : List Item} {tail : Bytes}
    (h : s.Holds (.bit b :: items) tail) : ∃ s', s.bit? = some (b, s') ∧ s'.Holds items tail := by
  obtain ⟨hf, hr⟩ := h
  obtain ⟨flags, left, rest⟩ := s
  have hb := Bool.toNat_lt b
  -- The bit read is the low one, and what is left above it are the bits to come.
  have low (n : Nat) : decide ((b.toNat + 2 * n) % 2 = 1) = b := by
    have hn : (b.toNat + 2 * n) % 2 = b.toNat := by omega
    rw [hn]
    cases b <;> rfl
  have high (n : Nat) : (b.toNat + 2 * n) / 2 = n := by omega
  cases left with
  | zero =>
    rw [gather_bit_zero] at hr
    simp only at hr
    have hlt : (gather 7 items).1 < 128 := gather_lt 7 items
    have hn : (UInt8.ofNat (b.toNat + 2 * (gather 7 items).1)).toNat =
        b.toNat + 2 * (gather 7 items).1 := by
      rw [UInt8.toNat_ofNat']
      omega
    refine ⟨⟨(gather 7 items).1, 7, (gather 7 items).2 ++ tail⟩, ?_, Or.inr rfl, rfl⟩
    simp only [bit?, if_true, hr, List.cons_append, hn, low, high]
  | succ left =>
    rw [gather_bit_succ] at hf hr
    have hf' : flags = b.toNat + 2 * (gather left items).1 := by
      rcases hf with hf | hf
      · exact absurd hf (Nat.succ_ne_zero left)
      · exact hf
    refine ⟨⟨(gather left items).1, left, (gather left items).2 ++ tail⟩, ?_, Or.inr rfl, rfl⟩
    simp only at hr
    simp only [bit?, Nat.succ_ne_zero, if_false, hf', hr, low, high, Nat.add_sub_cancel]

end Source
end Prs
end QuestArchive
