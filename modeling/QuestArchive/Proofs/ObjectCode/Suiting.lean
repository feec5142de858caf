import QuestArchive.Proofs.ObjectCode.Decoding
import QuestArchive.Proofs.ObjectCode.Extents

/-!
# Code that was read is typed

A label may have an offset in front of the code.  Positions there count from the end, and the
bytes between two of them are not as many as the positions say.  What is read there still has the
values that its operation calls for, so that the code of whatever script was read is typed.
-/

namespace QuestArchive

/-- There are no more bytes between two positions than they say. -/
theorem Cursor.length_span_le {data : Array UInt8} {i j : Int} (h : i ≤ j) :
    ((span data i j).length : Int) ≤ j - i := by
  unfold span clamp
  rw [Array.length_toList, Array.size_extract]
  split
  all_goals
    split
    all_goals omega

namespace Read

theorem gives_bytes (count : Nat) : Gives (bytes count) fun bs => bs.length ≤ count := by
  intro c bs c' h
  unfold bytes at h
  split at h
  · cases h
  · cases h
    have hle := @Cursor.length_span_le c.data c.pos (c.pos + count) (by omega)
    omega

theorem gives_field (width : Nat) : Gives (field width) fun bs => bs.length = width := by
  refine (gives_bytes width).bind fun bs hbs => ?_
  split
  · exact Gives.throw _
  · exact Gives.pure (by omega)

theorem gives_u8 : Gives u8 fun n => ∃ b : UInt8, n = b.toNat := by
  refine (gives_bytes 1).bind fun bs _ => ?_
  split
  · exact Gives.pure ⟨_, rfl⟩
  · exact Gives.throw _

theorem gives_u16 : Gives u16 fun n => ∃ bs, bs.length = 2 ∧ n = Word.decode bs :=
  (gives_field 2).bind fun bs hbs => Gives.pure ⟨bs, hbs, rfl⟩

theorem gives_u32 : Gives u32 fun n => ∃ bs, bs.length = 4 ∧ n = Word.decode bs :=
  (gives_field 4).bind fun bs hbs => Gives.pure ⟨bs, hbs, rfl⟩

theorem gives_i32 : Gives i32 fun n => ∃ bs, bs.length = 4 ∧ n = Word.signed 4 (Word.decode bs) :=
  (gives_field 4).bind fun bs hbs => Gives.pure ⟨bs, hbs, rfl⟩

theorem gives_u16Array (count : Nat) :
    Gives (u16Array count) fun ns => ∀ n ∈ ns, ∃ bs, bs.length = 2 ∧ n = Word.decode bs := by
  have hgroups : Gives (array 2 count) fun gs => ∀ g ∈ gs, g.length = 2 := by
    refine (gives_bytes (2 * count)).bind fun bs _ => ?_
    split
    · exact Gives.throw _
    · next hlen => exact Gives.pure (flatten_groups (by omega)).1
  refine hgroups.bind fun gs hgs => Gives.pure fun n hn => ?_
  obtain ⟨g, hg, rfl⟩ := List.mem_map.1 hn
  exact ⟨g, hgs g hg, rfl⟩

theorem gives_terminated (maxSize : Int) : Gives (terminated maxSize) Text.Encodable := by
  intro c t c' h
  unfold terminated at h
  split at h
  · cases h
  · cases h
  · cases h
    exact Text.encodable_decode16 _

end Read

namespace ObjectCode

open Read

theorem suits_readArg (param : ParamKind) : Gives (readArg param) fun a => a.value.Suits param := by
  cases param with
  | byte =>
    refine gives_u8.bind fun n hn => Gives.pure ?_
    obtain ⟨b, rfl⟩ := hn
    exact ⟨_, _, rfl, rfl, range_of_byte b⟩
  | register | registerTuple =>
    refine gives_u8.bind fun n hn => Gives.pure ?_
    obtain ⟨b, rfl⟩ := hn
    exact ⟨_, rfl, range_of_byte b⟩
  | word | codeLabel | dataLabel | textLabel =>
    refine gives_u16.bind fun n hn => Gives.pure ?_
    obtain ⟨bs, hbs, rfl⟩ := hn
    exact ⟨_, _, rfl, rfl, range_of_word hbs⟩
  | dword =>
    refine gives_u32.bind fun n hn => Gives.pure ?_
    obtain ⟨bs, hbs, rfl⟩ := hn
    exact ⟨_, _, rfl, rfl, range_of_dword hbs⟩
  | int =>
    refine gives_i32.bind fun n hn => Gives.pure ?_
    obtain ⟨bs, hbs, rfl⟩ := hn
    exact ⟨_, _, rfl, rfl, range_of_int hbs⟩
  | float => exact (Gives.trivial _).bind fun x _ => Gives.pure ⟨x, rfl⟩
  | string =>
    refine (Gives.trivial position).bind fun _ _ => (Gives.trivial remaining).bind fun _ _ => ?_
    refine (gives_terminated _).bind fun t ht => (Gives.trivial position).bind fun _ _ => ?_
    exact Gives.pure ⟨t, rfl, ht⟩
  | codeLabels =>
    refine (Gives.trivial u8).bind fun count _ => ?_
    refine (gives_u16Array count).bind fun ns hns => Gives.pure ⟨_, rfl, fun n hn => ?_⟩
    obtain ⟨m, hm, rfl⟩ := List.mem_map.1 hn
    obtain ⟨bs, hbs, rfl⟩ := hns m hm
    exact range_of_word hbs
  | registers =>
    refine (Gives.trivial u8).bind fun count _ => (Gives.trivial _).bind fun bs _ => ?_
    refine Gives.pure ⟨_, rfl, fun n hn => ?_⟩
    obtain ⟨b, -, rfl⟩ := List.mem_map.1 hn
    exact range_of_byte b

theorem suits_readArgs (params : List ParamKind) :
    Gives (readArgs params) (List.Forall₂ (fun param a => a.value.Suits param) params) := by
  unfold readArgs
  induction params with
  | nil => exact Gives.pure .nil
  | cons param params ih =>
    rw [List.mapM_cons]
    exact (suits_readArg param).bind fun a ha => ih.bind fun as has => Gives.pure (.cons ha has)

/-- Whatever is read as an instruction is typed, wherever the cursor stands. -/
theorem typed_readInstruction : Gives readInstruction Instruction.Typed := by
  refine gives_readOpcode.bind fun op hop => ?_
  have operands : Gives (readOperands op) fun as => if op.popsArguments then as = []
      else List.Forall₂ (fun param a => a.value.Suits param) op.params as := by
    unfold readOperands
    split
    · exact Gives.pure rfl
    · exact suits_readArgs op.params
  exact operands.bind fun as has => Gives.pure ⟨hop, has⟩

theorem Input.typed_of_readAt {s : Input} {o : Int} {st : Start} {r : Reference} {f : Finding}
    (h : s.readAt o st r = .ok f) : f.segment.Typed := by
  unfold readAt at h
  split at h
  · cases h
    trivial
  · obtain ⟨⟨value, hseg⟩, -⟩ := readText_ok h
    rw [hseg]
    trivial
  · obtain ⟨hseg, -⟩ := readCode_ok rfl h
    rw [hseg]
    exact forall_readInstructions typed_readInstruction _

/-- The code of a script that was read is typed, whatever the label table. -/
theorem typed_of_read {mode : Mode} {stored : Stored} {queue : List Reference} {r : Reading}
    (h : read mode stored queue = .ok r) : ∀ seg ∈ r.segments, seg.Typed :=
  forall_read Input.typed_of_readAt (fun _ _ => trivial) h

end ObjectCode
end QuestArchive
