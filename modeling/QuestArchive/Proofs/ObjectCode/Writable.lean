import QuestArchive.Proofs.Number.Storable
import QuestArchive.Proofs.ObjectCode.Laying

/-!
# Whatever was read can be written

A NaN or a replacement character does not say which bytes it was read from, but it has bytes
that it is read from, as many as before.  So every segment that was read is written as bytes
that hold it, and segments that tile some code tile the code that is written for them.
-/

namespace QuestArchive

/-- A unit that spells no character is replaced by a character of one unit. -/
theorem Text.length_unitBytes_decode16 {bs : Bytes} (h : Text.NoNull bs) :
    (Text.unitBytes (Text.decode16 bs)).length = bs.length := by
  have replaced : ∀ t, (Text.unitBytes (.replacement :: t)).length =
      2 + (Text.unitBytes t).length := fun t => List.length_append
  fun_induction Text.decode16 bs with
  | case1 => rfl
  | case2 => exact h.elim
  | case3 a b rest u hlow ih =>
    rw [replaced, ih h.2]
    simp only [List.length_cons]
    omega
  | case4 a b u hl hh c d rest hl' ih =>
    obtain ⟨char, hjoin, hchar⟩ := Text.charBytes_join hh hl'
    rw [hjoin, Text.unitBytes, hchar, List.length_append, ih h.2.2]
    simp only [List.length_cons, List.length_nil]
    omega
  | case5 a b u hl hh c d rest hl' ih =>
    rw [replaced, ih h.2]
    simp only [List.length_cons]
    omega
  | case6 a b rest u hl hh hrest =>
    -- Fewer than two bytes are left, and whole units are no single byte.
    rcases rest with _ | ⟨c, _ | ⟨d, rest⟩⟩
    · rfl
    · exact h.2.elim
    · exact absurd rfl (hrest c d rest)
  | case7 a b rest u hl hh ih =>
    rw [Text.unitBytes, Text.charBytes_ofNat (by simpa using hl) (by simpa using hh),
      List.length_append, ih h.2]
    simp only [List.length_cons, List.length_nil]
    omega

namespace ObjectCode

/-! ## Instructions -/

theorem exists_operand_of_operand {param : ParamKind} {bs : Bytes} {a : Arg}
    (h : Operand param bs a) :
    ∃ bs', Operand param bs' a ∧ writeOperand param a.value = .ok bs' := by
  by_cases hl : a.value.Legible
  · exact ⟨bs, h, writeOperand_of_operand h hl⟩
  cases param with
  | float =>
    obtain ⟨hlen, rfl⟩ := h
    obtain ⟨bs', hlen', hx, hw⟩ := Double.exists_single_field (Double.isSingle_singleOf bs)
    exact ⟨bs', ⟨hlen', by rw [hx]⟩, hw⟩
  | string =>
    obtain ⟨units, rfl, hn, rfl⟩ := h
    obtain ⟨henc, hnull, -⟩ := Text.fits_decode16 hn
    obtain ⟨ho, hw⟩ := text_operand henc hnull
    rw [Text.length_unitBytes_decode16 hn] at ho
    rw [List.length_append]
    exact ⟨_, ho, hw⟩
  | byte | register | registerTuple =>
    obtain ⟨b, -, rfl⟩ := h
    exact absurd trivial hl
  | word | codeLabel | dataLabel | textLabel | dword | int =>
    obtain ⟨-, rfl⟩ := h
    exact absurd trivial hl
  | codeLabels | registers =>
    obtain ⟨count, body, -, -, rfl⟩ := h
    exact absurd trivial hl

theorem exists_stores_of_stores {bs : Bytes} {i : Instruction} (h : Stores bs i) :
    ∃ bs', Stores bs' i ∧ writeInstruction i = .ok bs' := by
  obtain ⟨front, back, code, -, hn, hop, ha⟩ := h
  have hargs : if i.opcode.popsArguments then i.args = []
      else List.Forall₂ (fun param a => ∃ bs, Operand param bs (id a) ∧
        writeOperand param a.value = .ok bs) i.opcode.params i.args := by
    split at ha
    · next hpop =>
      rw [if_pos hpop]
      exact ha.2
    · next hpop =>
      rw [if_neg hpop]
      exact (forall₂_of_operands ha).imp fun _ _ ⟨_, ho⟩ => exists_operand_of_operand ho
  obtain ⟨bs', hs, hw⟩ := exists_stores_map (List.mem_of_find?_eq_some hop) hargs
  rw [List.map_id] at hs
  exact ⟨bs', hs, hw⟩

theorem exists_storesAll_of_storesAll {bs : Bytes} {is : List Instruction} (h : StoresAll bs is) :
    ∃ parts, StoresAll parts.flatten is ∧ is.mapM writeInstruction = .ok parts := by
  have hall : ∀ i ∈ is, ∃ bs', Stores bs' (id i) ∧ writeInstruction i = .ok bs' := by
    intro i hi
    obtain ⟨_, hpiece⟩ := exists_stores_of_mem h i hi
    exact exists_stores_of_stores hpiece
  obtain ⟨_, parts, hs, hw, rfl⟩ := exists_storesAll_map hall
  rw [List.map_id] at hs
  exact ⟨parts, hs, hw⟩

/-! ## Segments -/

theorem exists_holds_of_holds {bs : Bytes} {s : Segment} (h : Holds bs s) :
    ∃ bs', Holds bs' s ∧ writeSegment s = .ok bs' := by
  cases s with
  | code labels instructions =>
    obtain ⟨parts, hs, hp⟩ := exists_storesAll_of_storesAll h
    refine ⟨parts.flatten, hs, ?_⟩
    show (instructions.mapM writeInstruction >>= fun parts => _) = _
    rw [hp]
    rfl
  | data labels content => exact ⟨content, rfl, rfl⟩
  | text labels value => exact h.elim

/-- Segments that tile some code, with labels that can be placed, tile what is written for
them, and the label table gives just their offsets. -/
theorem exists_write_of_tiles {code : Array UInt8} {entries : List (Int × Segment)}
    (h : Tiles code 0 entries) (hn : ((entries.map Prod.snd).flatMap Segment.labels).Nodup)
    (h0 : ∀ e ∈ entries, ∀ l ∈ e.2.labels, 0 ≤ l) :
    ∃ w, write (entries.map Prod.snd) = .ok w ∧ Tiles w.code.toArray 0 entries ∧
      ∀ (n : Nat) (o : Int), w.offsets[n]? = some o ∧ o ≠ -1 ↔
        ∃ seg, (o, seg) ∈ entries ∧ (n : Int) ∈ seg.labels := by
  have hmem : ∀ s ∈ entries.map Prod.snd, ∃ e ∈ entries, e.2 = s := fun s hs => List.mem_map.1 hs
  obtain ⟨w, hw, htiles, hset, honly⟩ := @exists_write_of_holds (entries.map Prod.snd)
    (by
      intro s hs
      obtain ⟨e, he, rfl⟩ := hmem s hs
      obtain ⟨bs, hb⟩ := holds_of_tiles h e he
      exact exists_holds_of_holds hb)
    hn
    (by
      intro s hs
      obtain ⟨e, he, rfl⟩ := hmem s hs
      exact h0 e he)
  rw [laid_of_tiles h] at htiles hset honly
  refine ⟨w, hw, htiles, fun n o => ⟨fun ho => (honly n o ho.1).resolve_left ho.2, ?_⟩⟩
  intro ho
  obtain ⟨seg, hseg, hl⟩ := ho
  have hlow := (mem_tiles h _ hseg).1
  refine ⟨hset o seg hseg n hl, ?_⟩
  dsimp only at hlow
  omega

end ObjectCode
end QuestArchive
