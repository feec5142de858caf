import QuestArchive.Proofs.ObjectCode.Instructions

/-!
# Where reading instructions stops, and why

A cursor inside its window can run out of bytes at the window's end only, and then says
so; a number that is no operation's has its first byte above the two that open a long
number.  So what stops the reading of instructions is one of these, at a place where no
instruction is stored.
-/

namespace QuestArchive

namespace Read

variable {α β : Type} {P : Bytes → Fault → Prop}

/-- Whatever fault an action has at a cursor inside its window stands in a relation to
the bytes before the cursor. -/
def Stops (a : Read α) (P : Bytes → Fault → Prop) : Prop :=
  ∀ (c c' : Cursor) (e : Fault), c.Inside → a c = .error e c' → P c.view e

namespace Stops

theorem pure (x : α) : Stops (Pure.pure x : Read α) P := by
  intro c c' e _ h
  cases h

theorem throw {e : Fault} (h : ∀ bs, P bs e) : Stops (MonadExcept.throw e : Read α) P := by
  intro c c' e' _ he
  cases he
  exact h c.view

theorem bind {a : Read α} {f : α → Read β} {R : Bytes → α → Prop} (hd : Describes a R)
    (ha : Stops a P) (hf : ∀ bs x, R bs x → Stops (f x) fun rest e => P (bs ++ rest) e) :
    Stops (a >>= f) P := by
  intro c c' e hc h
  rcases error_of_bind h with h | ⟨x, s, hx, h⟩
  · exact ha _ _ _ hc h
  · obtain ⟨bs, rest, hv, hr, rfl⟩ := hd.yields hc hx
    have hp := hf bs x hr _ _ _ (Cursor.inside_advance hc hv) h
    rw [Cursor.view_advance hc hv, ← hv] at hp
    exact hp

theorem map {a : Read α} {R : Bytes → α → Prop} (hd : Describes a R) (ha : Stops a P)
    (f : α → β) : Stops (a >>= fun x => Pure.pure (f x)) P :=
  bind hd ha fun _ _ _ => Stops.pure _

end Stops

end Read

namespace ObjectCode

open Read

/-! ## Operands -/

def Short (_ : Bytes) (e : Fault) : Prop := isMalformed e = true

theorem stops_bytes (size : Int) : Stops (bytes size) Short := by
  intro c c' e _ h
  unfold bytes at h
  split at h
  · cases h
    rfl
  · cases h

theorem stops_field (width : Nat) : Stops (field width) Short := by
  refine Stops.bind (describes_bytes width) (stops_bytes width) fun bs x h => ?_
  obtain ⟨hl, rfl⟩ := h
  rw [if_neg (by omega)]
  exact Stops.pure _

theorem stops_u8 : Stops u8 Short := by
  refine Stops.bind (describes_bytes 1) (stops_bytes 1) fun bs x h => ?_
  obtain ⟨hl, rfl⟩ := h
  obtain ⟨b, rfl⟩ := List.length_eq_one_iff.1 hl
  exact Stops.pure _

theorem stops_u16Array (count : Nat) : Stops (u16Array count) Short := by
  have hb := describes_bytes (2 * count)
  have harray : Stops (array 2 count) Short := by
    refine Stops.bind hb (stops_bytes _) fun bs x h => ?_
    obtain ⟨hl, rfl⟩ := h
    rw [if_neg (by omega)]
    exact Stops.pure _
  intro c c' e hc h
  rcases error_of_bind h with h | ⟨_, _, -, h⟩
  · exact harray _ _ _ hc h
  · cases h

/-- Inside the data the search for a null unit comes to an end. -/
theorem nullUnit?_inside {data : Array UInt8} {limit i : Int} (hl : limit ≤ data.size)
    (hi : 0 ≤ i) : ∃ found, nullUnit? data limit i = .ok found := by
  have byte : ∀ k : Int, 0 ≤ k → k < limit → Cursor.byteAt? data k ≠ none := by
    intro k hk hkl
    rw [Cursor.byteAt?, if_neg (by omega), ne_eq, Array.getElem?_eq_none_iff]
    omega
  fun_induction nullUnit? data limit i with
  | case1 i hlt hn => exact absurd hn (byte i hi (by omega))
  | case2 i hlt hn _ => exact absurd hn (byte (i + 1) (by omega) (by omega))
  | case3 i => exact ⟨some i, rfl⟩
  | case4 i hlt b hb hne ha ih => exact ih (by omega)
  | case5 i hlt a ha hne ih => exact ih (by omega)
  | case6 => exact ⟨none, rfl⟩

theorem stops_terminated {c c' : Cursor} {e : Fault} (hc : c.Inside)
    (h : terminated c.remaining c = .error e c') : Short c.view e := by
  obtain ⟨found, hf⟩ := nullUnit?_inside hc.high hc.low
  unfold terminated at h
  rw [min_stop_remaining, hf] at h
  cases found with
  | none =>
    cases h
    rfl
  | some i => cases h

theorem stops_readArg (param : ParamKind) : Stops (readArg param) Short := by
  cases param with
  | byte | register | registerTuple => exact Stops.map describes_u8 stops_u8 _
  | word | codeLabel | dataLabel | textLabel =>
    exact Stops.map describes_u16 (Stops.map (describes_field 2) (stops_field 2) _) _
  | dword => exact Stops.map describes_u32 (Stops.map (describes_field 4) (stops_field 4) _) _
  | int => exact Stops.map describes_i32 (Stops.map (describes_field 4) (stops_field 4) _) _
  | float => exact Stops.map describes_single (Stops.map (describes_field 4) (stops_field 4) _) _
  | string =>
    intro c c' e hc h
    rw [readArg_string] at h
    rcases error_of_bind h with h | ⟨_, _, -, h⟩
    · exact stops_terminated hc h
    · cases h
  | codeLabels =>
    refine Stops.bind describes_u8 stops_u8 fun _ n _ => ?_
    exact Stops.map (describes_u16Array n) (stops_u16Array n) _
  | registers =>
    refine Stops.bind describes_u8 stops_u8 fun _ n _ => ?_
    exact Stops.map (describes_bytes n) (stops_bytes n) _

theorem stops_readArgs (params : List ParamKind) : Stops (readArgs params) Short := by
  unfold readArgs
  induction params with
  | nil => exact Stops.pure []
  | cons param params ih =>
    rw [List.mapM_cons]
    refine Stops.bind (describes_readArg param) (stops_readArg param) fun _ _ _ => ?_
    exact Stops.map (describes_readArgs params) ih _

theorem stops_readOperands (op : Opcode) : Stops (readOperands op) Short := by
  unfold readOperands
  split
  · exact Stops.pure []
  · exact stops_readArgs op.params

/-! ## Numbers of operations -/

/-- The first of some bytes can open no number of an operation: it is neither a number by
itself nor one of the two that open a long one. -/
def Unknown (bs : Bytes) (e : Fault) : Prop :=
  ∃ b rest, bs = b :: rest ∧ 0xFA ≤ b.toNat ∧ e = .unknownOpcode b.toNat

def Unreadable (bs : Bytes) (e : Fault) : Prop := Short bs e ∨ Unknown bs e

theorem stops_readNumber : Stops readNumber Short := by
  refine Stops.bind describes_u8 stops_u8 fun _ first _ => ?_
  split
  · exact Stops.map describes_u8 stops_u8 _
  · exact Stops.pure first

theorem byte_of_number {bs : Bytes} {code : Nat} (hn : Number bs code)
    (h : Opcode.ofCode? code = none) : ∃ b : UInt8, bs = [b] ∧ 0xFA ≤ b.toNat ∧ code = b.toNat := by
  have hnot : ¬(code < 0xF8 ∨ 0xF800 ≤ code ∧ code < 0xFA00) := by
    intro hc
    obtain ⟨op, hop⟩ := Opcode.exists_ofCode? (Opcode.mem_codes.2 hc)
    rw [h] at hop
    cases hop
  rcases hn with ⟨b, rfl, hb, rfl⟩ | ⟨high, low, rfl, hb, rfl⟩
  · exact ⟨b, rfl, by omega, rfl⟩
  · have hlow := low.toNat_lt
    omega

theorem stops_readOpcode : Stops readOpcode Unreadable := by
  refine Stops.bind describes_readNumber ?_ fun bs code hn => ?_
  · exact fun c c' e hc h => Or.inl (stops_readNumber c c' e hc h)
  · split
    · exact Stops.pure _
    · next hop =>
      obtain ⟨b, rfl, hb, rfl⟩ := byte_of_number hn hop
      exact Stops.throw fun rest => Or.inr ⟨b, rest, rfl, hb, rfl⟩

theorem stops_readInstruction : Stops readInstruction Unreadable := by
  refine Stops.bind describes_readOpcode stops_readOpcode fun _ op _ => ?_
  refine Stops.map (describes_readOperands op) ?_ _
  exact fun c c' e hc h => Or.inl (stops_readOperands op c c' e hc h)

theorem readInstruction_unknown {c : Cursor} {b : UInt8} {rest : Bytes} (hc : c.Inside)
    (hv : c.view = b :: rest) (hb : 0xFA ≤ b.toNat) :
    readInstruction c = .error (.unknownOpcode b.toNat) (c.advance 1) := by
  have hnum : Number [b] b.toNat := Or.inl ⟨b, rfl, by omega, rfl⟩
  have hread : readNumber c = .ok b.toNat (c.advance 1) :=
    describes_readNumber.accepts hc (show c.view = [b] ++ rest from hv) hnum
  have hnone : Opcode.ofCode? b.toNat = none := by
    cases hop : Opcode.ofCode? b.toNat with
    | none => rfl
    | some op =>
      obtain ⟨code, hcode, he⟩ := Opcode.code_mem_codes (List.mem_of_find?_eq_some hop)
      rw [Opcode.code_of_ofCode? hop, Int.ofNat_inj] at he
      have hlt := b.toNat_lt
      have hcodes := Opcode.mem_codes.1 hcode
      omega
  have hop : readOpcode c = .error (.unknownOpcode b.toNat) (c.advance 1) := by
    refine (Read.bind_of_ok hread).trans ?_
    rw [hnone]
    rfl
  exact Read.bind_of_error hop

/-! ## Instructions one after the other -/

/-- Some bytes are instructions up to a place, and no instruction stands there. -/
structure Breaks (bs : Bytes) (is : List Instruction) (position : Nat) : Prop where
  inside : position < bs.length
  before : StoresAll (bs.take position) is
  behind : ∀ front rest i, bs.drop position = front ++ rest → ¬Stores front i

/-- Reading stops where the bytes break, for a reason that lies in the bytes there. -/
theorem readInstructions_breaks {c : Cursor} (hc : c.Inside) {is : List Instruction}
    {position : Int} {e : Fault} (h : readInstructions c = (is, some (position, e))) :
    ∃ n : Nat, position = c.position + n ∧ Breaks c.view is n ∧ Unreadable (c.view.drop n) e := by
  induction c using readInstructions.induct generalizing is with
  | case1 c h0 =>
    rw [readInstructions_nil h0] at h
    cases h
  | case2 c h0 fault c' hf =>
    rw [readInstructions_error h0 hf] at h
    cases h
    have hlen := Cursor.length_view hc
    have hle := hc.order
    refine ⟨0, by omega, ⟨?_, .nil, ?_⟩, stops_readInstruction c c' _ hc hf⟩
    · unfold Cursor.remaining at h0 hlen
      omega
    · intro front rest i hv hs
      rw [describes_readInstruction.accepts hc hv hs] at hf
      cases hf
  | case3 c h0 i c' hi _ ih =>
    obtain ⟨bs, tail, hv, hs, rfl⟩ := describes_readInstruction.yields hc hi
    rw [readInstructions_ok h0 hi] at h
    obtain ⟨rfl, hrest⟩ := Prod.mk.inj h
    have hin := Cursor.inside_advance hc hv
    have hview := Cursor.view_advance hc hv
    obtain ⟨n, rfl, ⟨hlt, hb, hn⟩, he⟩ := ih hin (Prod.ext rfl hrest)
    rw [hview] at hlt hb hn he
    refine ⟨bs.length + n, ?_, ⟨?_, ?_, ?_⟩, ?_⟩
    · simp only [Cursor.position, Cursor.advance]
      omega
    · rw [hv, List.length_append]
      omega
    · rw [hv, List.take_length_add_append]
      exact .cons hs hb
    · rwa [hv, List.drop_length_add_append]
    · rwa [hv, List.drop_length_add_append]

end ObjectCode
end QuestArchive
