import Mathlib.Data.List.Forall2
import QuestArchive.ObjectCode.Codec
import QuestArchive.Proofs.Bytes.Reading

/-!
# Stored instructions as byte strings

`Operand`, `Operands` and `Stores` say which bytes store an operand, the operands of an
operation and an instruction.  They are what reading finds, exactly: the read actions
are described by them.
-/

namespace QuestArchive
namespace ObjectCode

open Read

/-- Some bytes are an operand of a kind, and an argument is what they mean. -/
def Operand (param : ParamKind) (bs : Bytes) (a : Arg) : Prop :=
  match param with
  | .byte | .register | .registerTuple => ∃ b : UInt8, bs = [b] ∧ a = ⟨.int b.toNat, 1⟩
  | .word | .codeLabel | .dataLabel | .textLabel =>
    bs.length = 2 ∧ a = ⟨.int (Word.decode bs), 2⟩
  | .dword => bs.length = 4 ∧ a = ⟨.int (Word.decode bs), 4⟩
  | .int => bs.length = 4 ∧ a = ⟨.int (Word.signed 4 (Word.decode bs)), 4⟩
  | .float => bs.length = 4 ∧ a = ⟨.float (Read.singleOf bs), 4⟩
  | .string => ∃ units, bs = units ++ [0, 0] ∧ Text.NoNull units ∧
      a = ⟨.text (Text.decode16 units), bs.length⟩
  | .codeLabels => ∃ (count : UInt8) (words : Bytes), bs = count :: words ∧
      words.length = 2 * count.toNat ∧
      a = ⟨.list ((groups 2 count.toNat words).map fun w => (Word.decode w : Int)),
        1 + 2 * count.toNat⟩
  | .registers => ∃ (count : UInt8) (numbers : Bytes), bs = count :: numbers ∧
      numbers.length = count.toNat ∧
      a = ⟨.list (numbers.map fun b => (b.toNat : Int)), 1 + count.toNat⟩

def Operands : List ParamKind → Bytes → List Arg → Prop
  | [], bs, as => bs = [] ∧ as = []
  | param :: params, bs, as => ∃ front back a rest, bs = front ++ back ∧ as = a :: rest ∧
      Operand param front a ∧ Operands params back rest

theorem forall₂_of_operands {params : List ParamKind} {bs : Bytes} {as : List Arg}
    (h : Operands params bs as) :
    List.Forall₂ (fun param a => ∃ bs, Operand param bs a) params as := by
  induction params generalizing bs as with
  | nil =>
    obtain ⟨-, rfl⟩ := h
    exact .nil
  | cons param params ih =>
    obtain ⟨front, back, a, rest, -, rfl, ha, hr⟩ := h
    exact .cons ⟨front, ha⟩ (ih hr)

def Number (bs : Bytes) (code : Nat) : Prop :=
  (∃ b : UInt8, bs = [b] ∧ ¬(b.toNat = 0xF8 ∨ b.toNat = 0xF9) ∧ code = b.toNat) ∨
    ∃ high low : UInt8, bs = [high, low] ∧ (high.toNat = 0xF8 ∨ high.toNat = 0xF9) ∧
      code = high.toNat * 256 + low.toNat

/-- Some bytes are an instruction.  An operation that takes its arguments from the stack
has no operands. -/
def Stores (bs : Bytes) (i : Instruction) : Prop :=
  ∃ front back code, bs = front ++ back ∧ Number front code ∧
    Opcode.ofCode? code = some i.opcode ∧
    if i.opcode.popsArguments then back = [] ∧ i.args = []
    else Operands i.opcode.params back i.args

inductive StoresAll : Bytes → List Instruction → Prop where
  | nil : StoresAll [] []
  | cons {front back : Bytes} {i : Instruction} {is : List Instruction}
      (h : Stores front i) (hs : StoresAll back is) : StoresAll (front ++ back) (i :: is)

/-! ## Reading -/

theorem readArg_string (c : Cursor) : readArg .string c =
    (terminated c.remaining >>= fun value c' =>
      .ok ⟨.text value, c'.position - c.position⟩ c') c :=
  rfl

theorem min_stop_remaining (c : Cursor) : min c.stop (c.pos + c.remaining) = c.stop := by
  unfold Cursor.remaining
  omega

theorem describes_text :
    Describes (readArg .string) (Operand .string) where
  accepts := by
    rintro c bs rest a hc hv ⟨units, rfl, hn, rfl⟩
    have hview : c.view = units ++ ([0, 0] ++ rest) := by rw [hv, List.append_assoc]
    have hunits := (Cursor.span_of_view hc hview).1
    have hnull := nullUnit?_of_noNull hc.high hn hc.low hc.order hview
    have hterm : terminated c.remaining c =
        .ok (Text.decode16 units) (c.advance (units ++ [0, 0]).length) := by
      rw [terminated, min_stop_remaining, hnull]
      simp only [hunits, Cursor.advance, List.length_append, List.length_cons, List.length_nil]
      congr 2
      omega
    refine (readArg_string c).trans ((bind_of_ok hterm).trans ?_)
    show EStateM.Result.ok _ _ = EStateM.Result.ok _ _
    congr 3
    simp only [Cursor.position, Cursor.advance]
    omega
  yields := by
    intro c c' a hc h
    rw [readArg_string] at h
    obtain ⟨t, s, hs, h⟩ := ok_of_bind h
    unfold terminated at hs
    rw [min_stop_remaining] at hs
    split at hs
    · cases hs
    · cases hs
    · next j hj =>
      cases hs
      obtain ⟨units, rest, hspan, hn, rfl⟩ := noNull_of_nullUnit? hc.high hc.low hc.order hj
      have hview : c.view = units ++ ([0, 0] ++ rest) := hspan
      have hunits := (Cursor.span_of_view hc hview).1
      have hview' : c.view = (units ++ [0, 0]) ++ rest := by rw [hview, List.append_assoc]
      cases h
      refine ⟨units ++ [0, 0], rest, hview', ⟨units, rfl, hn, ?_⟩, ?_⟩
      · rw [hunits]
        congr 1
        simp only [Cursor.position, List.length_append, List.length_cons, List.length_nil]
        omega
      · simp only [Cursor.advance, List.length_append, List.length_cons, List.length_nil]
        congr 1
        omega

theorem describes_readArg (param : ParamKind) : Describes (readArg param) (Operand param) := by
  have byte : Describes (u8 >>= fun n => Pure.pure (⟨.int n, 1⟩ : Arg))
      fun bs a => ∃ b : UInt8, bs = [b] ∧ a = ⟨.int b.toNat, 1⟩ :=
    (describes_u8.map fun n : Nat => (⟨.int n, 1⟩ : Arg)).congr fun bs a => by
      constructor
      · rintro ⟨n, ⟨b, rfl, rfl⟩, rfl⟩
        exact ⟨b, rfl, rfl⟩
      · rintro ⟨b, rfl, rfl⟩
        exact ⟨_, ⟨b, rfl, rfl⟩, rfl⟩
  -- A field of fixed width behind which nothing is left to do.
  have fixed : ∀ {α : Type} {width : Nat} {read : Read α} {value : Bytes → α} (f : α → Arg),
      Describes read (fun bs x => bs.length = width ∧ x = value bs) →
      Describes (read >>= fun x => Pure.pure (f x))
        fun bs a => bs.length = width ∧ a = f (value bs) := by
    intro α width read value f hr
    refine (hr.map f).congr fun bs a => ?_
    constructor
    · rintro ⟨x, ⟨hl, rfl⟩, rfl⟩
      exact ⟨hl, rfl⟩
    · rintro ⟨hl, rfl⟩
      exact ⟨_, ⟨hl, rfl⟩, rfl⟩
  cases param with
  | byte | register | registerTuple => exact byte
  | word | codeLabel | dataLabel | textLabel =>
    exact fixed (fun n : Nat => (⟨.int n, 2⟩ : Arg)) describes_u16
  | dword => exact fixed (fun n : Nat => (⟨.int n, 4⟩ : Arg)) describes_u32
  | int => exact fixed (fun n => (⟨.int n, 4⟩ : Arg)) describes_i32
  | float => exact fixed (fun x => (⟨.float x, 4⟩ : Arg)) describes_single
  | string => exact describes_text
  | codeLabels =>
    refine (describes_u8.bind fun _ n _ => (describes_u16Array n).map
      fun labels => (⟨.list (labels.map fun (m : Nat) => m), 1 + 2 * n⟩ : Arg)).congr
      fun bs a => ?_
    constructor
    · rintro ⟨front, back, n, rfl, ⟨b, rfl, rfl⟩, ns, ⟨hl, rfl⟩, rfl⟩
      exact ⟨b, back, rfl, hl, by simp [Function.comp_def]⟩
    · rintro ⟨b, words, rfl, hl, rfl⟩
      exact ⟨[b], words, _, rfl, ⟨b, rfl, rfl⟩, _, ⟨hl, rfl⟩, by simp [Function.comp_def]⟩
  | registers =>
    refine (describes_u8.bind fun _ n _ => (describes_bytes n).map
      fun numbers => (⟨.list (numbers.map fun b => (b.toNat : Int)), 1 + n⟩ : Arg)).congr
      fun bs a => ?_
    constructor
    · rintro ⟨front, back, n, rfl, ⟨b, rfl, rfl⟩, ns, ⟨hl, rfl⟩, rfl⟩
      exact ⟨b, ns, rfl, hl, rfl⟩
    · rintro ⟨b, numbers, rfl, hl, rfl⟩
      exact ⟨[b], numbers, _, rfl, ⟨b, rfl, rfl⟩, _, ⟨hl, rfl⟩, rfl⟩

theorem describes_readArgs (params : List ParamKind) :
    Describes (readArgs params) (Operands params) := by
  unfold readArgs
  induction params with
  | nil => exact Describes.pure []
  | cons param params ih =>
    rw [List.mapM_cons]
    refine ((describes_readArg param).bind fun _ a _ => ih.map (a :: ·)).congr fun bs as => ?_
    constructor
    · rintro ⟨front, back, a, rfl, ha, rest, hr, rfl⟩
      exact ⟨front, back, a, rest, rfl, rfl, ha, hr⟩
    · rintro ⟨front, back, a, rest, rfl, rfl, ha, hr⟩
      exact ⟨front, back, a, rfl, ha, rest, hr, rfl⟩

theorem describes_readNumber : Describes readNumber Number := by
  have second : ∀ bs (first : Nat), (∃ b : UInt8, bs = [b] ∧ first = b.toNat) →
      Describes
        (if first = 0xF8 ∨ first = 0xF9 then (first * 256 + ·) <$> u8 else Pure.pure first)
        fun bs code => (¬(first = 0xF8 ∨ first = 0xF9) ∧ bs = [] ∧ code = first) ∨
          ((first = 0xF8 ∨ first = 0xF9) ∧
            ∃ b : UInt8, bs = [b] ∧ code = first * 256 + b.toNat) := by
    intro _ first _
    by_cases h : first = 0xF8 ∨ first = 0xF9
    · rw [if_pos h]
      refine (describes_u8.map (first * 256 + ·)).congr fun bs code => ?_
      constructor
      · rintro ⟨n, ⟨b, rfl, rfl⟩, rfl⟩
        exact Or.inr ⟨h, b, rfl, rfl⟩
      · rintro (⟨hn, -⟩ | ⟨-, b, rfl, rfl⟩)
        · exact absurd h hn
        · exact ⟨_, ⟨b, rfl, rfl⟩, rfl⟩
    · rw [if_neg h]
      refine (Describes.pure first).congr fun bs code => ?_
      constructor
      · exact fun hp => Or.inl ⟨h, hp⟩
      · rintro (⟨-, hp⟩ | ⟨hn, -⟩)
        · exact hp
        · exact absurd hn h
  refine (describes_u8.bind second).congr fun bs code => ?_
  constructor
  · rintro ⟨front, back, n, rfl, ⟨b, rfl, rfl⟩, ⟨hn, rfl, rfl⟩ | ⟨hn, b', rfl, rfl⟩⟩
    · exact Or.inl ⟨b, rfl, hn, rfl⟩
    · exact Or.inr ⟨b, b', rfl, hn, rfl⟩
  · rintro (⟨b, rfl, hn, rfl⟩ | ⟨b, b', rfl, hn, rfl⟩)
    · exact ⟨[b], [], _, rfl, ⟨b, rfl, rfl⟩, Or.inl ⟨hn, rfl, rfl⟩⟩
    · exact ⟨[b], [b'], _, rfl, ⟨b, rfl, rfl⟩, Or.inr ⟨hn, b', rfl, rfl⟩⟩

theorem describes_readOpcode : Describes readOpcode fun bs op =>
    ∃ code, Number bs code ∧ Opcode.ofCode? code = some op := by
  refine (describes_readNumber.bind
    (Q := fun code bs op => bs = [] ∧ Opcode.ofCode? code = some op) ?_).congr fun bs op => ?_
  · intro _ code _
    split
    · next op hop =>
      refine (Describes.pure op).congr fun bs op' => ?_
      constructor
      · rintro ⟨hb, rfl⟩
        exact ⟨hb, hop⟩
      · rintro ⟨hb, h⟩
        rw [hop] at h
        cases h
        exact ⟨hb, rfl⟩
    · next hop =>
      refine (Describes.throw _).congr fun bs op' => ⟨False.elim, ?_⟩
      rintro ⟨-, h⟩
      rw [hop] at h
      cases h
  · constructor
    · rintro ⟨front, back, code, rfl, hn, rfl, hop⟩
      rw [List.append_nil]
      exact ⟨code, hn, hop⟩
    · rintro ⟨code, hn, hop⟩
      exact ⟨bs, [], code, (List.append_nil bs).symm, hn, rfl, hop⟩

theorem describes_readOperands (op : Opcode) : Describes (readOperands op) fun bs as =>
    if op.popsArguments then bs = [] ∧ as = [] else Operands op.params bs as := by
  unfold readOperands
  split
  · exact Describes.pure []
  · exact describes_readArgs op.params

theorem describes_readInstruction : Describes readInstruction Stores := by
  refine (describes_readOpcode.bind fun _ op _ => (describes_readOperands op).map
    fun args => ({ opcode := op, args } : Instruction)).congr fun bs i => ?_
  constructor
  · rintro ⟨front, back, op, rfl, ⟨code, hn, hop⟩, args, ha, rfl⟩
    exact ⟨front, back, code, rfl, hn, hop, ha⟩
  · rintro ⟨front, back, code, rfl, hn, hop, ha⟩
    exact ⟨front, back, i.opcode, rfl, ⟨code, hn, hop⟩, i.args, ha, rfl⟩

end ObjectCode
end QuestArchive
