import QuestArchive.Proofs.Script.Table
import QuestArchive.Proofs.Script.Values

/-!
# Mnemonics

The mnemonics of the table are words without capitals that differ from each other.  So an
operation is found by its mnemonic.
-/

namespace QuestArchive

theorem Rune.isDigit_of_ascii {r : Rune} (low : 0x39 < r.code) (high : r.code < 0x660) :
    r.isDigit = false := by
  have all : ∀ z ∈ zeroDigits, z = 0x30 ∨ 0x660 ≤ z := by decide
  have hn : r.digit? = none := by
    rw [digit?, Option.map_eq_none_iff, List.find?_eq_none]
    intro z hz
    simp only [Bool.and_eq_true, decide_eq_true_eq]
    rcases all z hz with h | h <;> omega
  rw [isDigit, hn]
  rfl

namespace Opcode

def isLetter (c : Char) : Bool :=
  0x20 < c.toNat && c.toNat < 0x7F && !c.isUpper && c ≠ '"' && c ≠ ',' && c ≠ '/'

def isWord (l : List Char) : Bool := l.head?.any Char.isLower && l.all isLetter

/-- A number for each mnemonic; the numbers are compared sooner than the mnemonics. -/
def wordKey (l : List Char) : Nat := l.foldl (fun n c => n * 128 + c.toNat) 1

def unknownStem : List Char := ['u', 'n', 'k', 'n', 'o', 'w', 'n', '_']

def unknownLetters (code : Nat) : List Char :=
  unknownStem ++
    List.replicate ((if code < 0x100 then 2 else 4) - (Nat.toDigits 16 code).length) '0' ++
    Nat.toDigits 16 code

def hexValue (l : List Char) : Nat :=
  l.foldl (fun n c => n * 16 + (Rune.char c).hexDigit?.getD 0) 0

theorem letters_nil : ([] : List Opcode).map (·.mnemonic) = [].map String.ofList := rfl

theorem letters_cons {code : Int} {mnemonic : String} {params : List ParamKind}
    {stack : Option StackUse} {ops : List Opcode} {l : List Char} {ls : List (List Char)}
    (h : mnemonic = String.ofList l) (hs : ops.map (·.mnemonic) = ls.map String.ofList) :
    (⟨code, mnemonic, params, stack⟩ :: ops).map (·.mnemonic) = (l :: ls).map String.ofList := by
  rw [List.map_cons, List.map_cons, h, hs]

theorem exists_letters : ∃ ls : List (List Char), known.map (·.mnemonic) = ls.map String.ofList ∧
    (∀ l ∈ ls, isWord l = true ∧ l.take 8 ≠ unknownStem ∧ Script.byte? (l.map .char) = none) ∧
    (ls.map wordKey).Nodup := by
  apply Exists.intro
  apply And.intro
  · unfold known
    dsimp only [plain, pushes, pops]
    repeat apply letters_cons rfl
    exact letters_nil
  · constructor
    · decide +kernel
    · decide +kernel

theorem mnemonic_unknown (code : Nat) :
    (unknown code).mnemonic = String.ofList (unknownLetters code) := by
  have hstem : "unknown_".toList = unknownStem := String.toList_ofList
  unfold unknown unknownLetters
  simp only [hstem]

theorem isLetter_digitChar : ∀ k < 16, isLetter (Nat.digitChar k) = true := by
  decide

theorem hexValue_digitChar (l : List Char) {k : Nat} (h : k < 16) :
    hexValue (l ++ [Nat.digitChar k]) = hexValue l * 16 + k := by
  rw [hexValue, List.foldl_append, List.foldl_cons, List.foldl_nil,
    Text.Quoted.hexDigit?_digitChar k h]
  rfl

theorem all_isLetter_toDigits (n : Nat) : (Nat.toDigits 16 n).all isLetter = true := by
  induction n using Nat.strong_induction_on with
  | _ n ih =>
    by_cases hn : n < 16
    · rw [Nat.toDigits_of_lt_base hn, List.all_cons, isLetter_digitChar n hn]
      rfl
    · rw [Nat.toDigits_of_base_le (by decide) (Nat.le_of_not_lt hn), List.all_append,
        ih (n / 16) (by omega), List.all_cons, isLetter_digitChar _ (Nat.mod_lt _ (by decide))]
      rfl

theorem hexValue_toDigits (n : Nat) : hexValue (Nat.toDigits 16 n) = n := by
  induction n using Nat.strong_induction_on with
  | _ n ih =>
    by_cases hn : n < 16
    · have h := hexValue_digitChar [] hn
      rw [Nat.toDigits_of_lt_base hn]
      exact h.trans (Nat.zero_add n)
    · rw [Nat.toDigits_of_base_le (by decide) (Nat.le_of_not_lt hn),
        hexValue_digitChar _ (Nat.mod_lt _ (by decide)), ih (n / 16) (by omega)]
      omega

theorem hexValue_zeros (k : Nat) (l : List Char) :
    hexValue (List.replicate k '0' ++ l) = hexValue l := by
  induction k with
  | zero => rfl
  | succ k ih => exact ih

theorem isWord_unknown (code : Nat) : isWord (unknownLetters code) = true := by
  have hz (k : Nat) : (List.replicate k '0').all isLetter = true := by
    rw [List.all_eq_true]
    intro c hc
    rw [List.eq_of_mem_replicate hc]
    decide
  have hstem : unknownStem.all isLetter = true := by decide
  rw [isWord, unknownLetters, List.all_append, List.all_append, hstem, hz, all_isLetter_toDigits]
  rfl

theorem unknownLetters_injective {code code' : Nat}
    (h : unknownLetters code = unknownLetters code') : code = code' := by
  have hv (n : Nat) : hexValue ((unknownLetters n).drop unknownStem.length) = n := by
    rw [unknownLetters, List.append_assoc, List.drop_left, hexValue_zeros, hexValue_toDigits]
  rw [← hv code, ← hv code', h]

theorem exists_known_word {op : Opcode} (h : op ∈ known) :
    ∃ l, op.mnemonic = String.ofList l ∧ isWord l = true ∧ l.take 8 ≠ unknownStem ∧
      Script.byte? (l.map .char) = none := by
  obtain ⟨ls, hls, hw, -⟩ := exists_letters
  have hm : op.mnemonic ∈ ls.map String.ofList := by
    rw [← hls]
    exact List.mem_map.2 ⟨op, h, rfl⟩
  obtain ⟨l, hl, heq⟩ := List.mem_map.1 hm
  exact ⟨l, heq.symm, hw l hl⟩

theorem exists_word {op : Opcode} (h : op ∈ table) :
    ∃ l, op.mnemonic = String.ofList l ∧ isWord l = true := by
  rcases table_cases h with h | ⟨code, -, -, rfl⟩
  · obtain ⟨l, hl, hw, -⟩ := exists_known_word h
    exact ⟨l, hl, hw⟩
  · exact ⟨_, mnemonic_unknown code, isWord_unknown code⟩

theorem nodup_mnemonics : (known.map (·.mnemonic)).Nodup := by
  obtain ⟨ls, hls, -, hn⟩ := exists_letters
  rw [hls]
  refine (List.Nodup.of_map wordKey hn).map ?_
  intro a b hab
  exact String.ofList_injective hab

theorem mnemonic_ne_unknown {op : Opcode} (h : op ∈ known) (code : Nat) :
    op.mnemonic ≠ (unknown code).mnemonic := by
  obtain ⟨l, hl, -, hstem, -⟩ := exists_known_word h
  intro hu
  rw [mnemonic_unknown, hl] at hu
  apply hstem
  rw [String.ofList_injective hu, unknownLetters, List.append_assoc]
  exact List.take_left' rfl

theorem eq_of_mnemonic_eq {op op' : Opcode} (h : op ∈ table) (h' : op' ∈ table)
    (hm : op.mnemonic = op'.mnemonic) : op = op' := by
  rcases table_cases h with h | ⟨code, -, -, rfl⟩
  · rcases table_cases h' with h' | ⟨code', -, -, rfl⟩
    · exact List.inj_on_of_nodup_map nodup_mnemonics h h' hm
    · exact absurd hm (mnemonic_ne_unknown h code')
  · rcases table_cases h' with h' | ⟨code', -, -, rfl⟩
    · exact absurd hm.symm (mnemonic_ne_unknown h' code)
    · rw [mnemonic_unknown, mnemonic_unknown] at hm
      rw [unknownLetters_injective (String.ofList_injective hm)]

/-! ## Words in a source -/

theorem lower_of_isLetter {c : Char} (h : isLetter c = true) :
    (Rune.char c).lower = .char c := by
  simp only [isLetter, Bool.and_eq_true, decide_eq_true_eq, Bool.not_eq_true'] at h
  obtain ⟨⟨⟨⟨⟨-, hlt⟩, hup⟩, -⟩, -⟩, -⟩ := h
  have hk : c ≠ '\u212A' := by
    rintro rfl
    exact absurd hlt (by decide)
  have hc : c.toLower = c := by
    unfold Char.toLower
    exact dif_neg (of_decide_eq_false hup)
  rw [Rune.lower, if_neg hk, hc]

theorem bare_of_isLetter {c : Char} (h : isLetter c = true) : (Rune.char c).Bare := by
  simp only [isLetter, Bool.and_eq_true, decide_eq_true_eq] at h
  obtain ⟨⟨⟨⟨⟨hgt, hlt⟩, -⟩, hq⟩, hc⟩, hs⟩ := h
  have other {d : Char} (hd : c ≠ d) : Rune.char c ≠ .char d := fun he => hd (Rune.char.inj he)
  refine ⟨Rune.isBlank_of_ascii hgt ?_, other hq, other hc, other hs⟩
  show c.toNat < 0x85
  omega

structure Spelled (t : Text) : Prop where
  bare : ∀ r ∈ t, r.Bare
  first : ∃ r rest, t = r :: rest ∧ r.isDigit = false ∧ r ≠ .char '.'

theorem isDigit_of_isLower {c : Char} (h : c.isLower = true) :
    (Rune.char c).isDigit = false ∧ Rune.char c ≠ .char '.' := by
  have hc : 97 ≤ c.toNat ∧ c.toNat ≤ 122 := by
    obtain ⟨h1, h2⟩ := (Bool.and_eq_true _ _).mp h
    exact ⟨UInt32.le_iff_toNat_le.1 (of_decide_eq_true h1),
      UInt32.le_iff_toNat_le.1 (of_decide_eq_true h2)⟩
  constructor
  · apply Rune.isDigit_of_ascii
    · show 0x39 < c.toNat
      omega
    · show c.toNat < 0x660
      omega
  · intro hp
    rw [Rune.char.inj hp] at hc
    exact absurd hc (by decide)

theorem spelled_mnemonic {op : Opcode} (h : op ∈ table) : Spelled (Text.ofString op.mnemonic) := by
  obtain ⟨l, hl, hw⟩ := exists_word h
  obtain ⟨hfirst, hall⟩ := (Bool.and_eq_true _ _).mp hw
  rw [hl, Text.ofString, String.toList_ofList]
  constructor
  · intro r hr
    obtain ⟨c, hc, rfl⟩ := List.mem_map.1 hr
    exact bare_of_isLetter (List.all_eq_true.1 hall c hc)
  · cases l with
    | nil => cases hfirst
    | cons c l => exact ⟨.char c, l.map Rune.char, rfl, isDigit_of_isLower hfirst⟩

/-- No mnemonic can be taken for a byte. -/
theorem byte?_mnemonic {op : Opcode} (h : op ∈ table) :
    Script.byte? (Text.ofString op.mnemonic) = none := by
  rcases table_cases h with h | ⟨code, -, -, rfl⟩
  · obtain ⟨l, hl, -, -, hbyte⟩ := exists_known_word h
    rw [hl, Text.ofString, String.toList_ofList]
    exact hbyte
  · have hu : (Rune.char 'u').hexDigit? = none := by decide
    rw [mnemonic_unknown, Text.ofString, String.toList_ofList, unknownLetters, unknownStem]
    simp [Script.byte?, Literal.digits?, hu]

theorem ofMnemonic?_mnemonic {op : Opcode} (h : op ∈ table) :
    ofMnemonic? (Text.ofString op.mnemonic) = some op := by
  have hlower : (Text.ofString op.mnemonic).lower.toString = op.mnemonic := by
    obtain ⟨l, hl, hw⟩ := exists_word h
    have hall := ((Bool.and_eq_true _ _).mp hw).2
    have hmap : (Text.ofString op.mnemonic).lower = Text.ofString op.mnemonic := by
      rw [hl, Text.ofString, String.toList_ofList, Text.lower, List.map_map]
      apply List.map_congr_left
      intro c hc
      exact lower_of_isLetter (List.all_eq_true.1 hall c hc)
    rw [hmap, Text.toString_ofString]
  unfold ofMnemonic?
  rw [hlower]
  cases hf : table.find? fun op' => op'.mnemonic = op.mnemonic with
  | none =>
    exact absurd (decide_eq_true rfl) (List.find?_eq_none.1 hf op h)
  | some op' =>
    have hm : op'.mnemonic = op.mnemonic := by
      simpa using List.find?_some hf
    rw [eq_of_mnemonic_eq (List.mem_of_find?_eq_some hf) h hm]

end Opcode
end QuestArchive
