import QuestArchive.Proofs.Lists
import QuestArchive.Proofs.Script.Numbers
import QuestArchive.Proofs.Script.Scanning
import QuestArchive.Script.Listing

/-!
# Values in a source

Every value that can stand in a source is written as one atom, and this atom is read as the
value.
-/

namespace QuestArchive

theorem mapM_map_ok {α β ε : Type} {f : α → Except ε β} {g : β → α} {l : List β}
    (h : ∀ b ∈ l, f (g b) = .ok b) : (l.map g).mapM f = .ok l := by
  rw [mapM_eq_ok_iff, List.forall₂_map_left_iff, List.forall₂_same]
  exact h

/-- A value that a source can spell: an integer of 32 bits, with or without a sign, a finite
number, a text or a register. -/
inductive Value.Spellable : Value → Prop where
  | int {n : Int} (low : -0x80000000 ≤ n) (high : n ≤ 0xFFFFFFFF) : Spellable (.int n)
  | float {x : Double} (finite : x.isFinite = true) : Spellable (.float x)
  | text (t : Text) : Spellable (.text t)
  | register {n : Int} (low : 0 ≤ n) (high : n ≤ 0xFF) : Spellable (.register (.int n))

/-- A value that is written in one piece: one that a source can spell, or a number that is
infinite or a NaN, which none can. -/
inductive Value.Printable : Value → Prop where
  | spellable {value : Value} (h : value.Spellable) : Printable value
  | endless {x : Double} (h : x.isFinite = false) : Printable (.float x)

theorem Value.Printable.spellable_of_finite {value : Value} (h : value.Printable)
    (hf : ∀ x, value = .float x → x.isFinite = true) : value.Spellable := by
  cases h with
  | spellable h => exact h
  | endless h => exact .float (hf _ rfl)

theorem Value.Spellable.finite {value : Value} (h : value.Spellable) :
    ∀ x, value = .float x → x.isFinite = true := by
  cases h with
  | float hf =>
    intro x hx
    cases hx
    exact hf
  | int low high => exact fun x hx => by cases hx
  | text t => exact fun x hx => by cases hx
  | register low high => exact fun x hx => by cases hx

/-- The three texts that a number is written as which no source can spell. -/
theorem Double.render_of_not_finite {x : Double} (h : x.isFinite = false) :
    x.render ∈ [['n', 'a', 'n'], ['i', 'n', 'f'], ['-', 'i', 'n', 'f']] := by
  unfold Double.render
  by_cases hn : x.isNaN = true
  · rw [if_pos hn]
    exact List.mem_cons_self
  · have hi : x.isInfinite = true := by
      simp only [isFinite, isNaN, isInfinite, decide_eq_true_eq, decide_eq_false_iff_not] at h hn ⊢
      omega
    rw [if_neg hn]
    dsimp only
    rw [if_pos hi]
    cases x.negative
    all_goals decide

theorem Rune.isBlank_of_ascii {r : Rune} (low : 0x20 < r.code) (high : r.code < 0x85) :
    r.isBlank = false := by
  simp only [isBlank, blankRanges, List.any_cons, List.any_nil, Bool.or_false, Bool.or_eq_false_iff,
    Bool.and_eq_false_iff, decide_eq_false_iff_not]
  omega

theorem Rune.bare_of_mark {c : Char} (h : c.isDigit = true ∨ c ∈ ['.', 'e', '+', '-']) :
    (char c).Bare := by
  rcases h with h | h
  · obtain ⟨h1, h2⟩ := Char.isDigit_iff_toNat.1 h
    change 48 ≤ c.toNat at h1
    change c.toNat ≤ 57 at h2
    have other {d : Char} (hd : d.toNat < 48) : char c ≠ char d := by
      intro he
      rw [Rune.char.inj he] at h1
      omega
    refine ⟨isBlank_of_ascii ?_ ?_, other (by decide), other (by decide), other (by decide)⟩
    · show 0x20 < c.toNat
      omega
    · show c.toNat < 0x85
      omega
  · simp only [List.mem_cons, List.not_mem_nil, or_false] at h
    rcases h with rfl | rfl | rfl | rfl
    all_goals exact ⟨by decide, by decide, by decide, by decide⟩

namespace Literal

/-- A text is a sign, if there is one, and something that starts with a digit. -/
structure Signed (t : Text) (negative : Bool) (cs : List Char) : Prop where
  text : t = ((if negative then ['-'] else []) ++ cs).map Rune.char
  first : ∃ c rest, cs = c :: rest ∧ c.isDigit = true
  marks : Marks cs

theorem dropLineFeed_of_bare {t : Text} (h : ∀ r ∈ t, r.Bare) : dropLineFeed t = t := by
  unfold dropLineFeed
  rw [if_neg]
  intro hlast
  have hb := (h _ (List.mem_of_getLast? hlast)).blank
  exact absurd hb (by decide)

theorem parse_eq_bare {t : Text} (hne : t ≠ []) (h : ∀ r ∈ t, r.Bare) : parse t = bare t := by
  obtain ⟨r, rest, rfl⟩ := List.exists_cons_of_ne_nil hne
  unfold parse
  split
  · next heq => cases heq
  · next heq => exact absurd (List.cons.inj heq).1 (h r List.mem_cons_self).quote
  · rfl

namespace Signed

variable {t : Text} {negative : Bool} {cs : List Char}

theorem sign_eq (h : Signed t negative cs) : sign t = (negative, cs.map Rune.char) := by
  obtain ⟨c, rest, rfl, hc⟩ := h.first
  rw [h.text]
  exact sign_append hc

theorem mem (h : Signed t negative cs) :
    ∀ r ∈ t, ∃ c, r = Rune.char c ∧ (c.isDigit = true ∨ c ∈ ['.', 'e', '+', '-']) := by
  intro r hr
  rw [h.text] at hr
  obtain ⟨c, hc, rfl⟩ := List.mem_map.1 hr
  refine ⟨c, rfl, ?_⟩
  rcases List.mem_append.1 hc with hc | hc
  · cases negative with
    | false => cases hc
    | true =>
      rw [List.mem_singleton.1 hc]
      exact Or.inr (by decide)
  · exact h.marks c hc

theorem bare (h : Signed t negative cs) : ∀ r ∈ t, r.Bare := by
  intro r hr
  obtain ⟨c, rfl, hc⟩ := h.mem r hr
  exact Rune.bare_of_mark hc

theorem ne_nil (h : Signed t negative cs) : t ≠ [] := by
  obtain ⟨c, rest, rfl, -⟩ := h.first
  rw [h.text, List.map_append]
  exact List.append_ne_nil_of_right_ne_nil _ (List.cons_ne_nil _ _)

theorem not_mem (h : Signed t negative cs) {c : Char}
    (hc : (c.isDigit || ['.', 'e', '+', '-'].contains c) = false) : Rune.char c ∉ t := by
  intro hm
  obtain ⟨d, hd, hmark⟩ := h.mem _ hm
  obtain ⟨h1, h2⟩ := Bool.or_eq_false_iff.1 hc
  rw [Rune.char.inj hd] at h1 h2
  rcases hmark with hmark | hmark
  · exact absurd hmark (by rw [h1]; decide)
  · exact absurd (List.contains_iff_mem.2 hmark) (by rw [h2]; decide)

theorem register?_eq_none (h : Signed t negative cs) : register? t = none := by
  unfold register?
  split
  · exact absurd List.mem_cons_self (h.not_mem (by decide))
  · exact absurd List.mem_cons_self (h.not_mem (by decide))
  · rfl

theorem hexadecimal?_eq_none (h : Signed t negative cs) : hexadecimal? t = none := by
  unfold hexadecimal?
  rw [h.sign_eq]
  split
  · next _ c rest heq =>
    have hc : Rune.char c ∈ t := by
      rw [h.text, List.map_append, (Prod.mk.inj heq).2]
      exact List.mem_append_right _ (List.mem_cons_of_mem _ List.mem_cons_self)
    rw [if_neg]
    intro hx
    rcases hx with rfl | rfl
    · exact h.not_mem (by decide) hc
    · exact h.not_mem (by decide) hc
  · rfl

theorem parse_int (h : Signed t negative cs) (hd : Digits cs)
    (hl : cs.length ≤ Value.maxDigits) :
    parse t = .ok (.int (signed negative (Nat.ofDigitChars 10 cs 0))) := by
  obtain ⟨c, rest, hcs, -⟩ := h.first
  have hne : cs ≠ [] := by
    rw [hcs]
    exact List.cons_ne_nil _ _
  rw [parse_eq_bare h.ne_nil h.bare, Literal.bare]
  simp only [dropLineFeed_of_bare h.bare, h.register?_eq_none, h.hexadecimal?_eq_none, h.sign_eq,
    digits?_of_digits hd hne]
  rw [natural, List.length_map, if_neg (Nat.not_lt.2 hl), ofDigits_eq]
  rfl

theorem parse_float (h : Signed t negative cs) (hp : Pointed cs) {x : Double}
    (hn : number? t = some x) : parse t = .ok (.float x) := by
  have hnone : digits? Rune.digit? (cs.map Rune.char) = none := by
    obtain ⟨w, mark, rest, rfl, hw, -, hmark, -⟩ := hp.split
    have hm : (Rune.char mark).digit? = none := by
      simp only [List.mem_cons, List.not_mem_nil, or_false] at hmark
      rcases hmark with rfl | rfl
      · decide
      · decide
    rw [digits?, if_neg (by simp), List.map_append, List.map_cons, List.mapM_append,
      List.mapM_cons, hm]
    cases List.mapM Rune.digit? (w.map Rune.char) <;> rfl
  rw [parse_eq_bare h.ne_nil h.bare, Literal.bare]
  simp only [dropLineFeed_of_bare h.bare, h.register?_eq_none, h.hexadecimal?_eq_none, h.sign_eq,
    hnone, hn]

end Signed

theorem signed_decimal (n : Int) :
    Signed ((Numeral.decimal n).map Rune.char) (n < 0) (Nat.toDigits 10 n.natAbs) := by
  have hd := digits_toDigits n.natAbs
  constructor
  · unfold Numeral.decimal
    by_cases hn : n < 0
    · rw [if_pos hn, if_pos (decide_eq_true hn)]
      rfl
    · rw [if_neg hn, if_neg (by simpa using hn)]
      rfl
  · have hne := Nat.toDigits_ne_nil (n := n.natAbs) (b := 10)
    obtain ⟨c, rest, hc⟩ := List.exists_cons_of_ne_nil hne
    exact ⟨c, rest, hc, hd c (by rw [hc]; exact List.mem_cons_self)⟩
  · exact hd.marks

theorem signed_render {x : Double} (hx : x.isFinite = true) :
    ∃ cs, Signed (x.render.map Rune.char) x.negative cs ∧ Pointed cs := by
  obtain ⟨d, hr, -, -⟩ := Double.render_eq hx
  have hp := pointed_layout d
  refine ⟨d.layout, ⟨congrArg _ hr, ?_, ?_⟩, hp⟩
  · obtain ⟨w, mark, rest, heq, hw, hne, -, -⟩ := hp.split
    obtain ⟨c, w, rfl⟩ := List.exists_cons_of_ne_nil hne
    exact ⟨c, w ++ mark :: rest, heq, hw c List.mem_cons_self⟩
  · obtain ⟨w, mark, rest, heq, hw, -, hmark, hrest⟩ := hp.split
    have hmark' : mark ∈ ['.', 'e', '+', '-'] := List.mem_append_left ['+', '-'] hmark
    rw [heq]
    exact hw.marks.append (Marks.cons hmark' hrest)

/-- The digits of an integer of 32 bits are not too many to be read. -/
theorem length_toDigits_le {n : Int} (low : -0x80000000 ≤ n) (high : n ≤ 0xFFFFFFFF) :
    (Nat.toDigits 10 n.natAbs).length ≤ Value.maxDigits := by
  have h : (Nat.toDigits 10 n.natAbs).length ≤ 10 :=
    (Nat.length_toDigits_le_iff (by decide) (by decide)).2 (by omega)
  exact h.trans (by decide)

theorem parse_decimal {n : Int} (low : -0x80000000 ≤ n) (high : n ≤ 0xFFFFFFFF) :
    parse ((Numeral.decimal n).map Rune.char) = .ok (.int n) := by
  have hsign : signed (n < 0) n.natAbs = n := by
    unfold signed
    by_cases hn : n < 0
    · rw [if_pos (decide_eq_true hn)]
      omega
    · rw [if_neg (by simpa using hn)]
      omega
  rw [(signed_decimal n).parse_int (digits_toDigits _) (length_toDigits_le low high),
    Nat.ofDigitChars_ten_toDigits, hsign]

theorem bare_register {n : Int} : ∀ r ∈ (Value.register (.int n)).spell, r.Bare := by
  intro r hr
  rcases List.mem_cons.1 hr with rfl | hr
  · exact ⟨by decide, by decide, by decide, by decide⟩
  · exact (signed_decimal n).bare r hr

theorem parse_register {n : Int} (low : 0 ≤ n) (high : n ≤ 0xFF) :
    parse (Value.register (.int n)).spell = .ok (.register (.int n)) := by
  have hplain : (Value.register (.int n)).spell =
      .char 'r' :: (Nat.toDigits 10 n.natAbs).map Rune.char := by
    show _ :: (Numeral.decimal n).map Rune.char = _
    rw [Numeral.decimal, if_neg (by omega)]
  have hreg : register? (.char 'r' :: (Nat.toDigits 10 n.natAbs).map Rune.char) =
      some ((Nat.toDigits 10 n.natAbs).map fun c => c.toNat - 48) :=
    digits?_of_digits (digits_toDigits _) Nat.toDigits_ne_nil
  have hb := bare_register (n := n)
  rw [hplain] at hb ⊢
  rw [parse_eq_bare (List.cons_ne_nil _ _) hb, bare]
  simp only [dropLineFeed_of_bare hb, hreg]
  rw [natural, List.length_map, if_neg (Nat.not_lt.2 (length_toDigits_le (by omega) (by omega))),
    ofDigits_eq, Nat.ofDigitChars_ten_toDigits]
  show Except.ok (Value.register (.int (n.natAbs : Nat))) = _
  rw [Int.natAbs_of_nonneg low]

end Literal

namespace Value

/-- A value is read as it is written. -/
theorem parse_spell {value : Value} (h : value.Spellable) :
    Literal.parse value.spell = .ok value := by
  cases h with
  | int low high => exact Literal.parse_decimal low high
  | float finite =>
    obtain ⟨cs, hs, hp⟩ := Literal.signed_render finite
    exact hs.parse_float hp (Literal.number?_render finite)
  | text t =>
    show Literal.parse (.char '"' :: _) = _
    unfold Literal.parse
    simp only [Text.Quoted.decode_encode]
  | register low high => exact Literal.parse_register low high

/-- The texts of numbers that no source can spell are in one piece, and no values. -/
theorem endless_text : ∀ cs ∈ [['n', 'a', 'n'], ['i', 'n', 'f'], ['-', 'i', 'n', 'f']],
    cs.map Rune.char ≠ [] ∧
      (∀ r ∈ cs.map Rune.char, r.isBlank = false ∧ r ≠ .char '"' ∧ r ≠ .char ',' ∧ r ≠ .char '/') ∧
      (Literal.parse (cs.map Rune.char)).toOption = none := by
  decide

theorem parse_endless {x : Double} (h : x.isFinite = false) :
    ∃ fault, Literal.parse (Value.float x).spell = .error fault := by
  obtain ⟨-, -, hparse⟩ := endless_text x.render (Double.render_of_not_finite h)
  change (Literal.parse (Value.float x).spell).toOption = none at hparse
  cases hp : Literal.parse (Value.float x).spell with
  | error fault => exact ⟨fault, rfl⟩
  | ok value =>
    rw [hp] at hparse
    cases hparse

/-- A value that is no text is written in characters that neither separate nor quote. -/
theorem bare_spell {value : Value} (h : value.Printable) (hv : ∀ t, value ≠ .text t) :
    value.spell ≠ [] ∧ ∀ r ∈ value.spell, r.Bare ∧ ∃ c, r = .char c := by
  have chars : ∀ {cs : List Char} {r : Rune}, r ∈ cs.map Rune.char → ∃ c, r = .char c := by
    intro cs r hr
    obtain ⟨c, -, rfl⟩ := List.mem_map.1 hr
    exact ⟨c, rfl⟩
  cases h with
  | @endless x h =>
    obtain ⟨hne, hbare, -⟩ := endless_text x.render (Double.render_of_not_finite h)
    refine ⟨hne, fun r hr => ⟨?_, chars hr⟩⟩
    obtain ⟨hblank, hquote, hcomma, hslash⟩ := hbare r hr
    exact ⟨hblank, hquote, hcomma, hslash⟩
  | spellable h =>
    cases h with
    | @int n low high =>
      have hs := Literal.signed_decimal n
      exact ⟨hs.ne_nil, fun r hr => ⟨hs.bare r hr, chars hr⟩⟩
    | float finite =>
      obtain ⟨cs, hs, -⟩ := Literal.signed_render finite
      exact ⟨hs.ne_nil, fun r hr => ⟨hs.bare r hr, chars hr⟩⟩
    | text t => exact absurd rfl (hv t)
    | register low high =>
      refine ⟨List.cons_ne_nil _ _, fun r hr => ⟨Literal.bare_register r hr, ?_⟩⟩
      rcases List.mem_cons.1 hr with rfl | hr
      · exact ⟨'r', rfl⟩
      · exact chars hr

theorem atom_spell {value : Value} (h : value.Printable) : Script.Atom value.spell := by
  by_cases hv : ∃ t, value = .text t
  · obtain ⟨t, rfl⟩ := hv
    exact .quoted t
  · obtain ⟨hne, hbare⟩ := bare_spell h (not_exists.1 hv)
    exact .bare hne fun r hr => (hbare r hr).1

theorem mapM_parse_spell {values : List Value} (h : ∀ value ∈ values, value.Spellable) :
    (values.map spell).mapM Literal.parse = .ok values :=
  mapM_map_ok fun value hv => parse_spell (h value hv)

end Value
end QuestArchive
