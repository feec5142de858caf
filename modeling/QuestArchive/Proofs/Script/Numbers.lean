import QuestArchive.Proofs.Number.Decimal
import QuestArchive.Script.Literal

/-!
# Numbers in a source

The digits of a number are read back with their value, whichever of its forms a decimal is
laid out in.  So a finite number is read as it is written.
-/

namespace QuestArchive

def Digits (cs : List Char) : Prop := ∀ c ∈ cs, c.isDigit = true

theorem digits_toDigits (n : Nat) : Digits (Nat.toDigits 10 n) :=
  fun _ hc => Nat.isDigit_of_mem_toDigits (by decide) (by decide) hc

theorem Digits.append {cs ds : List Char} (hc : Digits cs) (hd : Digits ds) :
    Digits (cs ++ ds) := by
  intro c h
  rcases List.mem_append.1 h with h | h
  · exact hc c h
  · exact hd c h

theorem digits_zeros (n : Nat) : Digits (List.replicate n '0') := by
  intro c hc
  rw [List.eq_of_mem_replicate hc]
  rfl

namespace Rune

theorem digit?_of_isDigit {c : Char} (h : c.isDigit = true) :
    (char c).digit? = some (c.toNat - 48) := by
  obtain ⟨h1, h2⟩ := Char.isDigit_iff_toNat.1 h
  change 48 ≤ c.toNat at h1
  change c.toNat ≤ 57 at h2
  have hf : zeroDigits.find? (fun z => z ≤ (char c).code && (char c).code < z + 10) =
      some 0x30 := by
    apply List.find?_cons_of_pos
    show (decide (48 ≤ c.toNat) && decide (c.toNat < 48 + 10)) = true
    rw [decide_eq_true h1, decide_eq_true (by omega)]
    rfl
  rw [digit?, hf]
  rfl

theorem isDigit_of_isDigit {c : Char} (h : c.isDigit = true) : (char c).isDigit = true := by
  rw [isDigit, digit?_of_isDigit h]
  rfl

end Rune

namespace Literal

theorem mapM_digit? {cs : List Char} (h : Digits cs) :
    (cs.map Rune.char).mapM Rune.digit? = some (cs.map fun c => c.toNat - 48) := by
  induction cs with
  | nil => rfl
  | cons c cs ih =>
    rw [List.map_cons, List.mapM_cons, Rune.digit?_of_isDigit (h c List.mem_cons_self),
      ih fun d hd => h d (List.mem_cons_of_mem c hd)]
    rfl

theorem digits?_of_digits {cs : List Char} (h : Digits cs) (hne : cs ≠ []) :
    digits? Rune.digit? (cs.map Rune.char) = some (cs.map fun c => c.toNat - 48) := by
  rw [digits?, if_neg (by simpa using hne), mapM_digit? h]

theorem ofDigits_eq (cs : List Char) :
    ofDigits 10 (cs.map fun c => c.toNat - 48) = Nat.ofDigitChars 10 cs 0 := by
  rw [ofDigits, Nat.ofDigitChars_eq_foldl, List.foldl_map]
  simp only [Nat.mul_comm]
  rfl

theorem takeWhile_digits {cs : List Char} (h : Digits cs) (rest : Text) :
    (cs.map Rune.char ++ rest).takeWhile Rune.isDigit =
      cs.map Rune.char ++ rest.takeWhile Rune.isDigit := by
  apply List.takeWhile_append_of_pos
  intro r hr
  obtain ⟨c, hc, rfl⟩ := List.mem_map.1 hr
  exact Rune.isDigit_of_isDigit (h c hc)

theorem dropWhile_digits {cs : List Char} (h : Digits cs) (rest : Text) :
    (cs.map Rune.char ++ rest).dropWhile Rune.isDigit = rest.dropWhile Rune.isDigit := by
  apply List.dropWhile_append_of_pos
  intro r hr
  obtain ⟨c, hc, rfl⟩ := List.mem_map.1 hr
  exact Rune.isDigit_of_isDigit (h c hc)

theorem number?_point {t x : Text} {negative : Bool} {w f : List Char} {e : Int}
    (hs : sign t = (negative, w.map Rune.char ++ .char '.' :: (f.map Rune.char ++ x)))
    (hw : Digits w) (hf : Digits f) (hne : w ≠ []) (hx : x.takeWhile Rune.isDigit = [])
    (he : exponent? x = some e) :
    number? t =
      some (Double.ofDecimal negative (Nat.ofDigitChars 10 (w ++ f) 0) (e - f.length)) := by
  have hpoint : Rune.isDigit (.char '.') = false := by decide
  have hx' : x.dropWhile Rune.isDigit = x := by
    have h := List.takeWhile_append_dropWhile (p := Rune.isDigit) (l := x)
    rwa [hx] at h
  have htake : (w.map Rune.char ++ .char '.' :: (f.map Rune.char ++ x)).takeWhile Rune.isDigit =
      w.map Rune.char := by
    rw [takeWhile_digits hw, List.takeWhile_cons_of_neg (by rw [hpoint]; decide), List.append_nil]
  have hdrop : (w.map Rune.char ++ .char '.' :: (f.map Rune.char ++ x)).dropWhile Rune.isDigit =
      .char '.' :: (f.map Rune.char ++ x) := by
    rw [dropWhile_digits hw, List.dropWhile_cons_of_neg (by rw [hpoint]; decide)]
  have hfrac : (f.map Rune.char ++ x).takeWhile Rune.isDigit = f.map Rune.char := by
    rw [takeWhile_digits hf, hx, List.append_nil]
  have hrest : (f.map Rune.char ++ x).dropWhile Rune.isDigit = x := by
    rw [dropWhile_digits hf, hx']
  have hwe : (w.map Rune.char).isEmpty = false := by
    cases w with
    | nil => exact absurd rfl hne
    | cons c w => rfl
  have hm : (w.map Rune.char ++ f.map Rune.char).mapM Rune.digit? =
      some ((w ++ f).map fun c => c.toNat - 48) := by
    rw [← List.map_append]
    exact mapM_digit? (hw.append hf)
  unfold number?
  rw [hs]
  simp only [htake, hdrop, hfrac, hrest, hwe, he, hm, Bool.false_and, Bool.false_eq_true, if_false,
    Option.bind_eq_bind, Option.bind_some, ofDigits_eq, List.length_map]
  rfl

theorem number?_mark {t x : Text} {negative : Bool} {w : List Char} {e : Int} {mark : Rune}
    (hs : sign t = (negative, w.map Rune.char ++ mark :: x)) (hw : Digits w) (hne : w ≠ [])
    (hmark : isExponentMark mark = true) (he : exponent? (mark :: x) = some e) :
    number? t = some (Double.ofDecimal negative (Nat.ofDigitChars 10 w 0) e) := by
  have hdigit : mark.isDigit = false := by
    rcases Bool.or_eq_true _ _ ▸ hmark with h | h
    · rw [of_decide_eq_true h]
      decide
    · rw [of_decide_eq_true h]
      decide
  have hpoint : mark ≠ .char '.' := by
    intro h
    rw [h] at hmark
    exact absurd hmark (by decide)
  have htake : (w.map Rune.char ++ mark :: x).takeWhile Rune.isDigit = w.map Rune.char := by
    rw [takeWhile_digits hw, List.takeWhile_cons_of_neg (by rw [hdigit]; decide), List.append_nil]
  have hdrop : (w.map Rune.char ++ mark :: x).dropWhile Rune.isDigit = mark :: x := by
    rw [dropWhile_digits hw, List.dropWhile_cons_of_neg (by rw [hdigit]; decide)]
  have hwe : (w.map Rune.char).isEmpty = false := by
    cases w with
    | nil => exact absurd rfl hne
    | cons c w => rfl
  unfold number?
  rw [hs]
  simp only [htake, hdrop, hwe, he, mapM_digit? hw, Bool.false_eq_true, if_false, List.append_nil,
    Option.bind_eq_bind, Option.bind_some, ofDigits_eq, List.length_nil]
  show some (Double.ofDecimal _ _ (e - 0)) = _
  rw [Int.sub_zero]

theorem exponent?_signed {ds : List Char} (negative : Bool) (h : Digits ds) (hne : ds ≠ []) :
    exponent? (.char 'e' :: .char (if negative then '-' else '+') :: ds.map Rune.char) =
      some (signed negative (Nat.ofDigitChars 10 ds 0)) := by
  have hd := digits?_of_digits h hne
  cases negative with
  | false =>
    show (digits? Rune.digit? (ds.map Rune.char)).map _ = _
    rw [hd, Option.map_some, ofDigits_eq]
  | true =>
    show (digits? Rune.digit? (ds.map Rune.char)).map _ = _
    rw [hd, Option.map_some, ofDigits_eq]

section

variable {t : Text} {negative : Bool} {ds : List Char}

theorem number?_below {n : Nat} (hds : Digits ds)
    (hs : sign t =
      (negative, ('0' :: '.' :: (List.replicate n '0' ++ ds)).map Rune.char)) :
    number? t =
      some (Double.ofDecimal negative (Nat.ofDigitChars 10 ds 0) (-(n + ds.length : Nat))) := by
  have hn := number?_point (w := ['0']) (f := List.replicate n '0' ++ ds) (x := []) (e := 0)
    (by rw [hs, List.append_nil]; rfl) (digits_zeros 1) ((digits_zeros n).append hds)
    (List.cons_ne_nil _ _) rfl rfl
  rw [hn, List.length_append, List.length_replicate, Int.zero_sub, List.singleton_append,
    Nat.ofDigitChars_cons, Nat.ofDigitChars_append, Nat.ofDigitChars_replicate_zero]
  show some (Double.ofDecimal _ (Nat.ofDigitChars 10 ds (10 ^ n * 0)) _) = _
  rw [Nat.mul_zero]

theorem number?_whole {n : Nat} (hds : Digits ds) (hne : ds ≠ [])
    (hs : sign t =
      (negative, (ds ++ List.replicate n '0' ++ ['.', '0']).map Rune.char)) :
    number? t =
      some (Double.ofDecimal negative (10 * (10 ^ n * Nat.ofDigitChars 10 ds 0)) (-1)) := by
  have hn := number?_point (w := ds ++ List.replicate n '0') (f := ['0']) (x := []) (e := 0)
    (by rw [hs, List.map_append]; rfl) (hds.append (digits_zeros n)) (digits_zeros 1)
    (List.append_ne_nil_of_left_ne_nil hne _) rfl rfl
  rw [hn, Nat.ofDigitChars_append, Nat.ofDigitChars_append, Nat.ofDigitChars_replicate_zero]
  rfl

theorem number?_between {n : Nat} (hds : Digits ds) (hn : 0 < n) (hlt : n < ds.length)
    (hs : sign t = (negative, (ds.take n ++ '.' :: ds.drop n).map Rune.char)) :
    number? t =
      some (Double.ofDecimal negative (Nat.ofDigitChars 10 ds 0) (-(ds.length - n : Nat))) := by
  have hne : ds.take n ≠ [] := by
    intro h
    have hl := congrArg List.length h
    rw [List.length_take, List.length_nil] at hl
    omega
  have hn := number?_point (w := ds.take n) (f := ds.drop n) (x := []) (e := 0)
    (by rw [hs, List.map_append, List.append_nil]; rfl)
    (fun c hc => hds c (List.mem_of_mem_take hc)) (fun c hc => hds c (List.mem_of_mem_drop hc))
    hne rfl rfl
  rw [hn, List.take_append_drop, List.length_drop, Int.zero_sub]

theorem number?_single {below : Bool} {es : List Char} {c : Char} (hc : Digits [c])
    (hes : Digits es) (hne : es ≠ [])
    (hs : sign t = (negative, (c :: 'e' :: (if below then '-' else '+') :: es).map Rune.char)) :
    number? t = some (Double.ofDecimal negative (Nat.ofDigitChars 10 [c] 0)
      (signed below (Nat.ofDigitChars 10 es 0))) :=
  number?_mark (w := [c]) hs hc (List.cons_ne_nil _ _) rfl (exponent?_signed below hes hne)

theorem number?_scientific {below : Bool} {es : List Char} {c : Char} (hds : Digits (c :: ds))
    (hes : Digits es) (hne : es ≠ [])
    (hs : sign t =
      (negative, (c :: '.' :: (ds ++ 'e' :: (if below then '-' else '+') :: es)).map Rune.char)) :
    number? t = some (Double.ofDecimal negative (Nat.ofDigitChars 10 (c :: ds) 0)
      (signed below (Nat.ofDigitChars 10 es 0) - ds.length)) := by
  have hc : Digits [c] := by
    intro x hx
    rw [List.mem_singleton.1 hx]
    exact hds c List.mem_cons_self
  exact number?_point (w := [c]) (f := ds)
    (by rw [hs, List.map_cons, List.map_cons, List.map_append]; rfl) hc
    (fun x hx => hds x (List.mem_cons_of_mem c hx)) (List.cons_ne_nil _ _) rfl
    (exponent?_signed below hes hne)

end

theorem layout_exponent (lead : Int) :
    ∃ es, Digits es ∧ es ≠ [] ∧ signed (decide (lead < 0)) (Nat.ofDigitChars 10 es 0) = lead ∧
      es = (if (Nat.toDigits 10 lead.natAbs).length < 2 then
        '0' :: Nat.toDigits 10 lead.natAbs else Nat.toDigits 10 lead.natAbs) := by
  have hsign : signed (decide (lead < 0)) lead.natAbs = lead := by
    unfold signed
    by_cases h : lead < 0
    · rw [decide_eq_true h, if_pos rfl]
      omega
    · rw [decide_eq_false h, if_neg Bool.false_ne_true]
      omega
  have hd := digits_toDigits lead.natAbs
  refine ⟨_, ?_, ?_, ?_, rfl⟩
  · split
    · exact (digits_zeros 1).append hd
    · exact hd
  · split
    · exact List.cons_ne_nil _ _
    · exact Nat.toDigits_ne_nil
  · split
    · rw [Nat.ofDigitChars_cons]
      show signed _ (Nat.ofDigitChars 10 _ 0) = _
      rw [Nat.ofDigitChars_ten_toDigits, hsign]
    · rw [Nat.ofDigitChars_ten_toDigits, hsign]

/-- A decimal that is laid out is read with the same value. -/
theorem number?_layout {t : Text} {negative : Bool} {d : Decimal}
    (hs : sign t = (negative, d.layout.map Rune.char)) :
    ∃ (digits : Nat) (exponent : Int), (digits : ℚ) * 10 ^ exponent = d.value ∧
      number? t = some (Double.ofDecimal negative digits exponent) := by
  have hds := digits_toDigits d.digits
  have hval := Nat.ofDigitChars_ten_toDigits (n := d.digits)
  have hpos := Nat.length_toDigits_pos (b := 10) (n := d.digits)
  have hne := List.ne_nil_of_length_pos hpos
  unfold Decimal.layout at hs
  simp only at hs
  generalize Nat.toDigits 10 d.digits = ds at hs hds hval hpos hne
  by_cases hlead : -4 ≤ d.exponent + ds.length - 1 ∧ d.exponent + ds.length - 1 < 16
  · rw [if_pos hlead] at hs
    by_cases hneg : d.exponent + ds.length - 1 < 0
    · rw [if_pos hneg] at hs
      refine ⟨_, _, ?_, number?_below hds hs⟩
      rw [hval, Decimal.value]
      congr 2
      omega
    · rw [if_neg hneg] at hs
      by_cases hlen : ds.length ≤ (d.exponent + ds.length - 1).toNat + 1
      · rw [if_pos hlen] at hs
        refine ⟨_, _, ?_, number?_whole hds hne hs⟩
        have hexp : d.exponent =
            ((d.exponent + ds.length - 1).toNat + 1 - ds.length : Nat) := by omega
        rw [hval, Decimal.value]
        conv_rhs => rw [hexp]
        rw [zpow_natCast, zpow_neg_one]
        push_cast
        field_simp
      · rw [if_neg hlen] at hs
        refine ⟨_, _, ?_, number?_between hds (Nat.succ_pos _) (by omega) hs⟩
        rw [hval, Decimal.value]
        congr 2
        omega
  · rw [if_neg hlead] at hs
    obtain ⟨es, hes, hes', hsigned, heq⟩ := layout_exponent (d.exponent + ds.length - 1)
    rw [← heq] at hs
    have hb : (if d.exponent + ds.length - 1 < 0 then '-' else '+') =
        if decide (d.exponent + ds.length - 1 < 0) = true then '-' else '+' := by
      simp only [decide_eq_true_eq]
    rw [hb] at hs
    generalize hlow : decide (d.exponent + ds.length - 1 < 0) = below at hs hsigned
    cases ds with
    | nil => exact absurd rfl hne
    | cons c ds =>
      cases ds with
      | nil =>
        refine ⟨_, _, ?_, number?_single hds hes hes' hs⟩
        rw [hval, Decimal.value, hsigned, List.length_singleton]
        congr 2
        omega
      | cons c' ds =>
        refine ⟨_, _, ?_, number?_scientific hds hes hes' hs⟩
        rw [hval, Decimal.value, hsigned, List.length_cons, List.length_cons]
        congr 2
        omega

end Literal

/-! ## The texts of numbers -/

def Marks (cs : List Char) : Prop := ∀ c ∈ cs, c.isDigit = true ∨ c ∈ ['.', 'e', '+', '-']

theorem Digits.marks {cs : List Char} (h : Digits cs) : Marks cs :=
  fun c hc => Or.inl (h c hc)

theorem Marks.append {cs ds : List Char} (hc : Marks cs) (hd : Marks ds) : Marks (cs ++ ds) := by
  intro c h
  rcases List.mem_append.1 h with h | h
  · exact hc c h
  · exact hd c h

theorem Marks.cons {c : Char} {cs : List Char} (hc : c ∈ ['.', 'e', '+', '-']) (h : Marks cs) :
    Marks (c :: cs) := by
  intro d hd
  rcases List.mem_cons.1 hd with rfl | hd
  · exact Or.inr hc
  · exact h d hd

structure Pointed (cs : List Char) : Prop where
  split : ∃ w mark rest, cs = w ++ mark :: rest ∧ Digits w ∧ w ≠ [] ∧ mark ∈ ['.', 'e'] ∧
    Marks rest

namespace Literal

theorem pointed_layout (d : Decimal) : Pointed d.layout := by
  have hds := digits_toDigits d.digits
  have hne := Nat.toDigits_ne_nil (b := 10) (n := d.digits)
  unfold Decimal.layout
  simp only
  generalize Nat.toDigits 10 d.digits = ds at hds hne
  constructor
  by_cases hlead : -4 ≤ d.exponent + ds.length - 1 ∧ d.exponent + ds.length - 1 < 16
  · rw [if_pos hlead]
    by_cases hneg : d.exponent + ds.length - 1 < 0
    · rw [if_pos hneg]
      exact ⟨['0'], '.', _, rfl, digits_zeros 1, List.cons_ne_nil _ _, by decide,
        ((digits_zeros _).append hds).marks⟩
    · rw [if_neg hneg]
      split
      · refine ⟨_, '.', ['0'], rfl, hds.append (digits_zeros _), ?_, by decide,
          (digits_zeros 1).marks⟩
        exact List.append_ne_nil_of_left_ne_nil hne _
      · next hlen =>
        refine ⟨_, '.', _, rfl, fun c hc => hds c (List.mem_of_mem_take hc), ?_, by decide,
          Digits.marks fun c hc => hds c (List.mem_of_mem_drop hc)⟩
        intro h
        rcases List.take_eq_nil_iff.1 h with h | h
        · exact absurd h (Nat.succ_ne_zero _)
        · exact hne h
  · rw [if_neg hlead]
    obtain ⟨es, hes, -, -, heq⟩ := layout_exponent (d.exponent + ds.length - 1)
    rw [← heq]
    have tail : Marks ((if d.exponent + ds.length - 1 < 0 then '-' else '+') :: es) := by
      refine Marks.cons ?_ hes.marks
      split <;> decide
    cases ds with
    | nil => exact absurd rfl hne
    | cons c ds =>
      have hc : Digits [c] := by
        intro x hx
        rw [List.mem_singleton.1 hx]
        exact hds c List.mem_cons_self
      cases ds with
      | nil => exact ⟨[c], 'e', _, rfl, hc, List.cons_ne_nil _ _, by decide, tail⟩
      | cons c' ds =>
        refine ⟨[c], '.', _, rfl, hc, List.cons_ne_nil _ _, by decide, ?_⟩
        exact Marks.append (Digits.marks fun x hx => hds x (List.mem_cons_of_mem c hx))
          (Marks.cons (by decide) tail)

theorem sign_append {negative : Bool} {c : Char} {cs : List Char} (hc : c.isDigit = true) :
    sign (((if negative then ['-'] else []) ++ c :: cs).map Rune.char) =
      (negative, (c :: cs).map Rune.char) := by
  cases negative with
  | true => rfl
  | false =>
    unfold sign
    split
    · next rest h =>
      have hm : c = '-' := Rune.char.inj (List.cons.inj h).1
      rw [hm] at hc
      exact absurd hc (by decide)
    · rfl

end Literal

/-- A finite number is read as it is written. -/
theorem Literal.number?_render {x : Double} (hx : x.isFinite = true) :
    number? (x.render.map Rune.char) = some x := by
  obtain ⟨d, hr, hzero, hpos⟩ := Double.render_eq hx
  obtain ⟨w, mark, rest, hsplit, hw, hne, -, -⟩ := (pointed_layout d).split
  obtain ⟨c, w, rfl⟩ := List.exists_cons_of_ne_nil hne
  have hs : sign (x.render.map Rune.char) = (x.negative, d.layout.map Rune.char) := by
    rw [hr, hsplit]
    exact sign_append (hw c List.mem_cons_self)
  obtain ⟨digits, exponent, hv, hn⟩ := number?_layout hs
  rw [hn]
  congr 1
  cases hz : x.isZero with
  | true =>
    have hcode : x.code = 0 := of_decide_eq_true hz
    have hd : digits = 0 := by
      rw [hzero hz] at hv
      have h10 := ten_zpow_pos exponent
      simp only [Decimal.value, Nat.cast_zero, zero_mul, mul_eq_zero, h10.ne', or_false] at hv
      exact_mod_cast hv
    unfold Double.ofDecimal
    simp only
    rw [if_pos (Or.inl hd), ← hcode, Double.ofCode_code]
  | false =>
    have hm : 0 < x.parts.1 := by
      have hcode : x.code ≠ 0 := of_decide_eq_false hz
      obtain ⟨k, -, hk, -, hb⟩ := BinaryFormat.parts_spec BinaryFormat.double x.code
      have hunit := pow2_pos (BinaryFormat.double.precision - 1)
      change x.code = k * _ + x.parts.1 at hk
      change k = 0 ∨ _ ≤ x.parts.1 at hb
      rcases hb with rfl | hb <;> omega
    rw [Double.ofDecimal_of_near x.negative hx hm, Double.ofCode_code]
    rw [hv, hpos hz]
    exact Decimal.near_shortest _ _ hm

end QuestArchive
