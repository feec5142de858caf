import QuestArchive.Text.Quoted

/-!
# Quoted literals read back

A rune is written in one of three ways: a backslash and a letter, a backslash and the four
digits of a unit, or as it is.  Each is read as the rune, so that a literal spells the text
it was made of.
-/

namespace QuestArchive
namespace Text
namespace Quoted

/-- How a rune is written inside a literal: a backslash and a letter, -/
structure Lettered (r e : Rune) : Prop where
  spelled : encodeRune r = [.char '\\', e]
  meaning : escaped? e = some r
  letter : e ≠ .char 'u'

/-- a backslash and the digits of a unit, -/
structure Numbered (r : Rune) : Prop where
  spelled : encodeRune r = [.char '\\', .char 'u', .char '0', .char '0',
    .char (Nat.digitChar (r.code / 16)), .char (Nat.digitChar (r.code % 16))]
  low : r.code < 0x20

/-- or nothing but itself. -/
structure Plain (r : Rune) : Prop where
  spelled : encodeRune r = [r]
  quote : r ≠ .char '"'
  backslash : r ≠ .char '\\'
  high : 0x20 ≤ r.code

theorem encodeRune_cases (r : Rune) : (∃ e, Lettered r e) ∨ Numbered r ∨ Plain r := by
  by_cases h1 : r = .char '"'
  · rw [h1]
    exact Or.inl ⟨.char '"', rfl, rfl, by decide⟩
  by_cases h2 : r = .char '\\'
  · rw [h2]
    exact Or.inl ⟨.char '\\', rfl, rfl, by decide⟩
  by_cases h3 : r = .char '\n'
  · rw [h3]
    exact Or.inl ⟨.char 'n', rfl, rfl, by decide⟩
  by_cases h4 : r = .char '\r'
  · rw [h4]
    exact Or.inl ⟨.char 'r', rfl, rfl, by decide⟩
  by_cases h5 : r = .char '\t'
  · rw [h5]
    exact Or.inl ⟨.char 't', rfl, rfl, by decide⟩
  by_cases h6 : r = .char '\x0c'
  · rw [h6]
    exact Or.inl ⟨.char 'f', rfl, rfl, by decide⟩
  by_cases h7 : r = .char '\x08'
  · rw [h7]
    exact Or.inl ⟨.char 'b', rfl, rfl, by decide⟩
  have hr : encodeRune r = if r.code < 0x20 then
      [.char '\\', .char 'u', .char '0', .char '0',
        .char (Nat.digitChar (r.code / 16)), .char (Nat.digitChar (r.code % 16))]
      else [r] := by
    rw [encodeRune]
    all_goals assumption
  by_cases hc : r.code < 0x20
  · exact Or.inr (Or.inl ⟨by rw [hr, if_pos hc], hc⟩)
  · exact Or.inr (Or.inr ⟨by rw [hr, if_neg hc], h1, h2, Nat.le_of_not_lt hc⟩)

def escapeLetters : Text :=
  [.char '"', .char '\\', .char '/', .char 'b', .char 'f', .char 'n', .char 'r', .char 't']

theorem mem_escapeLetters {e r : Rune} (h : escaped? e = some r) : e ∈ escapeLetters := by
  unfold escaped? at h
  split at h
  all_goals first | decide | cases h

/-- What holds of the runes that escapes are written with, and of a rune that is no control
character, holds of what this is written as. -/
theorem forall_mem_encodeRune {P : Rune → Prop} {r : Rune} (hletter : ∀ e ∈ escapeLetters, P e)
    (hu : P (.char 'u')) (hdigit : ∀ k < 16, P (.char (Nat.digitChar k)))
    (hself : 0x20 ≤ r.code → P r) : ∀ x ∈ encodeRune r, P x := by
  have hbackslash : P (.char '\\') := hletter _ (by decide)
  rcases encodeRune_cases r with ⟨e, hr⟩ | hr | hr
  · rw [hr.spelled]
    simp only [List.forall_mem_cons]
    exact ⟨hbackslash, hletter e (mem_escapeLetters hr.meaning),
      fun x hx => absurd hx List.not_mem_nil⟩
  · have hlow := hr.low
    have hzero : P (.char '0') := hdigit 0 (by decide)
    rw [hr.spelled]
    simp only [List.forall_mem_cons]
    exact ⟨hbackslash, hu, hzero, hzero, hdigit _ (by omega), hdigit _ (by omega),
      fun x hx => absurd hx List.not_mem_nil⟩
  · rw [hr.spelled]
    exact List.forall_mem_singleton.2 (hself hr.high)

/-! ## Reading -/

theorem hexDigit?_digitChar : ∀ k < 16, (Rune.char (Nat.digitChar k)).hexDigit? = some k := by
  decide

theorem unit?_low {code : Nat} (h : code < 0x20) :
    unit? (.char '0') (.char '0') (.char (Nat.digitChar (code / 16)))
      (.char (Nat.digitChar (code % 16))) = some code := by
  have h0 : (Rune.char '0').hexDigit? = some 0 := by decide
  unfold unit?
  rw [h0, hexDigit?_digitChar _ (by omega), hexDigit?_digitChar _ (by omega)]
  simp only [Option.bind_eq_bind, Option.bind_some, Option.some.injEq]
  omega

theorem ofUnit_code {r : Rune} (h : r.code < 0x20) : Rune.ofUnit r.code = r := by
  cases r with
  | char c =>
    change c.toNat < 0x20 at h
    show Rune.ofUnit c.toNat = _
    rw [Rune.ofUnit, dif_neg (by omega), Char.ofNat_toNat]
  | surrogate n =>
    change 0xD800 + n.val < 0x20 at h
    omega

variable {r e : Rune} {t : Text}

theorem body_lettered (hr : Lettered r e) :
    body (encodeRune r ++ t) = body t >>= fun read => .ok (r :: read.1, read.2) := by
  rw [hr.spelled]
  show body (.char '\\' :: e :: t) = _
  rw [body, hr.meaning]
  · intro _ _ _ _ _ _ hu
    exact absurd hu hr.letter
  · intro hu
    exact absurd hu hr.letter

theorem body_numbered (hr : Numbered r) (hne : t ≠ []) :
    body (encodeRune r ++ t) = body t >>= fun read => .ok (r :: read.1, read.2) := by
  obtain ⟨e, t, rfl⟩ := List.exists_cons_of_ne_nil hne
  have hlow : isHighUnit r.code = false := by
    have := hr.low
    rw [isHighUnit, decide_eq_false (by omega), Bool.false_and]
  rw [hr.spelled]
  show body (.char '\\' :: .char 'u' :: .char '0' :: .char '0' :: _ :: _ :: e :: t) = _
  rw [body, unit?_low hr.low]
  simp only [hlow, ofUnit_code hr.low]

theorem body_plain (hr : Plain r) :
    body (encodeRune r ++ t) = body t >>= fun read => .ok (r :: read.1, read.2) := by
  have hlow := hr.high
  rw [hr.spelled]
  show body (r :: t) = _
  rw [body, if_neg (by omega)]
  · exact hr.quote
  · intro hb
    exact absurd hb hr.backslash
  · intro _ _ _ _ _ _ hb
    exact absurd hb hr.backslash
  · intro _ hb
    exact absurd hb hr.backslash
  · intro _ _ hb
    exact absurd hb hr.backslash

theorem body_encode (t rest : Text) :
    body (t.flatMap encodeRune ++ .char '"' :: rest) = .ok (t, rest) := by
  induction t with
  | nil => rw [List.flatMap_nil, List.nil_append, body]
  | cons r t ih =>
    rw [List.flatMap_cons, List.append_assoc]
    rcases encodeRune_cases r with ⟨e, hr⟩ | hr | hr
    · rw [body_lettered hr, ih]
      rfl
    · rw [body_numbered hr (List.append_ne_nil_of_right_ne_nil _ (List.cons_ne_nil _ _)), ih]
      rfl
    · rw [body_plain hr, ih]
      rfl

theorem body_open (t : Text) : ∃ cause, body (t.flatMap encodeRune) = .error cause := by
  induction t with
  | nil => exact ⟨.unterminated, by rw [List.flatMap_nil, body]⟩
  | cons r t ih =>
    obtain ⟨cause, ih⟩ := ih
    rw [List.flatMap_cons]
    rcases encodeRune_cases r with ⟨e, hr⟩ | hr | hr
    · exact ⟨cause, by rw [body_lettered hr, ih]; rfl⟩
    · by_cases hne : t.flatMap encodeRune = []
      · refine ⟨.brokenUnit, ?_⟩
        rw [hne, List.append_nil, hr.spelled, body]
        intro _ _ _ _ _ _ h
        cases h
      · exact ⟨cause, by rw [body_numbered hr hne, ih]; rfl⟩
    · exact ⟨cause, by rw [body_plain hr, ih]; rfl⟩

theorem decode_encode (t : Text) : decode (t.flatMap encodeRune ++ [.char '"']) = .ok t := by
  rw [decode, body_encode]
  rfl

end Quoted
end Text
end QuestArchive
