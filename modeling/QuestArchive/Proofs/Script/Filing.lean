import QuestArchive.Proofs.Script.Breaking
import QuestArchive.Proofs.Script.Reassembling
import QuestArchive.Proofs.Script.Texts

/-!
# Listings in text files

A text file keeps the lines of a listing as they are unless one of its texts is broken by a line
end.  The first line of what is left of the call with that text cannot be read.
-/

namespace QuestArchive

def Segment.Quotes : Segment → Text → Prop
  | .code _ instructions, t => ∃ i ∈ instructions, i.HasText t
  | .data .., _ => False
  | .text _ value, t => t = value

theorem Value.encodable_of_suits {param : ParamKind} {t : Text} (h : (Value.text t).Suits param) :
    Text.Encodable t := by
  cases param
  case string =>
    obtain ⟨u, hu, he⟩ := h
    rwa [Value.text.inj hu]
  case float =>
    obtain ⟨_, h⟩ := h
    cases h
  case register | registerTuple | codeLabels | registers =>
    obtain ⟨_, h, -⟩ := h
    cases h
  all_goals
    obtain ⟨_, _, h, -⟩ := h
    cases h

/-- The texts of an instruction that is well formed can be encoded. -/
theorem Instruction.encodable_of_hasText {i : Instruction} (h : i.WellFormed) {t : Text}
    (ht : i.HasText t) : Text.Encodable t := by
  obtain ⟨a, ha, hv⟩ := ht
  have hargs := h.args
  split at hargs
  · rw [hargs] at ha
    exact absurd ha List.not_mem_nil
  · obtain ⟨param, -, hsuits⟩ := exists_of_forall₂ hargs.flip a ha
    exact Value.encodable_of_suits (hv ▸ hsuits.1)

namespace Script

/-- What holds of the runes of a line that is written for a segment: the line is made of values
and of what stands between them. -/
theorem forall_mem_listed {P : Rune → Prop} {s : Segment} {line : Text} (hl : Listed s line)
    (hs : ∀ ls is, s = .code ls is → ∀ i ∈ is, i.WellFormed)
    (hbare : ∀ c, (Rune.char c).Bare → P (.char c)) (hblank : P (.char ' '))
    (hcomma : P (.char ',')) (hv : ∀ value : Value, value.Printable →
      (∀ t, value = .text t → s.Quotes t) → ∀ r ∈ value.spell, P r) :
    ∀ r ∈ line, P r := by
  have hindent : ∀ r ∈ Text.ofString "    ", P r := fun r hr => by
    rwa [List.eq_of_mem_replicate (n := 4) (a := Rune.char ' ') hr]
  have chars : ∀ {l : List Char} {r : Rune}, r ∈ l.map Rune.char → r.Bare → P r := by
    intro l r hr hb
    obtain ⟨c, -, rfl⟩ := List.mem_map.1 hr
    exact hbare c hb
  cases hl with
  | blank => exact fun r hr => absurd hr List.not_mem_nil
  | marker =>
    have letters : ∀ kind : SegmentKind, kind.marker.toList.all Opcode.isLetter = true := by
      intro kind
      cases kind
      all_goals decide +kernel
    intro r hr
    obtain ⟨c, hc, rfl⟩ := List.mem_map.1 hr
    exact hbare c (Opcode.bare_of_isLetter (List.all_eq_true.1 (letters _) c hc))
  | label hn =>
    intro r hr
    have hb := bare_labelLine _ r hr
    rcases List.mem_append.1 hr with hr | hr
    · exact chars hr hb
    · exact chars (l := [':']) hr hb
  | content hcontent hmem =>
    cases s with
    | code ls is =>
      obtain ⟨calls, hcalls, hspells⟩ := exists_calls ls (hs ls is rfl)
      cases hcalls.symm.trans hcontent
      obtain ⟨call, hcall, rfl⟩ := List.mem_map.1 hmem
      obtain ⟨op, values, js, rfl, hcalled⟩ := hspells.exists_of_line hcall
      refine forall_mem_spellCall hcalled.opcode hbare hblank hcomma fun value hvalue =>
        hv value (hcalled.printable value hvalue) ?_
      rintro t rfl
      obtain ⟨i, hi, ht⟩ := (hasText_expand hcalled.opcode
        (fun value hv => (hcalled.printable value hv).spelt) hcalled.expand t).2 hvalue
      exact ⟨i, hcalled.among i hi, ht⟩
    | data ls bytes =>
      cases hcontent
      obtain ⟨text, htext, rfl⟩ := List.mem_map.1 hmem
      obtain ⟨group, -, rfl⟩ := List.mem_map.1 htext
      refine List.forall_mem_append.2 ⟨hindent, fun r hr => ?_⟩
      rcases Text.mem_join hr with hr | ⟨t, ht, hr⟩
      · rwa [List.mem_singleton.1 hr]
      · obtain ⟨b, -, rfl⟩ := List.mem_map.1 ht
        obtain ⟨k, hk, rfl⟩ := mem_spellByte hr
        exact hbare _ (Opcode.bare_of_isLetter (Opcode.isLetter_digitChar k hk))
    | text ls value =>
      cases hcontent
      rw [List.mem_singleton.1 hmem]
      refine List.forall_mem_append.2 ⟨hindent,
        hv (.text value) (.spellable (.text value)) fun t ht => (Value.text.inj ht).symm⟩

section

variable {s : Segment} {line : Text}

/-- A text file holds a line of a listing as it is, apart from line ends. -/
theorem filed_listed (hl : Listed s line)
    (hs : ∀ ls is, s = .code ls is → ∀ i ∈ is, i.WellFormed)
    (ht : ∀ t, s.Quotes t → Text.Encodable t) : ∀ r ∈ line, r.isFiled = true :=
  forall_mem_listed hl hs (fun _ hb => hb.filed) rfl rfl fun _ hv hq =>
    filed_spell hv fun t he => ht t (hq t he)

/-- A line of a listing is one line of a text file if no text in it is broken. -/
theorem endsLine_listed (hl : Listed s line)
    (hs : ∀ ls is, s = .code ls is → ∀ i ∈ is, i.WellFormed)
    (ht : ∀ t, s.Quotes t → t.Unbroken) : ∀ r ∈ line, r.endsLine = false :=
  forall_mem_listed hl hs (fun _ hb => hb.endsLine) rfl rfl fun _ hv hq =>
    endsLine_spell hv fun t he => ht t (hq t he)

/-- What a line holds of a call cannot be read if a text is broken or a number is not finite. -/
theorem exists_unreadable_firstLine {ls : List Int} {is : List Instruction} {content : List Text}
    (hw : ∀ i ∈ is, i.WellFormed) (hc : contentLines (.code ls is) = .ok content)
    {i : Instruction} (hi : i ∈ is) (hbad : ¬(i.Finite ∧ ∀ t, i.HasText t → t.Unbroken)) :
    ∃ line ∈ content, Unreadable line.firstLine := by
  obtain ⟨calls, hcalls, hspells⟩ := exists_calls ls hw
  cases hcalls.symm.trans hc
  obtain ⟨op, values, js, hj, hcalled⟩ := hspells.exists_of_instruction hi
  refine ⟨_, List.mem_map_of_mem hcalled.mem, ?_⟩
  by_cases hb : ∀ t, .text t ∈ values → t.Unbroken
  · have hf : ¬i.Finite := fun hf => hbad ⟨hf, fun t ht =>
      hb t ((hasText_expand hcalled.opcode (fun value hv => (hcalled.printable value hv).spelt)
        hcalled.expand t).1 ⟨i, hj, ht⟩)⟩
    have hwhole : ∀ r ∈ indented (spellCall op.mnemonic values), r.endsLine = false :=
      forall_mem_spellCall hcalled.opcode (fun _ hb => hb.endsLine) rfl rfl fun value hv =>
        endsLine_spell (hcalled.printable value hv) fun t he => hb t (he ▸ hv)
    rw [Text.firstLine_self hwhole]
    exact hcalled.unreadable hj hf
  · exact unreadable_broken hcalled.opcode hcalled.printable hb

end

end Script
end QuestArchive
