import QuestArchive.Proofs.Script.Drafting
import QuestArchive.Proofs.Script.Showing

/-!
# Lines that cannot be read

Some lines have a fault wherever they stand, so that no source with one of them is assembled
without errors.  The line of a call is one of them if it cannot be read as a call: in data its
mnemonic would be a byte, and among texts it would be a literal.
-/

namespace QuestArchive

namespace Text

theorem words_head {t : Text} (hne : t ≠ []) (h : ∀ r ∈ t, r.isBlank = false) (rest : Text) :
    words (t ++ .char ' ' :: rest) = t :: words rest := by
  have hrev : (t.reverse ++ []).isEmpty = false := by
    rw [List.append_nil]
    exact List.isEmpty_eq_false_iff.2 (mt List.reverse_eq_nil_iff.1 hne)
  rw [words, wordsFrom_append h, wordsFrom, if_pos (by decide), if_neg (by rw [hrev]; decide),
    List.append_nil, List.reverse_reverse, words]

end Text

namespace Script

def Unreadable (line : Text) : Prop := ∀ c : Context, (c.read line).fault ≠ none

/-! ## Sources with lines that cannot be read -/

theorem exists_effect {c : Context} {lines : List Text} {line : Text} (h : line ∈ lines) :
    ∃ c' : Context, c'.read line ∈ effects c lines := by
  induction lines generalizing c with
  | nil => exact absurd h List.not_mem_nil
  | cons first rest ih =>
    rcases List.mem_cons.1 h with rfl | h
    · exact ⟨c, List.mem_cons_self⟩
    · obtain ⟨c', hc'⟩ := @ih (c.read first).context h
      exact ⟨c', List.mem_cons_of_mem _ hc'⟩

/-- A source with a line that cannot be read is not assembled, or not without errors. -/
theorem errors_of_unreadable {lines : List Text} {line : Text} {a : Assembly}
    (hmem : line ∈ lines) (hu : Unreadable line) (h : assemble lines = .ok a) : a.errors ≠ [] := by
  intro herr
  obtain ⟨c, hc⟩ := @exists_effect {} lines line hmem
  exact hu c ((events_of_assemble h herr).1 _ hc)

/-! ## Content that is nowhere read -/

theorem unreadable_content {line content : Text} (hline : Line.ofText line = .content content)
    (h : ∀ kind, (Content.read kind content).2 ≠ none) : Unreadable line := by
  intro c
  unfold Context.read
  simp only [hline]
  unfold Context.addContent
  split
  · exact Option.some_ne_none _
  · exact h c.kind

theorem readLiteral_of_first {r : Rune} {rest : Text} (h : r ≠ .char '"') :
    ∃ fault, readLiteral (r :: rest) = .error fault := by
  have hparse : Literal.parse (r :: rest) = Literal.bare (r :: rest) := by
    unfold Literal.parse
    split
    · next heq => cases heq
    · next heq => exact absurd (List.cons.inj heq).1 h
    · rfl
  have htext : ∀ t, Literal.bare (r :: rest) ≠ .ok (.text t) := by
    intro t ht
    unfold Literal.bare at ht
    dsimp only at ht
    split at ht
    · obtain ⟨n, -, ht⟩ := bind_eq_ok_iff.1 ht
      cases ht
    · split at ht
      · cases ht
      · split at ht
        · obtain ⟨n, -, ht⟩ := bind_eq_ok_iff.1 ht
          cases ht
        · split at ht
          · cases ht
          · cases ht
  rw [readLiteral, hparse]
  cases hb : Literal.bare (r :: rest) with
  | error fault => exact ⟨fault, rfl⟩
  | ok value =>
    cases value with
    | text t => exact absurd hb (htext t)
    | int n => exact ⟨_, rfl⟩
    | float x => exact ⟨_, rfl⟩
    | list items => exact ⟨_, rfl⟩
    | register n => exact ⟨_, rfl⟩

/-- A line with a mnemonic cannot be read if it cannot be read as a call. -/
theorem unreadable_call {op : Opcode} {line rest : Text} {fault : Fault} (hop : op ∈ Opcode.table)
    (hline : Line.ofText line = .content (Text.ofString op.mnemonic ++ .char ' ' :: rest))
    (hread : readCall (Text.ofString op.mnemonic ++ .char ' ' :: rest) = .error fault) :
    Unreadable line := by
  have hs := Opcode.spelled_mnemonic hop
  obtain ⟨r, tail, hm, -, -⟩ := hs.first
  refine unreadable_content hline fun kind => ?_
  cases kind with
  | code =>
    rw [Content.read, hread]
    exact Option.some_ne_none fault
  | data =>
    have hne : Text.ofString op.mnemonic ≠ [] := by
      rw [hm]
      exact List.cons_ne_nil r tail
    rw [Content.read, Text.words_head hne fun r hr => (hs.bare r hr).blank, readBytes,
      Opcode.byte?_mnemonic hop]
    exact Option.some_ne_none _
  | text =>
    obtain ⟨fault, hliteral⟩ := @readLiteral_of_first r (tail ++ .char ' ' :: rest)
      (hs.bare r (by rw [hm]; exact List.mem_cons_self)).quote
    rw [hm, List.cons_append, Content.read, hliteral]
    exact Option.some_ne_none fault

/-! ## Labels and numbers -/

theorem unreadable_labelLine {n : Int} (h : 0xFFFF < n) : Unreadable (labelLine n) := by
  obtain ⟨n, rfl⟩ := Int.eq_ofNat_of_zero_le (show 0 ≤ n by omega)
  intro c
  unfold Context.read
  simp only [ofText_labelLine]
  unfold Context.addLabel Literal.natural
  split
  · exact Option.some_ne_none _
  · next m hm =>
    split at hm
    · cases hm
    · cases hm
      rw [List.length_map] at *
      rw [Literal.ofDigits_eq, Nat.ofDigitChars_ten_toDigits, if_pos (by omega)]
      exact Option.some_ne_none _

theorem unreadable_endless {op : Opcode} {values : List Value} (hop : op ∈ Opcode.table)
    (h : ∀ value ∈ values, value.Printable) {x : Double} (hx : .float x ∈ values)
    (hf : x.isFinite = false) : Unreadable (indented (spellCall op.mnemonic values)) := by
  obtain ⟨fault, hread⟩ := readCall_endless hop h hx hf
  have hline : Line.ofText (indented (spellCall op.mnemonic values)) =
      .content (spellCall op.mnemonic values) := ofText_spellCall hop h
  obtain ⟨value, values, rfl⟩ := List.exists_cons_of_ne_nil (List.ne_nil_of_mem hx)
  rw [spellCall_cons, callText] at hline hread
  exact unreadable_call hop hline hread

/-! ## Listings -/

inductive Listed (s : Segment) : Text → Prop where
  | blank : Listed s []
  | marker : Listed s (Text.ofString s.kind.marker)
  | label {n : Int} (mem : n ∈ s.labels) : Listed s (labelLine n)
  | content {lines : List Text} (written : contentLines s = .ok lines) {line : Text}
      (mem : line ∈ lines) : Listed s line

section

variable {kind : SegmentKind} {started : Bool} {segments : List Segment} {lines : List Text}

theorem listingFrom_eq_ok {s : Segment} (h : listingFrom kind started (s :: segments) = .ok lines) :
    ∃ content started' rest, contentLines s = .ok content ∧
      listingFrom s.kind started' segments = .ok rest ∧
      lines = ((if started then [[]] else []) ++
        (if s.kind = kind then [] else [Text.ofString s.kind.marker]) ++
        s.labels.map labelLine ++ content) ++ rest := by
  rw [listingFrom] at h
  obtain ⟨content, hcontent, h⟩ := bind_eq_ok_iff.1 h
  obtain ⟨rest, hrest, h⟩ := bind_eq_ok_iff.1 h
  cases h
  exact ⟨content, _, rest, hcontent, hrest, rfl⟩

theorem exists_listed (h : listingFrom kind started segments = .ok lines) :
    ∀ line ∈ lines, ∃ s ∈ segments, Listed s line := by
  induction segments generalizing kind started lines with
  | nil =>
    cases h
    exact fun line hline => absurd hline List.not_mem_nil
  | cons s segments ih =>
    obtain ⟨content, started', rest, hcontent, hrest, rfl⟩ := listingFrom_eq_ok h
    intro line hline
    rcases List.mem_append.1 hline with hline | hline
    · refine ⟨s, List.mem_cons_self, ?_⟩
      simp only [List.append_assoc, List.mem_append, List.mem_map] at hline
      rcases hline with hline | hline | ⟨n, hn, rfl⟩ | hline
      · cases started
        · exact absurd hline List.not_mem_nil
        · rw [List.mem_singleton.1 hline]
          exact .blank
      · split at hline
        · exact absurd hline List.not_mem_nil
        · rw [List.mem_singleton.1 hline]
          exact .marker
      · exact .label hn
      · exact .content hcontent hline
    · obtain ⟨t, ht, hlisted⟩ := ih hrest line hline
      exact ⟨t, List.mem_cons_of_mem s ht, hlisted⟩

/-- Each segment has the lines of its labels and of its content in a listing. -/
theorem mem_listingFrom (h : listingFrom kind started segments = .ok lines) :
    ∀ s ∈ segments, ∃ content, contentLines s = .ok content ∧
      ∀ line ∈ s.labels.map labelLine ++ content, line ∈ lines := by
  induction segments generalizing kind started lines with
  | nil => exact fun s hs => absurd hs List.not_mem_nil
  | cons s segments ih =>
    obtain ⟨content, started', rest, hcontent, hrest, rfl⟩ := listingFrom_eq_ok h
    refine List.forall_mem_cons.2 ⟨⟨content, hcontent, fun line hline => ?_⟩, fun t ht => ?_⟩
    · rw [List.append_assoc _ _ content]
      exact List.mem_append_left _ (List.mem_append_right _ hline)
    · obtain ⟨content', hcontent', hall⟩ := ih hrest t ht
      exact ⟨content', hcontent', fun line hline => List.mem_append_right _ (hall line hline)⟩

theorem exists_listingFrom_of_wellFormed
    (hs : ∀ s ∈ segments, ∀ ls is, s = .code ls is → ∀ i ∈ is, i.WellFormed)
    (kind : SegmentKind) (started : Bool) :
    ∃ lines, listingFrom kind started segments = .ok lines := by
  refine exists_listingFrom_of_typed (fun s hmem => ?_) kind started
  cases s with
  | code ls is => exact fun i hi => (hs _ hmem ls is rfl i hi).typed
  | data ls bytes | text ls value => trivial

end

/-! ## Calls of a listing -/

/-- A call among the lines that stand for some instructions, and the instructions that it stands
for. -/
structure Called (lines : List Text) (is : List Instruction) (op : Opcode) (values : List Value)
    (js : List Instruction) : Prop where
  mem : spellCall op.mnemonic values ∈ lines
  opcode : op ∈ Opcode.table
  printable : ∀ value ∈ values, value.Printable
  finite : (∀ i ∈ js, i.Finite) ↔ ∀ x, .float x ∈ values → x.isFinite = true
  expand : expand op values = .ok js
  among : ∀ i ∈ js, i ∈ is

section

variable {lines : List Text} {is js : List Instruction} {op : Opcode} {values : List Value}

theorem Called.behind (h : Called lines is op values js) (line : Text) (front : List Instruction) :
    Called (line :: lines) (front ++ is) op values js :=
  { h with
    mem := List.mem_cons_of_mem line h.mem
    among := fun i hi => List.mem_append_right front (h.among i hi) }

theorem Spells.exists_of_line (h : Spells lines is) {line : Text} (hl : line ∈ lines) :
    ∃ op values js, line = spellCall op.mnemonic values ∧ Called lines is op values js := by
  induction h with
  | nil => exact absurd hl List.not_mem_nil
  | cons opcode printable finite expand _ ih =>
    rcases List.mem_cons.1 hl with rfl | hl
    · exact ⟨_, _, _, rfl, List.mem_cons_self, opcode, printable, finite, expand,
        fun i hi => List.mem_append_left _ hi⟩
    · obtain ⟨op, values, js, hline, hcalled⟩ := ih hl
      exact ⟨op, values, js, hline, hcalled.behind _ _⟩

theorem Spells.exists_of_instruction (h : Spells lines is) {i : Instruction} (hi : i ∈ is) :
    ∃ op values js, i ∈ js ∧ Called lines is op values js := by
  induction h with
  | nil => exact absurd hi List.not_mem_nil
  | cons opcode printable finite expand _ ih =>
    rcases List.mem_append.1 hi with hi | hi
    · exact ⟨_, _, _, hi, List.mem_cons_self, opcode, printable, finite, expand,
        fun i hi => List.mem_append_left _ hi⟩
    · obtain ⟨op, values, js, hmem, hcalled⟩ := ih hi
      exact ⟨op, values, js, hmem, hcalled.behind _ _⟩

/-- A call for an instruction with a number that is not finite cannot be read. -/
theorem Called.unreadable (h : Called lines is op values js) {i : Instruction} (hi : i ∈ js)
    (hf : ¬i.Finite) : Unreadable (indented (spellCall op.mnemonic values)) := by
  obtain ⟨x, hx⟩ := not_forall.1 (mt h.finite.2 fun hall => hf (hall i hi))
  obtain ⟨hmem, hx⟩ := Classical.not_imp.1 hx
  exact unreadable_endless h.opcode h.printable hmem (Bool.eq_false_iff.2 hx)

end

end Script
end QuestArchive
