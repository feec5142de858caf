import QuestArchive.Proofs.Script.Folding
import QuestArchive.Script.Assemble

/-!
# The lines of a listing

Each line that a segment is written with is read without a word: a blank line does nothing, a
marker enters a section, a label is named, and a line of content adds what it was written for.
-/

namespace QuestArchive
namespace Script

/-! ## Reading line by line -/

/-- Lines are read without a word: what they do, one line after the other, and the context
behind them. -/
inductive Reads : Context → List Text → List Event → Context → Prop where
  | nil (c : Context) : Reads c [] [] c
  | cons {c c' c'' : Context} {line : Text} {lines : List Text} {events events' : List Event}
      (read : c.read line = { events := events, context := c' })
      (rest : Reads c' lines events' c'') : Reads c (line :: lines) (events ++ events') c''

namespace Reads

variable {c c' c'' : Context} {lines lines' : List Text} {events events' : List Event}

theorem append (h : Reads c lines events c') (h' : Reads c' lines' events' c'') :
    Reads c (lines ++ lines') (events ++ events') c'' := by
  induction h with
  | nil => exact h'
  | cons read _ ih =>
    rw [List.append_assoc]
    exact .cons read (ih h')

theorem single {line : Text} (h : c.read line = { events := events, context := c' }) :
    Reads c [line] events c' := by
  rw [← List.append_nil events]
  exact .cons h (.nil c')

theorem run (h : Reads c lines events c') (n : Nat) : run c n lines = .ok (events, []) := by
  induction h generalizing n with
  | nil => rfl
  | cons read _ ih =>
    rw [Script.run, read]
    show (Script.run _ (n + 1) _ >>= _) = _
    rw [ih]
    rfl

end Reads

variable {c : Context}

/-! ## Sections and labels -/

theorem read_blank (c : Context) : c.read [] = { events := [], context := c } := rfl

theorem read_marker {kind : SegmentKind} (h : kind ≠ c.kind) :
    c.read (Text.ofString kind.marker) =
      { events := [.enter kind], context := { c with kind := kind } } := by
  have hline : Line.ofText (Text.ofString kind.marker) =
      .directive (Text.ofString kind.marker) := by
    cases kind
    all_goals decide +kernel
  have hkind : SegmentKind.ofMarker? (Text.ofString kind.marker) = some kind := by
    cases kind
    all_goals decide +kernel
  unfold Context.read
  simp only [hline]
  unfold Context.enter
  simp only [hkind]
  rw [if_neg h]

def labelLine (n : Int) : Text := (Numeral.decimal n).map Rune.char ++ [.char ':']

theorem bare_labelLine (n : Int) : ∀ r ∈ labelLine n, r.Bare := by
  intro r hr
  rcases List.mem_append.1 hr with hr | hr
  · exact (Literal.signed_decimal n).bare r hr
  · rw [List.mem_singleton.1 hr]
    exact ⟨by decide, by decide, by decide, by decide⟩

theorem ofText_labelLine (n : Nat) :
    Line.ofText (labelLine n) =
      .label ((Nat.toDigits 10 n).map fun c => c.toNat - 48) [] := by
  have hds := digits_toDigits n
  have hline : labelLine n = (Nat.toDigits 10 n).map Rune.char ++ [.char ':'] := by
    rw [labelLine, Numeral.decimal, if_neg (Int.not_lt.2 (Int.natCast_nonneg n)),
      Int.natAbs_natCast]
  have hbare := bare_labelLine n
  have hne : labelLine n ≠ [] := List.append_ne_nil_of_right_ne_nil _ (List.cons_ne_nil _ _)
  have hlabel : label? (labelLine n) =
      some (.label ((Nat.toDigits 10 n).map fun c => c.toNat - 48) []) := by
    have hcolon : (Rune.char ':').isDigit = false := by decide
    have hblank : (Rune.char ':').isBlank = false := by decide
    unfold label?
    rw [hline, Literal.takeWhile_digits hds, Literal.dropWhile_digits hds,
      List.takeWhile_cons_of_neg (by rw [hcolon]; decide),
      List.dropWhile_cons_of_neg (by rw [hcolon]; decide),
      List.dropWhile_cons_of_neg (by rw [hblank]; decide), List.append_nil,
      Literal.digits?_of_digits hds Nat.toDigits_ne_nil]
    rfl
  have hdot : ∀ rest, labelLine n ≠ .char '.' :: rest := by
    intro rest heq
    obtain ⟨d, ds, hd⟩ := List.exists_cons_of_ne_nil (Nat.toDigits_ne_nil (b := 10) (n := n))
    have hdigit := hds d (by rw [hd]; exact List.mem_cons_self)
    rw [hline, hd] at heq
    rw [Rune.char.inj (List.cons.inj heq).1] at hdigit
    cases hdigit
  have ht := Text.trimmed_of_forall hne fun r hr => (hbare r hr).blank
  have hof := @ofText_line [] _ (fun r hr => by cases hr) (passes_bare hbare).beforeComment_self ht
    hdot
  rw [List.nil_append, hlabel] at hof
  exact hof

theorem read_labelLine {n : Nat} (h : n ≤ 0xFFFF) (hn : n ∉ c.labels) :
    c.read (labelLine n) =
      { events := [.label n], context := { c with labels := n :: c.labels } } := by
  have hnatural : Literal.natural ((Nat.toDigits 10 n).map fun c => c.toNat - 48) = .ok n := by
    have hl := @Literal.length_toDigits_le n (by omega) (by omega)
    rw [Int.natAbs_natCast] at hl
    rw [Literal.natural, List.length_map, if_neg (Nat.not_lt.2 hl), Literal.ofDigits_eq,
      Nat.ofDigitChars_ten_toDigits]
  unfold Context.read
  simp only [ofText_labelLine]
  unfold Context.addLabel
  simp only [hnatural]
  rw [if_neg (Nat.not_lt.2 h), if_neg (by simpa using hn)]
  rfl

/-! ## Content -/

def indented (t : Text) : Text := Text.ofString "    " ++ t

theorem read_content {t : Text} {content : Content} (hline : Line.ofText (indented t) = .content t)
    (hl : c.labels ≠ []) (hread : Content.read c.kind t = (content, none)) :
    c.read (indented t) = { events := [.content content], context := c } := by
  unfold Context.read
  simp only [hline]
  unfold Context.addContent
  rw [if_neg (by simpa using hl), hread]

theorem read_unlabelled {line t : Text} (hline : Line.ofText line = .content t)
    (hl : c.labels = []) : (c.read line).fault ≠ none := by
  unfold Context.read
  simp only [hline]
  unfold Context.addContent
  rw [if_pos (by rw [hl]; rfl)]
  exact Option.some_ne_none _

theorem read_call {op : Opcode} {values : List Value} {is : List Instruction}
    (hk : c.kind = .code) (hl : c.labels ≠ []) (hop : op ∈ Opcode.table)
    (h : ∀ value ∈ values, value.Spellable) (hexpand : expand op values = .ok is) :
    c.read (indented (spellCall op.mnemonic values)) =
      { events := [.content (.code is)], context := c } := by
  refine read_content (ofText_spellCall hop fun value hv => .spellable (h value hv)) hl ?_
  rw [hk, Content.read, readCall_spellCall hop h, hexpand]

theorem read_literal {t : Text} (hk : c.kind = .text) (hl : c.labels ≠ []) :
    c.read (indented (Text.Quoted.encode t)) =
      { events := [.content (.text [t])], context := c } := by
  have hliteral : readLiteral (Text.Quoted.encode t) = .ok t := by
    have hparse : Literal.parse (Text.Quoted.encode t) = .ok (.text t) :=
      Value.parse_spell (.text t)
    rw [readLiteral, hparse]
    rfl
  refine read_content (ofText_content ?_ (Text.trimmed_encode t) ?_ ?_) hl ?_
  · exact (passes_encode t).beforeComment_self
  · intro rest h
    exact absurd (List.cons.inj h).1 (by decide)
  · exact label?_of_first (by decide) _
  · rw [hk, Content.read, hliteral]

/-! ## Bytes -/

theorem hexadecimal_bare : ∀ k < 16, (Rune.char (Nat.digitChar k)).isBlank = false ∧
    Rune.char (Nat.digitChar k) ≠ .char '"' ∧ Rune.char (Nat.digitChar k) ≠ .char ',' ∧
    Rune.char (Nat.digitChar k) ≠ .char '/' ∧ Rune.char (Nat.digitChar k) ≠ .char ':' ∧
    Rune.char (Nat.digitChar k) ≠ .char '.' := by
  decide

theorem mem_spellByte {r : Rune} {b : UInt8} (h : r ∈ spellByte b) :
    ∃ k < 16, r = .char (Nat.digitChar k) := by
  have hb := b.toNat_lt
  rcases List.mem_cons.1 h with h | h
  · exact ⟨_, by omega, h⟩
  · exact ⟨_, by omega, List.mem_singleton.1 h⟩

theorem byte?_spellByte (b : UInt8) : byte? (spellByte b) = some b := by
  have all : ∀ k < 16, ∀ j < 16, byte? [.char (Nat.digitChar k), .char (Nat.digitChar j)] =
      some (UInt8.ofNat (k * 16 + j)) := by
    decide +kernel
  have hb := b.toNat_lt
  have hsum : b.toNat / 16 * 16 + b.toNat % 16 = b.toNat := by omega
  rw [spellByte, all _ (by omega) _ (by omega), hsum, UInt8.ofNat_toNat]

theorem readBytes_spellByte (bytes : Bytes) : readBytes (bytes.map spellByte) = (bytes, none) := by
  induction bytes with
  | nil => rfl
  | cons b bytes ih => rw [List.map_cons, readBytes, byte?_spellByte, ih]

theorem label?_of_not_mem {t : Text} (h : Rune.char ':' ∉ t) : label? t = none := by
  unfold label?
  cases hd : Literal.digits? Rune.digit? (t.takeWhile Rune.isDigit) with
  | none => rfl
  | some digits =>
    show (_ : Option Line) = none
    split
    · next rest heq =>
      have hm : Rune.char ':' ∈ (t.dropWhile Rune.isDigit).dropWhile Rune.isBlank := by
        rw [heq]
        exact List.mem_cons_self
      exact absurd ((List.dropWhile_sublist _).mem ((List.dropWhile_sublist _).mem hm)) h
    · rfl

section

variable {bytes : Bytes}

theorem word_of_mem {t : Text} (ht : t ∈ bytes.map spellByte) :
    t ≠ [] ∧ ∀ r ∈ t, ∃ k < 16, r = .char (Nat.digitChar k) := by
  obtain ⟨b, -, rfl⟩ := List.mem_map.1 ht
  exact ⟨List.cons_ne_nil _ _, fun r hr => mem_spellByte hr⟩

theorem blank_of_mem {t : Text} (ht : t ∈ bytes.map spellByte) : ∀ r ∈ t, r.isBlank = false := by
  intro r hr
  obtain ⟨k, hk, rfl⟩ := (word_of_mem ht).2 r hr
  exact (hexadecimal_bare k hk).1

theorem ofText_bytes (hne : bytes ≠ []) :
    Line.ofText (indented (Text.join [.char ' '] (bytes.map spellByte))) =
      .content (Text.join [.char ' '] (bytes.map spellByte)) := by
  have hjoin : ∀ r ∈ Text.join [.char ' '] (bytes.map spellByte), r = .char ' ' ∨
      ∃ k < 16, r = .char (Nat.digitChar k) := by
    intro r hr
    rcases Text.mem_join hr with hr | ⟨t, ht, hr⟩
    · exact Or.inl (List.mem_singleton.1 hr)
    · exact Or.inr ((word_of_mem ht).2 r hr)
  refine ofText_content ?_ ?_ ?_ ?_
  · refine @Passes.beforeComment_self .outside .outside _ (passes_of_forall ?_)
    intro r hr
    rcases hjoin r hr with rfl | ⟨k, hk, rfl⟩
    · exact ⟨by decide, by decide, by decide⟩
    · obtain ⟨-, hquote, hcomma, hslash, -⟩ := hexadecimal_bare k hk
      exact ⟨hquote, hcomma, hslash⟩
  · refine Text.trimmed_join (by simpa using hne) ?_
    exact fun t ht => Text.trimmed_of_forall (word_of_mem ht).1 (blank_of_mem ht)
  · intro rest heq
    have hm : Rune.char '.' ∈ Text.join [.char ' '] (bytes.map spellByte) := by
      rw [heq]
      exact List.mem_cons_self
    rcases hjoin _ hm with h | ⟨k, hk, h⟩
    · exact absurd h (by decide)
    · exact (hexadecimal_bare k hk).2.2.2.2.2 h.symm
  · apply label?_of_not_mem
    intro hm
    rcases hjoin _ hm with h | ⟨k, hk, h⟩
    · exact absurd h (by decide)
    · exact (hexadecimal_bare k hk).2.2.2.2.1 h.symm

theorem read_bytes (hk : c.kind = .data) (hl : c.labels ≠ []) (hne : bytes ≠ []) :
    c.read (indented (Text.join [.char ' '] (bytes.map spellByte))) =
      { events := [.content (.data bytes)], context := c } := by
  refine read_content (ofText_bytes hne) hl ?_
  rw [hk, Content.read]
  simp only [Text.words_join (fun t ht => (word_of_mem ht).1) (fun t ht => blank_of_mem ht),
    readBytes_spellByte]

end

end Script
end QuestArchive
