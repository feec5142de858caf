import QuestArchive.Proofs.Lists
import QuestArchive.Proofs.Script.Mnemonics

/-!
# Calls in a source

A mnemonic with values behind it is one line of content.  It is read as the mnemonic and the
values that it was written with.
-/

namespace QuestArchive
namespace Script

/-! ## Lines of content -/

theorem label?_of_first {r : Rune} (h : r.isDigit = false) (rest : Text) :
    label? (r :: rest) = none := by
  unfold label?
  rw [List.takeWhile_cons_of_neg (by rw [h]; decide)]
  rfl

theorem ofText_between {blanks t tail : Text} (hb : ∀ r ∈ blanks, r = .char ' ')
    (hc : beforeComment .outside (t ++ tail) = t ++ tail) (ht : t.Trimmed)
    (htail : ∀ r ∈ tail, r.isBlank = true) (hdot : ∀ rest, t ≠ .char '.' :: rest) :
    Line.ofText (blanks ++ (t ++ tail)) = (label? t).getD (.content t) := by
  have hp : Passes .outside blanks .outside := by
    apply passes_of_forall
    intro r hr
    rw [hb r hr]
    decide
  have hstrip : stripComment (blanks ++ (t ++ tail)) = blanks ++ (t ++ tail) := by
    rw [stripComment, hp.beforeComment, hc]
  have htrim : Text.trim (blanks ++ (t ++ tail)) = t := by
    refine Text.trim_between ht ?_ htail
    intro r hr
    rw [hb r hr]
    decide
  obtain ⟨r, rest, rfl⟩ := List.exists_cons_of_ne_nil ht.ne_nil
  unfold Line.ofText
  simp only [hstrip, htrim]

theorem ofText_line {blanks t : Text} (hb : ∀ r ∈ blanks, r = .char ' ')
    (hc : beforeComment .outside t = t) (ht : t.Trimmed)
    (hdot : ∀ rest, t ≠ .char '.' :: rest) :
    Line.ofText (blanks ++ t) = (label? t).getD (.content t) := by
  have hline := @ofText_between blanks t [] hb (by rwa [List.append_nil]) ht
    (fun r hr => absurd hr List.not_mem_nil) hdot
  rwa [List.append_nil] at hline

theorem ofText_content {t : Text} (hc : beforeComment .outside t = t) (ht : t.Trimmed)
    (hdot : ∀ rest, t ≠ .char '.' :: rest) (hl : label? t = none) :
    Line.ofText (Text.ofString "    " ++ t) = .content t := by
  have hindent : Text.ofString "    " = List.replicate 4 (.char ' ') := rfl
  rw [ofText_line (by rw [hindent]; exact fun r hr => List.eq_of_mem_replicate hr) hc ht hdot, hl]
  rfl

/-! ## Calls -/

def callText (mnemonic : String) (args : List Text) : Text :=
  Text.ofString mnemonic ++ .char ' ' :: Text.join (Text.ofString ", ") args

theorem spellCall_nil (mnemonic : String) : spellCall mnemonic [] = Text.ofString mnemonic := rfl

theorem spellCall_cons (mnemonic : String) (value : Value) (values : List Value) :
    spellCall mnemonic (value :: values) = callText mnemonic ((value :: values).map (·.spell)) :=
  rfl

theorem spellCall_concat (mnemonic : String) (values : List Value) (value : Value) :
    spellCall mnemonic (values ++ [value]) =
      callText mnemonic (values.map (·.spell) ++ [value.spell]) := by
  obtain ⟨v, vs, h⟩ := List.exists_cons_of_ne_nil
    (List.append_ne_nil_of_right_ne_nil values (List.cons_ne_nil value []))
  rw [h, spellCall_cons, ← h, List.map_append, List.map_singleton]

theorem join_append_last {separator : Text} (ts : List Text) (u tail : Text) :
    Text.join separator (ts ++ [u]) ++ tail = Text.join separator (ts ++ [u ++ tail]) := by
  induction ts with
  | nil => rfl
  | cons t ts ih =>
    have hne : ∀ v : Text, ts ++ [v] ≠ [] := fun v =>
      List.append_ne_nil_of_right_ne_nil ts (List.cons_ne_nil v [])
    rw [List.cons_append, List.cons_append, join_cons t (hne u), join_cons t (hne (u ++ tail)),
      List.append_assoc, ih]

theorem callText_append_last (mnemonic : String) (ts : List Text) (u tail : Text) :
    callText mnemonic (ts ++ [u]) ++ tail = callText mnemonic (ts ++ [u ++ tail]) := by
  unfold callText
  rw [List.append_assoc, List.cons_append, join_append_last]

theorem trimmed_mnemonic {op : Opcode} (hop : op ∈ Opcode.table) :
    (Text.ofString op.mnemonic).Trimmed := by
  have hs := Opcode.spelled_mnemonic hop
  obtain ⟨r, rest, heq, -, -⟩ := hs.first
  refine Text.trimmed_of_forall ?_ fun r hr => (hs.bare r hr).blank
  rw [heq]
  exact List.cons_ne_nil _ _

section

variable {op : Opcode} {ts : List Text} {u : Text}

theorem trimmed_args (h : ∀ t ∈ ts, Atom t) (ht : u.Trimmed) :
    (Text.join (Text.ofString ", ") (ts ++ [u])).Trimmed := by
  refine Text.trimmed_join (List.append_ne_nil_of_right_ne_nil ts (List.cons_ne_nil u [])) ?_
  exact List.forall_mem_append.2 ⟨fun t hm => (h t hm).trimmed, List.forall_mem_singleton.2 ht⟩

theorem trimmed_callText (hop : op ∈ Opcode.table) (h : ∀ t ∈ ts, Atom t) (ht : u.Trimmed) :
    (callText op.mnemonic (ts ++ [u])).Trimmed := by
  unfold callText
  rw [List.append_cons]
  exact Text.Trimmed.append ((trimmed_mnemonic hop).first.append _) (trimmed_args h ht).last

/-- The line of a call is content, and nothing else.  Its last argument need not be complete. -/
theorem ofText_callText (hop : op ∈ Opcode.table) (h : ∀ t ∈ ts, Atom t) (ht : u.Trimmed)
    {tail : Text} {q : Quoting} (hu : Passes .outside (u ++ tail) q)
    (htail : ∀ r ∈ tail, r.isBlank = true) :
    Line.ofText (Text.ofString "    " ++ callText op.mnemonic (ts ++ [u ++ tail])) =
      .content (callText op.mnemonic (ts ++ [u])) := by
  obtain ⟨r, rest, heq, hdigit, hdot⟩ := (Opcode.spelled_mnemonic hop).first
  have hm := passes_bare (Opcode.spelled_mnemonic hop).bare
  have hcall : ∃ rest, callText op.mnemonic (ts ++ [u]) = r :: rest :=
    ⟨_, by rw [callText, heq, List.cons_append]⟩
  obtain ⟨rest', hcall⟩ := hcall
  have hindent : ∀ r ∈ Text.ofString "    ", r = .char ' ' :=
    fun r hr => List.eq_of_mem_replicate (n := 4) hr
  rw [← callText_append_last, ofText_between hindent ?_ (trimmed_callText hop h ht) htail ?_]
  · rw [hcall, label?_of_first hdigit]
    rfl
  · rw [callText_append_last, callText, hm.beforeComment]
    exact congrArg (fun t => _ ++ .char ' ' :: t) (beforeComment_join h hu)
  · intro rest'' heq'
    rw [hcall] at heq'
    exact hdot (List.cons.inj heq').1

end

variable {op : Opcode} {values : List Value}

theorem atom_of_mem (h : ∀ value ∈ values, value.Printable) :
    ∀ t ∈ values.map (·.spell), Atom t := by
  intro t ht
  obtain ⟨value, hv, rfl⟩ := List.mem_map.1 ht
  exact Value.atom_spell (h value hv)

theorem ofText_spellCall (hop : op ∈ Opcode.table) (h : ∀ value ∈ values, value.Printable) :
    Line.ofText (Text.ofString "    " ++ spellCall op.mnemonic values) =
      .content (spellCall op.mnemonic values) := by
  rcases List.eq_nil_or_concat' values with rfl | ⟨values, value, rfl⟩
  · obtain ⟨r, rest, heq, hdigit, hdot⟩ := (Opcode.spelled_mnemonic hop).first
    rw [spellCall_nil]
    refine ofText_content ?_ (trimmed_mnemonic hop) ?_ ?_
    · exact (passes_bare (Opcode.spelled_mnemonic hop).bare).beforeComment_self
    · intro rest' heq'
      rw [heq] at heq'
      exact hdot (List.cons.inj heq').1
    · rw [heq]
      exact label?_of_first hdigit rest
  · obtain ⟨hvalues, hvalue⟩ := List.forall_mem_append.1 h
    have hlast := Value.atom_spell (hvalue value List.mem_cons_self)
    rw [spellCall_concat]
    have hline := @ofText_callText op _ value.spell hop (atom_of_mem hvalues) hlast.trimmed [] _
      (by rw [List.append_nil]; exact hlast.passes) fun r hr => absurd hr List.not_mem_nil
    rwa [List.append_nil] at hline

/-! ## Reading calls -/

theorem tab_not_mem_encodeRune (r : Rune) : Rune.char '\t' ∉ Text.Quoted.encodeRune r := by
  have hother : ∀ x ∈ Text.Quoted.encodeRune r, x ≠ .char '\t' := by
    refine Text.Quoted.forall_mem_encodeRune (by decide) (by decide) (by decide) fun high => ?_
    rintro rfl
    exact absurd high (by decide)
  exact fun hm => hother _ hm rfl

theorem tab_not_mem_bare {t : Text} (h : ∀ r ∈ t, r.Bare) : Rune.char '\t' ∉ t :=
  fun hm => absurd (h _ hm).blank (by decide)

theorem Atom.tab_not_mem {t : Text} (h : Atom t) : Rune.char '\t' ∉ t := by
  cases h with
  | bare _ hb => exact tab_not_mem_bare hb
  | quoted u =>
    intro hm
    rcases List.mem_cons.1 hm with hm | hm
    · exact absurd hm (by decide)
    · rcases List.mem_append.1 hm with hm | hm
      · obtain ⟨r, -, hr⟩ := List.mem_flatMap.1 hm
        exact tab_not_mem_encodeRune r hr
      · exact absurd (List.mem_singleton.1 hm) (by decide)

theorem tab_not_mem_callText (hop : op ∈ Opcode.table) {args : List Text}
    (h : ∀ t ∈ args, Rune.char '\t' ∉ t) : Rune.char '\t' ∉ callText op.mnemonic args := by
  intro hm
  rcases List.mem_append.1 hm with hm | hm
  · exact tab_not_mem_bare (Opcode.spelled_mnemonic hop).bare hm
  · rcases List.mem_cons.1 hm with hm | hm
    · exact absurd hm (by decide)
    · rcases Text.mem_join hm with hm | ⟨t, ht, hm⟩
      · exact absurd hm (by decide)
      · exact h t ht hm

theorem readCall_of_split (hop : op ∈ Opcode.table) {line : Text} {args : List Text}
    (htab : Rune.char '\t' ∉ line)
    (hm : line.takeWhile (· ≠ .char ' ') = Text.ofString op.mnemonic)
    (hs : splitArgs (Text.trim (line.drop ((Text.ofString op.mnemonic).length + 1))) = args) :
    readCall line = (args.mapM Literal.parse >>= expand op) := by
  have hmap : line.map (fun r => if r = .char '\t' then .char ' ' else r) = line := by
    refine (List.map_congr_left fun r hr => if_neg ?_).trans (List.map_id _)
    rintro rfl
    exact htab hr
  unfold readCall
  simp only [hmap, hm, hs, Opcode.ofMnemonic?_mnemonic hop]

theorem blank_not_mem_mnemonic (hop : op ∈ Opcode.table) :
    ∀ r ∈ Text.ofString op.mnemonic, decide (r ≠ .char ' ') = true := by
  intro r hr
  apply decide_eq_true
  rintro rfl
  exact absurd ((Opcode.spelled_mnemonic hop).bare _ hr).blank (by decide)

theorem readCall_callText (hop : op ∈ Opcode.table) {ts : List Text} (h : ∀ t ∈ ts, Atom t)
    {u : Text} {q : Quoting} (hu : Passes .outside u q) (ht : u.Trimmed)
    (htab : Rune.char '\t' ∉ u) :
    readCall (callText op.mnemonic (ts ++ [u])) =
      ((ts ++ [u]).mapM Literal.parse >>= expand op) := by
  refine readCall_of_split hop (tab_not_mem_callText hop ?_) ?_ ?_
  · exact List.forall_mem_append.2
      ⟨fun t hm => (h t hm).tab_not_mem, List.forall_mem_singleton.2 htab⟩
  · rw [callText, List.takeWhile_append_of_pos (blank_not_mem_mnemonic hop),
      List.takeWhile_cons_of_neg (by decide), List.append_nil]
  · rw [callText, List.append_cons, List.drop_left' (by rw [List.length_append]; rfl),
      Text.trim_self (trimmed_args h ht), splitArgs_join h hu ht]

theorem readCall_eq (hop : op ∈ Opcode.table) (h : ∀ value ∈ values, value.Printable) :
    readCall (spellCall op.mnemonic values) =
      ((values.map (·.spell)).mapM Literal.parse >>= expand op) := by
  rcases List.eq_nil_or_concat' values with rfl | ⟨values, value, rfl⟩
  · rw [spellCall_nil]
    refine readCall_of_split hop (tab_not_mem_bare (Opcode.spelled_mnemonic hop).bare) ?_ ?_
    · have ht : (Text.ofString op.mnemonic ++ []).takeWhile (· ≠ Rune.char ' ') =
          Text.ofString op.mnemonic ++ [] :=
        List.takeWhile_append_of_pos (blank_not_mem_mnemonic hop)
      rwa [List.append_nil] at ht
    · rw [List.drop_eq_nil_of_le (Nat.le_succ _)]
      rfl
  · obtain ⟨hvalues, hvalue⟩ := List.forall_mem_append.1 h
    have hlast := Value.atom_spell (hvalue value List.mem_cons_self)
    rw [spellCall_concat, List.map_append]
    exact readCall_callText hop (atom_of_mem hvalues) hlast.passes hlast.trimmed hlast.tab_not_mem

theorem readCall_spellCall (hop : op ∈ Opcode.table) (h : ∀ value ∈ values, value.Spellable) :
    readCall (spellCall op.mnemonic values) = expand op values := by
  rw [readCall_eq hop fun value hv => .spellable (h value hv), Value.mapM_parse_spell h]
  rfl

/-- One argument that cannot be parsed is enough to make a call unreadable. -/
theorem parse_args_error {args : List Text} {t : Text} {e : Fault} (ht : t ∈ args)
    (h : Literal.parse t = .error e) :
    ∃ fault, (args.mapM Literal.parse >>= expand op) = .error fault := by
  cases hm : args.mapM Literal.parse with
  | error fault => exact ⟨fault, rfl⟩
  | ok read =>
    obtain ⟨_, -, hread⟩ := exists_of_forall₂ (mapM_eq_ok_iff.1 hm) t ht
    cases h.symm.trans hread

theorem readCall_endless (hop : op ∈ Opcode.table) (h : ∀ value ∈ values, value.Printable)
    {x : Double} (hx : .float x ∈ values) (hf : x.isFinite = false) :
    ∃ fault, readCall (spellCall op.mnemonic values) = .error fault := by
  obtain ⟨fault, hparse⟩ := Value.parse_endless hf
  rw [readCall_eq hop h]
  exact parse_args_error (List.mem_map_of_mem (f := (·.spell)) hx) hparse

end Script
end QuestArchive
