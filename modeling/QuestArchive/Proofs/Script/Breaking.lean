import QuestArchive.Proofs.Script.Unreadable
import QuestArchive.Text.Lines

/-!
# Literals that a line end breaks

A literal escapes the line ends among the control characters and holds the others as they are.
A text file ends a line there, so that what is left of the literal on its line has no closing
quote, and the line cannot be read.
-/

namespace QuestArchive

def Rune.endsLine : Rune → Bool
  | .char c => Text.isLineEnd c
  | .surrogate _ => false

/-- A rune that a text file keeps as it is.  A carriage return is read as a line feed, and a
surrogate has no bytes. -/
def Rune.isFiled : Rune → Bool
  | .char c => c ≠ '\r'
  | .surrogate _ => false

namespace Text

def firstLine (t : Text) : Text := t.takeWhile fun r => !r.endsLine

/-- The line ends in a text are control characters, which a literal escapes. -/
def Unbroken (t : Text) : Prop := ∀ r ∈ t, r.endsLine = true → r.code < 0x20

instance (t : Text) : Decidable t.Unbroken :=
  inferInstanceAs (Decidable (∀ r ∈ t, r.endsLine = true → r.code < 0x20))

theorem firstLine_append {t : Text} (h : ∀ r ∈ t, r.endsLine = false) (rest : Text) :
    firstLine (t ++ rest) = t ++ firstLine rest :=
  List.takeWhile_append_of_pos fun r hr => by rw [h r hr]; rfl

theorem firstLine_self {t : Text} (h : ∀ r ∈ t, r.endsLine = false) : firstLine t = t := by
  have happend : firstLine (t ++ []) = t ++ [] := firstLine_append h []
  rwa [List.append_nil] at happend

end Text

namespace Rune

def lineEnds : Text :=
  [.char '\n', .char '\r', .char '\x0b', .char '\x0c', .char '\x1c', .char '\x1d', .char '\x1e',
    .char '\u0085', .char '\u2028', .char '\u2029']

theorem mem_lineEnds {r : Rune} (h : r.endsLine = true) : r ∈ lineEnds := by
  cases r with
  | surrogate n => cases h
  | char c =>
    have h : Text.isLineEnd c = true := h
    simp only [Text.isLineEnd, Bool.or_eq_true, decide_eq_true_eq, or_assoc] at h
    simpa [lineEnds] using h

theorem endsLine_cases {r : Rune} (h : r.endsLine = true) (hr : 0x20 ≤ r.code) :
    r = .char '\u0085' ∨ r = .char '\u2028' ∨ r = .char '\u2029' := by
  have hall : ∀ r ∈ lineEnds, 0x20 ≤ r.code →
      r = .char '\u0085' ∨ r = .char '\u2028' ∨ r = .char '\u2029' := by decide
  exact hall r (mem_lineEnds h) hr

theorem isBlank_of_endsLine {r : Rune} (h : r.endsLine = true) : r.isBlank = true := by
  have hall : ∀ r ∈ lineEnds, r.isBlank = true := by decide
  exact hall r (mem_lineEnds h)

theorem Bare.filed {c : Char} (h : (char c).Bare) : (char c).isFiled = true := by
  refine decide_eq_true ?_
  rintro rfl
  exact absurd h.blank (by decide)

theorem Bare.endsLine {r : Rune} (h : r.Bare) : r.endsLine = false := by
  rw [← Bool.not_eq_true]
  intro he
  have hblank := h.blank
  rw [isBlank_of_endsLine he] at hblank
  cases hblank

end Rune

namespace Text
namespace Quoted

/-- A rune is written without a line end, unless it is one that is no control character. -/
theorem endsLine_encodeRune {r : Rune} (h : r.endsLine = true → r.code < 0x20) :
    ∀ x ∈ encodeRune r, x.endsLine = false := by
  refine forall_mem_encodeRune (by decide) (by decide) (by decide) fun high => ?_
  rw [← Bool.not_eq_true]
  exact fun he => absurd (h he) (Nat.not_lt.2 high)

theorem filed_encodeRune {r : Rune} (h : ∀ n, r ≠ .surrogate n) :
    ∀ x ∈ encodeRune r, x.isFiled = true := by
  refine forall_mem_encodeRune (by decide) (by decide) (by decide) fun high => ?_
  cases r with
  | surrogate n => exact absurd rfl (h n)
  | char c =>
    refine decide_eq_true ?_
    rintro rfl
    exact absurd high (by decide)

/-- A literal is made of its quotes and of what its runes are written as. -/
theorem forall_mem_encode {P : Rune → Prop} {t : Text} (hq : P (.char '"'))
    (ht : ∀ r ∈ t, ∀ x ∈ encodeRune r, P x) : ∀ x ∈ encode t, P x := by
  refine List.forall_mem_cons.2 ⟨hq, List.forall_mem_append.2 ⟨fun x hx => ?_,
    List.forall_mem_singleton.2 hq⟩⟩
  obtain ⟨r, hr, hx⟩ := List.mem_flatMap.1 hx
  exact ht r hr x hx

theorem encodeRune_of_endsLine {r : Rune} (h : r.endsLine = true) (hr : 0x20 ≤ r.code) :
    encodeRune r = [r] := by
  rcases Rune.endsLine_cases h hr with rfl | rfl | rfl
  all_goals decide

/-- What a line holds of a broken literal behind its opening quote. -/
theorem firstLine_body {t : Text} (h : ¬t.Unbroken) (rest : Text) :
    ∃ front : Text, firstLine (t.flatMap encodeRune ++ rest) = front.flatMap encodeRune := by
  induction t with
  | nil => exact absurd (fun r hr => absurd hr List.not_mem_nil) h
  | cons r t ih =>
    rw [List.flatMap_cons, List.append_assoc]
    by_cases hr : r.endsLine = true → r.code < 0x20
    · obtain ⟨front, hfront⟩ := ih fun ht => h (List.forall_mem_cons.2 ⟨hr, ht⟩)
      exact ⟨r :: front, by
        rw [firstLine_append (endsLine_encodeRune hr), hfront, List.flatMap_cons]⟩
    · obtain ⟨he, hcode⟩ := Classical.not_imp.1 hr
      refine ⟨[], ?_⟩
      rw [encodeRune_of_endsLine he (Nat.not_lt.1 hcode), List.singleton_append, firstLine,
        List.takeWhile_cons_of_neg (by rw [he]; decide)]
      rfl

/-- A literal without its closing quote, and the blanks at its end. -/
theorem exists_open (t : Text) : ∃ front tail : Text,
    .char '"' :: t.flatMap encodeRune = (.char '"' :: front.flatMap encodeRune) ++ tail ∧
      (∀ r ∈ tail, r.isBlank = true) ∧ Trimmed (.char '"' :: front.flatMap encodeRune) := by
  have quote : (Rune.char '"').isBlank = false := by decide
  induction t using List.reverseRecOn with
  | nil => exact ⟨[], [], rfl, fun r hr => absurd hr List.not_mem_nil, ⟨_, [], rfl, quote⟩,
      ⟨_, [], rfl, quote⟩⟩
  | append_singleton t r ih =>
    rw [List.flatMap_append, List.flatMap_singleton]
    by_cases hr : encodeRune r = [r] ∧ r.isBlank = true
    · obtain ⟨front, tail, ht, hblank, htrim⟩ := ih
      refine ⟨front, tail ++ [r], ?_, List.forall_mem_append.2
        ⟨hblank, List.forall_mem_singleton.2 hr.2⟩, htrim⟩
      rw [hr.1, ← List.cons_append, ht, List.append_assoc]
    · have hlast : Starts (encodeRune r).reverse := by
        rcases encodeRune_cases r with ⟨e, he⟩ | he | he
        · have letter : ∀ e ∈ escapeLetters, e.isBlank = false := by decide
          rw [he.spelled]
          exact ⟨e, _, rfl, letter e (mem_escapeLetters he.meaning)⟩
        · have hlow := he.low
          rw [he.spelled]
          exact ⟨_, _, rfl, (Script.hexadecimal_bare _ (by omega)).1⟩
        · rw [he.spelled]
          exact ⟨r, [], rfl, Bool.not_eq_true _ ▸ fun hb => hr ⟨he.spelled, hb⟩⟩
      refine ⟨t ++ [r], [], ?_, fun r hr => absurd hr List.not_mem_nil,
        ⟨_, _, rfl, quote⟩, ?_⟩
      · rw [List.append_nil, List.flatMap_append, List.flatMap_singleton]
      · rw [List.flatMap_append, List.flatMap_singleton, ← List.cons_append, List.reverse_append]
        exact hlast.append _

end Quoted
end Text

namespace Script

/-! ## Lines of calls -/

variable {op : Opcode} {values : List Value}

theorem filed_spell {value : Value} (h : value.Printable)
    (ht : ∀ t, value = .text t → Text.Encodable t) : ∀ r ∈ value.spell, r.isFiled = true := by
  by_cases hv : ∃ t, value = .text t
  · obtain ⟨t, rfl⟩ := hv
    refine Text.Quoted.forall_mem_encode rfl fun r hr => Text.Quoted.filed_encodeRune ?_
    rintro n rfl
    exact ht t rfl n hr
  · intro r hr
    obtain ⟨hbare, c, rfl⟩ := (Value.bare_spell h (not_exists.1 hv)).2 r hr
    exact hbare.filed

theorem endsLine_spell {value : Value} (h : value.Printable)
    (ht : ∀ t, value = .text t → t.Unbroken) : ∀ r ∈ value.spell, r.endsLine = false := by
  by_cases hv : ∃ t, value = .text t
  · obtain ⟨t, rfl⟩ := hv
    exact Text.Quoted.forall_mem_encode rfl fun r hr =>
      Text.Quoted.endsLine_encodeRune (ht t rfl r hr)
  · exact fun r hr => ((Value.bare_spell h (not_exists.1 hv)).2 r hr).1.endsLine

/-- What holds of the runes of a call: it is made of its mnemonic, its values and what stands
between them. -/
theorem forall_mem_spellCall {P : Rune → Prop} (hop : op ∈ Opcode.table)
    (hbare : ∀ c, (Rune.char c).Bare → P (.char c)) (hblank : P (.char ' '))
    (hcomma : P (.char ',')) (hv : ∀ value ∈ values, ∀ r ∈ value.spell, P r) :
    ∀ r ∈ indented (spellCall op.mnemonic values), P r := by
  have hm : ∀ r ∈ Text.ofString op.mnemonic, P r := by
    intro r hr
    have hb := (Opcode.spelled_mnemonic hop).bare r hr
    obtain ⟨c, -, rfl⟩ := List.mem_map.1 hr
    exact hbare c hb
  refine List.forall_mem_append.2 ⟨fun r hr => ?_, ?_⟩
  · rw [List.eq_of_mem_replicate (n := 4) (a := Rune.char ' ') hr]
    exact hblank
  · cases values with
    | nil => exact hm
    | cons value values =>
      rw [spellCall_cons]
      refine List.forall_mem_append.2 ⟨hm, List.forall_mem_cons.2 ⟨hblank, fun r hr => ?_⟩⟩
      rcases Text.mem_join hr with hr | ⟨t, ht, hr⟩
      · have hr : r ∈ [Rune.char ',', .char ' '] := hr
        simp only [List.mem_cons, List.not_mem_nil, or_false] at hr
        rcases hr with rfl | rfl
        · exact hcomma
        · exact hblank
      · obtain ⟨value', hvalue, rfl⟩ := List.mem_map.1 ht
        exact hv value' hvalue r hr

/-! ## Broken calls -/

theorem exists_join (separator t : Text) (ts : List Text) :
    ∃ more, Text.join separator (t :: ts) = t ++ more := by
  cases ts with
  | nil => exact ⟨[], (List.append_nil t).symm⟩
  | cons u ts => exact ⟨_, List.append_assoc t separator _⟩

/-- The values up to the first one that is broken, and what is left of it. -/
theorem firstLine_values (h : ∀ value ∈ values, value.Printable)
    (hb : ¬∀ t, .text t ∈ values → t.Unbroken) :
    ∃ (ts : List Text) (front : Text), (∀ t ∈ ts, Atom t) ∧
      Text.firstLine (Text.join (Text.ofString ", ") (values.map (·.spell))) =
        Text.join (Text.ofString ", ")
          (ts ++ [.char '"' :: front.flatMap Text.Quoted.encodeRune]) := by
  induction values with
  | nil => exact absurd (fun t ht => absurd ht List.not_mem_nil) hb
  | cons value values ih =>
    obtain ⟨hvalue, hvalues⟩ := List.forall_mem_cons.1 h
    rw [List.map_cons]
    by_cases hfirst : ∀ t, value = .text t → t.Unbroken
    · have hrest : ¬∀ t, .text t ∈ values → t.Unbroken := by
        refine fun hall => hb fun t ht => ?_
        rcases List.mem_cons.1 ht with rfl | ht
        · exact hfirst t rfl
        · exact hall t ht
      have hne : values.map (·.spell) ≠ [] := by
        rintro hnil
        rw [List.map_eq_nil_iff.1 hnil] at hrest
        exact hrest fun t ht => absurd ht List.not_mem_nil
      obtain ⟨ts, front, hts, hline⟩ := ih hvalues hrest
      refine ⟨value.spell :: ts, front, List.forall_mem_cons.2 ⟨Value.atom_spell hvalue, hts⟩, ?_⟩
      rw [join_cons _ hne, List.append_assoc, Text.firstLine_append (endsLine_spell hvalue hfirst),
        Text.firstLine_append (by decide), hline, List.cons_append,
        join_cons _ (List.append_ne_nil_of_right_ne_nil ts (List.cons_ne_nil _ [])),
        List.append_assoc]
    · obtain ⟨t, ht⟩ := not_forall.1 hfirst
      obtain ⟨rfl, hbroken⟩ := Classical.not_imp.1 ht
      obtain ⟨more, hmore⟩ := exists_join (Text.ofString ", ") (Value.text t).spell
        (values.map (·.spell))
      obtain ⟨front, hfront⟩ := Text.Quoted.firstLine_body hbroken (.char '"' :: more)
      refine ⟨[], front, fun t ht => absurd ht List.not_mem_nil, ?_⟩
      have hspell : (Value.text t).spell ++ more =
          [Rune.char '"'] ++ (t.flatMap Text.Quoted.encodeRune ++ .char '"' :: more) := by
        show Text.Quoted.encode t ++ more = _
        simp [Text.Quoted.encode]
      rw [hmore, hspell, Text.firstLine_append (by decide), hfront]
      rfl

/-- What a line holds of a call with a broken text cannot be read. -/
theorem unreadable_broken (hop : op ∈ Opcode.table) (h : ∀ value ∈ values, value.Printable)
    (hb : ¬∀ t, .text t ∈ values → t.Unbroken) :
    Unreadable (Text.firstLine (indented (spellCall op.mnemonic values))) := by
  obtain ⟨ts, front, hts, hline⟩ := firstLine_values h hb
  obtain ⟨body, tail, hopen, htail, htrim⟩ := Text.Quoted.exists_open front
  have hcall : Text.firstLine (indented (spellCall op.mnemonic values)) =
      Text.ofString "    " ++ callText op.mnemonic
        (ts ++ [(.char '"' :: body.flatMap Text.Quoted.encodeRune) ++ tail]) := by
    have hm : ∀ r ∈ Text.ofString op.mnemonic ++ [.char ' '], r.endsLine = false :=
      List.forall_mem_append.2 ⟨fun r hr => ((Opcode.spelled_mnemonic hop).bare r hr).endsLine,
        by decide⟩
    cases values with
    | nil => exact absurd (fun t ht => absurd ht List.not_mem_nil) hb
    | cons value values =>
      rw [indented, Text.firstLine_append (by decide), spellCall_cons, callText, List.append_cons,
        Text.firstLine_append hm, hline, hopen, List.append_assoc (Text.ofString op.mnemonic)]
      rfl
  have hpass : ∀ t : Text,
      Passes .outside (.char '"' :: t.flatMap Text.Quoted.encodeRune) .inside :=
    fun t => .cons (fun _ => by decide) (passes_flatMap t)
  have htab : Rune.char '\t' ∉ .char '"' :: body.flatMap Text.Quoted.encodeRune := by
    intro hm
    rcases List.mem_cons.1 hm with hm | hm
    · exact absurd hm (by decide)
    · obtain ⟨r, -, hr⟩ := List.mem_flatMap.1 hm
      exact tab_not_mem_encodeRune r hr
  obtain ⟨cause, hbody⟩ := Text.Quoted.body_open body
  have hparse : Literal.parse (.char '"' :: body.flatMap Text.Quoted.encodeRune) =
      .error (.source (.badLiteral (.char '"' :: body.flatMap Text.Quoted.encodeRune) cause)) := by
    simp only [Literal.parse, Text.Quoted.decode, hbody]
  obtain ⟨fault, hfault⟩ := @parse_args_error op _ _ _
    (List.mem_append_right ts List.mem_cons_self) hparse
  refine unreadable_call hop ?_ ((readCall_callText hop hts (hpass body) htrim htab).trans hfault)
  rw [hcall, ofText_callText hop hts htrim (hopen ▸ hpass front) htail, callText]

end Script
end QuestArchive
