import QuestArchive.Proofs.ObjectCode.Narrowing
import QuestArchive.Proofs.ObjectCode.NegativeOffsets
import QuestArchive.Proofs.Quest.Outline
import QuestArchive.Proofs.Quest.StartCode
import QuestArchive.Proofs.Script.Drafting

/-!
# The code that a source starts with, read again

The label table does not say where a segment ends, so what was written for label zero is read
together with all that stands in front of the next label at another place.  What runs first is
the same again just if nothing does.
-/

namespace QuestArchive

namespace Segment

def NullFreeCode : Segment → Prop
  | .code _ instructions => ∀ i ∈ instructions, i.NullFree
  | _ => False

instance (s : Segment) : Decidable s.NullFreeCode :=
  match s with
  | .code _ instructions => inferInstanceAs (Decidable (∀ i ∈ instructions, i.NullFree))
  | .data .. | .text .. => inferInstanceAs (Decidable False)

/-- What is behind a segment starts with a label, or nothing has any bytes from there on. -/
def Closed (s : Segment) (after : List Segment) : Prop :=
  if s.Hollow then ∀ t ∈ after, t.Hollow else ∀ t ∈ after.head?, t.labels ≠ []

instance (s : Segment) (after : List Segment) : Decidable (s.Closed after) :=
  inferInstanceAs (Decidable (if s.Hollow then _ else ∀ t ∈ after.head?, t.labels ≠ []))

end Segment

namespace Script

/-- The segment of label zero is code that nothing is read together with. -/
def StartsAlone : List Segment → Prop
  | [] => True
  | s :: rest => if 0 ∈ s.labels then s.NullFreeCode ∧ s.Closed rest else StartsAlone rest

instance decidableStartsAlone : (segments : List Segment) → Decidable (StartsAlone segments)
  | [] => inferInstanceAs (Decidable True)
  | s :: rest =>
    have := decidableStartsAlone rest
    inferInstanceAs (Decidable (if 0 ∈ s.labels then _ else StartsAlone rest))

theorem startsAlone_append {before after : List Segment} (h : ∀ s ∈ before, 0 ∉ s.labels) :
    StartsAlone (before ++ after) ↔ StartsAlone after := by
  induction before with
  | nil => exact Iff.rfl
  | cons s before ih =>
    obtain ⟨hs, hb⟩ := List.forall_mem_cons.1 h
    show (if 0 ∈ s.labels then _ else _) ↔ _
    rw [if_neg hs]
    exact ih hb

end Script

namespace ObjectCode

theorem Fills.hollow_iff {s : Segment} {bs : Bytes} (h : Fills s bs) (hs : Script.Settled s) :
    s.Hollow ↔ s.extent = 0 := by
  have hlen := h.length
  have hw := h.write
  cases s with
  | code ls is =>
    cases is with
    | nil => exact iff_of_true rfl rfl
    | cons i is =>
      refine iff_of_false (List.cons_ne_nil i is) ?_
      obtain ⟨parts, hm, hparts⟩ := bind_eq_ok_iff.1 hw
      obtain ⟨piece, rest, hp, -, rfl⟩ := List.forall₂_cons_left_iff.1 (mapM_eq_ok_iff.1 hm)
      have hpos := length_pos_of_writeInstruction
        (hs.instructions ls _ rfl i List.mem_cons_self) hp
      cases hparts
      rw [List.flatten_cons, List.length_append] at hlen
      omega
  | data ls bytes =>
    show bytes = [] ↔ (bytes.length : Int) = 0
    rw [← List.length_eq_zero_iff, Int.natCast_eq_zero]
  | text ls value =>
    refine iff_of_false id ?_
    show ((Segment.textExtent value : Nat) : Int) ≠ 0
    unfold Segment.textExtent
    omega

/-! ## Written sources -/

/-- Segments as they come of a source, with the bytes that were written for them. -/
structure Stands (segments : List Segment) (stored : Stored) (pieces : List Bytes) : Prop where
  settled : ∀ s ∈ segments, Script.Settled s
  distinct : (segments.flatMap Segment.labels).Nodup
  fills : List.Forall₂ Fills segments pieces
  code : stored.code = pieces.flatten
  offset : ∀ o s, (o, s) ∈ laid 0 segments → ∀ l ∈ s.labels, stored.offsets[l.toNat]? = some o
  only : ∀ (n : Nat) (o : Int), stored.offsets[n]? = some o →
    o = -1 ∨ ∃ s, (o, s) ∈ laid 0 segments ∧ (n : Int) ∈ s.labels

section

variable {segments before after : List Segment} {s : Segment} {stored : Stored}
  {pieces : List Bytes}

theorem exists_stands (hs : ∀ s ∈ segments, Script.Settled s)
    (hn : (segments.flatMap Segment.labels).Nodup) (hw : write segments = .ok stored) :
    ∃ pieces, Stands segments stored pieces := by
  have hwell : ∀ s ∈ segments, ∀ ls is, s = .code ls is → ∀ i ∈ is, i.WellFormed :=
    fun s h => (hs s h).instructions
  have hp := packable_of_write hwell hw
  obtain ⟨pieces, hfills⟩ := exists_forall₂ fun s h =>
    exists_fills (Segment.sized_of_packable (hwell s h) (hp s h))
  obtain ⟨offsets, hw', hset, honly, -⟩ :=
    exists_write_of_fills hfills hn fun s h l hl => ((hs s h).labels l hl).1
  cases hw.symm.trans hw'
  exact ⟨pieces, hs, hn, hfills, rfl, hset, honly⟩

namespace Stands

theorem extent_nonneg (h : Stands segments stored pieces) : ∀ s ∈ segments, 0 ≤ s.extent := by
  intro s hs
  obtain ⟨bs, -, hb⟩ := exists_of_forall₂ h.fills s hs
  have hlen := hb.length
  omega

theorem hollow_iff (h : Stands segments stored pieces) :
    ∀ s ∈ segments, s.Hollow ↔ s.extent = 0 := by
  intro s hs
  obtain ⟨bs, -, hb⟩ := exists_of_forall₂ h.fills s hs
  exact hb.hollow_iff (h.settled s hs)

theorem size (h : Stands segments stored pieces) :
    (stored.code.length : Int) = total (segments.map (·.extent)) := by
  rw [h.code]
  exact (total_of_forall₂ (h.fills.imp fun _ _ hs => hs.length)).symm

theorem low (h : Stands segments stored pieces) : ∀ o ∈ stored.offsets, -1 ≤ o := by
  intro o ho
  obtain ⟨n, hn⟩ := List.getElem?_of_mem ho
  rcases h.only n o hn with rfl | ⟨s, hs, -⟩
  · exact Int.le_refl _
  · have hb := (bounds_of_laid h.extent_nonneg hs).1
    omega

theorem start_iff (h : Stands segments stored pieces) {o : Int} :
    (∃ st, (input .strict stored).starts[o]? = some st) ↔
      ∃ t, (o, t) ∈ laid 0 segments ∧ t.labels ≠ [] := by
  have charts := (strict_input h.low).charts
  constructor
  · intro hst
    obtain ⟨st, hst⟩ := hst
    obtain ⟨hne, hlabels, hsome⟩ := charts.labels hst
    obtain ⟨n, hn⟩ := List.exists_mem_of_ne_nil _ hsome
    rw [hlabels] at hn
    obtain ⟨t, ht, hl⟩ := (h.only n o (mem_labelsAt.1 hn)).resolve_left hne
    exact ⟨t, ht, List.ne_nil_of_mem hl⟩
  · intro ht
    obtain ⟨t, ht, hne⟩ := ht
    obtain ⟨l, hl⟩ := List.exists_mem_of_ne_nil _ hne
    have hb := (bounds_of_laid h.extent_nonneg ht).1
    exact charts.complete (h.offset o t ht l hl) (by omega)

variable (h : Stands segments stored pieces) (he : segments = before ++ s :: after)

include h he

theorem sizes : 0 ≤ total (before.map (·.extent)) ∧ 0 ≤ s.extent ∧
    0 ≤ total (after.map (·.extent)) ∧ ((input .strict stored).size : Int) =
      total (before.map (·.extent)) + s.extent + total (after.map (·.extent)) := by
  have hall := h.extent_nonneg
  have hsize := h.size
  rw [he, List.forall_mem_append, List.forall_mem_cons] at hall
  rw [he, List.map_append, total_append, List.map_cons, total, ← Int.add_assoc] at hsize
  exact ⟨total_nonneg (List.forall_mem_map.2 hall.1), hall.2.1,
    total_nonneg (List.forall_mem_map.2 hall.2.2), hsize⟩

/-- A segment that lies behind another is one of those that follow it. -/
theorem laid_behind {o : Int} {t : Segment} (ht : (o, t) ∈ laid 0 segments)
    (hlt : total (before.map (·.extent)) < o) :
    (o, t) ∈ laid (total (before.map (·.extent)) + s.extent) after := by
  have hall := h.extent_nonneg
  rw [he, List.forall_mem_append] at hall
  rw [he, laid_append, Int.zero_add, List.mem_append, laid, List.mem_cons] at ht
  rcases ht with ht | ht | ht
  · have hb := bounds_of_laid hall.1 ht
    have ht := hall.1 t (mem_of_laid ht)
    omega
  · cases ht
    exact absurd hlt (Int.lt_irrefl _)
  · exact ht

theorem le_start {o : Int} (hst : ∃ st, (input .strict stored).starts[o]? = some st)
    (hlt : total (before.map (·.extent)) < o) : total (before.map (·.extent)) + s.extent ≤ o := by
  obtain ⟨t, ht, -⟩ := h.start_iff.1 hst
  have hall := h.extent_nonneg
  rw [he, List.forall_mem_append, List.forall_mem_cons] at hall
  exact (bounds_of_laid hall.2.2 (h.laid_behind he ht hlt)).1

variable {st : Start}
  (hst : (input .strict stored).starts[total (before.map (·.extent))]? = some st)

include hst

/-- What is read at the start of a segment goes on to the segment's end at least. -/
theorem le_stop : total (before.map (·.extent)) + s.extent ≤ st.stop := by
  have charts := (strict_input h.low).charts
  obtain ⟨-, hs, hrest, hsize⟩ := h.sizes he
  by_cases hlt : total (before.map (·.extent)) < (input .strict stored).size
  · have hstop := charts.lt_stop hst hlt
    rcases charts.stop_start hst with heq | hnext
    · omega
    · exact h.le_start he hnext hstop
  · have hstop := charts.stop_eq hst (Int.not_lt.1 hlt)
    omega

/-- It goes no farther if the segment is closed. -/
theorem stop_of_closed (hc : s.Closed after) :
    st.stop = total (before.map (·.extent)) + s.extent := by
  have charts := (strict_input h.low).charts
  obtain ⟨-, hs, hrest, hsize⟩ := h.sizes he
  have hle := h.le_stop he hst
  have hend := charts.stop_le hst
  have hsmem : s ∈ segments := by simp [he]
  unfold Segment.Closed at hc
  split at hc
  · -- Nothing has any bytes from here on, so the code ends.
    have hzero : total (after.map (·.extent)) = 0 := by
      refine (total_eq_zero_iff fun n hn => ?_).2 fun n hn => ?_
      all_goals
        obtain ⟨t, ht, rfl⟩ := List.mem_map.1 hn
        have hext := (h.hollow_iff t (by simp [he, ht])).1 (hc t ht)
        omega
    omega
  · next hh =>
    have hpos : s.extent ≠ 0 := fun h0 => hh ((h.hollow_iff s hsmem).2 h0)
    cases after with
    | nil =>
      have hnil : total (([] : List Segment).map (·.extent)) = 0 := rfl
      omega
    | cons t rest =>
      obtain ⟨st', hst'⟩ := h.start_iff.2 ⟨t, by
        rw [he, laid_append, Int.zero_add]
        exact List.mem_append_right _ (List.mem_cons_of_mem _ List.mem_cons_self), hc t rfl⟩
      have hnext := charts.stop_le_next hst hst' (by omega)
      omega

/-- It does go farther if the segment is not closed. -/
theorem closed_of_stop (hstop : st.stop = total (before.map (·.extent)) + s.extent) :
    s.Closed after := by
  have charts := (strict_input h.low).charts
  obtain ⟨-, hs, hrest, hsize⟩ := h.sizes he
  have hall := h.extent_nonneg
  rw [he, List.forall_mem_append, List.forall_mem_cons] at hall
  have hsmem : s ∈ segments := by simp [he]
  unfold Segment.Closed
  split
  · next hh =>
    have hext := (h.hollow_iff s hsmem).1 hh
    have hnot : ¬total (before.map (·.extent)) < (input .strict stored).size := fun hlt => by
      have hgt := charts.lt_stop hst hlt
      omega
    have hzero := (total_eq_zero_iff (List.forall_mem_map.2 hall.2.2)).1
      (show total (after.map (·.extent)) = 0 by omega)
    exact fun t ht => (h.hollow_iff t (by simp [he, ht])).2 (hzero _ (List.mem_map_of_mem ht))
  · next hh =>
    have hpos : s.extent ≠ 0 := fun h0 => hh ((h.hollow_iff s hsmem).2 h0)
    intro t ht hl
    cases after with
    | nil => cases ht
    | cons t' rest =>
      cases ht
      -- A segment without labels has bytes, so nothing starts where it lies.
      have htmem : t ∈ segments := by simp [he]
      have hext : t.extent ≠ 0 := fun h0 =>
        (h.settled t htmem).unlabelled hl ((h.hollow_iff t htmem).2 h0)
      obtain ⟨ht0, hrest0⟩ := List.forall_mem_cons.1 hall.2.2
      have htail := @total_nonneg (rest.map (·.extent)) (List.forall_mem_map.2 hrest0)
      rw [List.map_cons, total] at hsize
      rcases charts.stop_start hst with heq | hnext
      · omega
      · rw [hstop] at hnext
        obtain ⟨u, hu, hlabels⟩ := h.start_iff.1 hnext
        have hbehind := h.laid_behind he hu (by omega)
        rcases List.mem_cons.1 hbehind with heq | hu'
        · cases heq
          exact hlabels hl
        · have hb := bounds_of_laid hrest0 hu'
          omega

end Stands

/-! ## Reading the code of label zero -/

variable {labels : List Int} {r : Reading}

/-- Whatever label zero stands for, code is read where it lies. -/
theorem Stands.exists_startCode (h : Stands segments stored pieces)
    (he : segments = before ++ s :: after) (hs : 0 ∈ s.labels) (h0 : 0 ∈ labels)
    (hr : read .strict stored (entries labels) = .ok r) :
    ∃ st is, (input .strict stored).starts[total (before.map (·.extent))]? = some st ∧
      Script.startCode? r.segments = some is ∧
      StoresAll (Cursor.span stored.code.toArray (total (before.map (·.extent))) st.stop) is ∧
      st.stop = total (before.map (·.extent)) + total (is.map (·.size)) := by
  obtain ⟨hbefore, hext, hafter, hsize⟩ := h.sizes he
  have hlaid := mem_laid_of_split 0 he
  rw [Int.zero_add] at hlaid
  have hlen : ((input .strict stored).size : Int) = stored.code.length := rfl
  exact startCode?_of_read h.low h0 hr (h.offset _ s hlaid 0 hs) (by omega) (by omega)

/-- Code of label zero whose texts are read to their ends comes first in what is read for it, and
nothing else is read for it just if the code is closed. -/
theorem Stands.exists_more {ls : List Int} {is : List Instruction}
    (h : Stands segments stored pieces) (he : segments = before ++ .code ls is :: after)
    (hl : 0 ∈ ls) (hu : ∀ i ∈ is, i.NullFree) (h0 : 0 ∈ labels)
    (hr : read .strict stored (entries labels) = .ok r) :
    ∃ more, Script.startCode? r.segments = some (is.map Instruction.narrowed ++ more) ∧
      (more = [] ↔ (Segment.code ls is).Closed after) := by
  obtain ⟨hbefore, hext, hafter, hsize⟩ := h.sizes he
  obtain ⟨st, is', hst, hcode, hstored, hstop⟩ := h.exists_startCode he hl h0 hr
  have hle := h.le_stop he hst
  have hend : st.stop ≤ stored.code.toArray.size := (strict_input h.low).charts.stop_le hst
  have hfills := h.fills
  rw [he] at hfills
  obtain ⟨front, bs, back, hpieces, hfront, hbs, -⟩ := exists_split_of_forall₂ hfills
  have hspan : Cursor.span stored.code.toArray (total (before.map (·.extent)))
      (total (before.map (·.extent)) + (Segment.code ls is).extent) = bs := by
    rw [total_of_forall₂ (hfront.imp fun _ _ hs => hs.length), hbs.length, h.code, hpieces,
      List.flatten_append, List.flatten_cons]
    exact Cursor.span_middle _ _ _
  have hmem : .code ls is ∈ segments := by simp [he]
  rw [← Cursor.span_append hbefore (by omega) hle hend, hspan] at hstored
  obtain ⟨more, rfl, hmore⟩ := exists_append_of_storesAll
    (storesAll_narrowed ((h.settled _ hmem).instructions ls is rfl) hu hbs.write) hstored
  refine ⟨more, hcode, fun hnil => h.closed_of_stop he hst ?_, fun hc => ?_⟩
  · rw [hstop, hnil, List.append_nil, List.map_map,
      show (Instruction.size ∘ Instruction.narrowed) = Instruction.size from
        funext Instruction.size_narrowed]
    rfl
  · rw [h.stop_of_closed he hst hc, Cursor.span_self (by omega) (by omega)] at hmore
    by_contra hne
    exact Nat.lt_irrefl 0 (length_pos_of_storesAll hmore hne)

/-- What runs first in a script that was written and read is what ran first before, its numbers
rounded, just if that stood alone. -/
theorem startCode?_reread (hs : ∀ s ∈ segments, Script.Settled s)
    (hn : (segments.flatMap Segment.labels).Nodup) (hw : write segments = .ok stored)
    (h0 : 0 ∈ labels) (hr : read .strict stored (entries labels) = .ok r) :
    Script.startCode? r.segments =
        (Script.startCode? segments).map (·.map Instruction.narrowed) ↔
      Script.StartsAlone segments := by
  obtain ⟨pieces, h⟩ := exists_stands hs hn hw
  by_cases hzero : ∃ s ∈ segments, 0 ∈ s.labels
  · obtain ⟨s, hmem, hl⟩ := hzero
    obtain ⟨before, after, he, hfree⟩ := Script.exists_first hn hmem hl
    have halone : Script.StartsAlone segments ↔ s.NullFreeCode ∧ s.Closed after := by
      rw [he, Script.startsAlone_append hfree, Script.StartsAlone, if_pos hl]
    obtain ⟨st, is', hst, hcode, hstored, -⟩ := h.exists_startCode he hl h0 hr
    rw [halone]
    cases s with
    | code ls is =>
      rw [Script.startCode?_eq_some hn hmem hl, Option.map_some]
      constructor
      · intro heq
        cases hcode.symm.trans heq
        have hu : ∀ i ∈ is, i.NullFree := by
          intro i hi
          obtain ⟨bs, hbs⟩ := exists_stores_of_mem hstored _ (List.mem_map_of_mem hi)
          exact Instruction.nullFree_narrowed.1 (nullFree_of_stores hbs)
        obtain ⟨more, hmore, hclosed⟩ := h.exists_more he hl hu h0 hr
        rw [heq, Option.some_inj, List.self_eq_append_right] at hmore
        exact ⟨hu, hclosed.1 hmore⟩
      · intro ⟨hu, hc⟩
        obtain ⟨more, hmore, hclosed⟩ := h.exists_more he hl hu h0 hr
        rw [hmore, hclosed.2 hc, List.append_nil]
    | data ls bytes | text ls value =>
      refine iff_of_false (fun heq => ?_) fun hu => hu.1
      rw [hcode, Script.startCode?_eq_none] at heq
      · cases heq
      · intro ls' is'' hmem' hl'
        cases Script.eq_of_mem_labels hn hmem hmem' hl hl'
  · rw [Script.startCode?_eq_none fun ls is hmem hl => hzero ⟨_, hmem, hl⟩]
    refine iff_of_true (startCode?_of_read_none h.low hr fun o ho => ?_) ?_
    · refine (h.only 0 o ho).resolve_right fun ⟨s, hs, hl⟩ => ?_
      exact hzero ⟨s, mem_of_laid hs, hl⟩
    · rw [← List.append_nil segments, Script.startsAlone_append fun s hs hl => hzero ⟨s, hs, hl⟩]
      trivial

end

end ObjectCode
end QuestArchive
