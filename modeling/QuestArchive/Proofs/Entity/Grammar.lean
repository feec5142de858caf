import QuestArchive.Proofs.Entity.Table

/-!
# What is a table, and what is wrong with the rest

A table is sections up to an end mark or to the end of the data (`Sections`).  `Break` says
how bytes that should go on so can fail to: a word of a header or a body is cut short, or a
whole header states sizes that do not fit each other.  Every string of bytes is a table or has
a first break (`sections_or_break`), and reading tells just that (`Table.read_grammar`): what is
inside the sections never makes it fail, for a record takes whatever bytes it finds.
-/

namespace QuestArchive

namespace Read

variable {α β : Type} {m n : Nat}

/-! ## Reads of whatever there is -/

/-- Wherever enough bytes are left, an action succeeds and takes just these. -/
def Suffices (n : Nat) (a : Read α) : Prop :=
  ∀ c : Cursor, c.Inside → n ≤ c.view.length → ∃ x, a c = .ok x (c.advance n)

theorem Describes.suffices {a : Read α} {R : Bytes → α → Prop} (h : Describes a R)
    (hR : ∀ bs, bs.length = n → ∃ x, R bs x) : Suffices n a := by
  intro c hc hn
  have hlen : (c.view.take n).length = n := List.length_take_of_le hn
  obtain ⟨x, hx⟩ := hR _ hlen
  refine ⟨x, ?_⟩
  rw [h.accepts hc (List.take_append_drop n c.view).symm hx, hlen]

namespace Suffices

theorem pure (x : α) : Suffices 0 (Pure.pure x : Read α) :=
  fun c _ _ => ⟨x, by rw [Cursor.advance_zero]; rfl⟩

theorem bind {a : Read α} {f : α → Read β} (ha : Suffices m a) (hf : ∀ x, Suffices n (f x)) :
    Suffices (m + n) (a >>= f) := by
  intro c hc hn
  have hv : c.view = c.view.take m ++ c.view.drop m := (List.take_append_drop m c.view).symm
  have hlen : (c.view.take m).length = m := List.length_take_of_le (by omega)
  have hin := Cursor.inside_advance hc hv
  have hview := Cursor.view_advance hc hv
  rw [hlen] at hin hview
  obtain ⟨x, hx⟩ := ha c hc (by omega)
  obtain ⟨y, hy⟩ := hf x (c.advance m) hin (by rw [hview, List.length_drop]; omega)
  refine ⟨y, ?_⟩
  rw [bind_of_ok hx, hy, Cursor.advance_advance]

theorem exists_within {a : Read α} (h : Suffices n a) {bs : Bytes} (hbs : bs.length = n) :
    ∃ x, within (.whole bs.toArray) a = .ok x := by
  obtain ⟨x, hx⟩ := h _ (Cursor.inside_whole _)
    (Nat.le_of_eq (hbs.symm.trans (congrArg List.length (Cursor.view_whole bs).symm)))
  refine ⟨x, ?_⟩
  unfold within EStateM.run
  rw [hx]

end Suffices

theorem suffices_bytes (n : Nat) : Suffices n (bytes n) :=
  (describes_bytes n).suffices fun bs h => ⟨bs, h, rfl⟩

theorem suffices_u16 : Suffices 2 u16 := describes_u16.suffices fun _ h => ⟨_, h, rfl⟩

theorem suffices_u32 : Suffices 4 u32 := describes_u32.suffices fun _ h => ⟨_, h, rfl⟩

theorem suffices_single : Suffices 4 single := describes_single.suffices fun _ h => ⟨_, h, rfl⟩

theorem suffices_vec3 : Suffices 12 vec3 := describes_vec3.suffices fun _ h => ⟨_, h, rfl⟩

theorem suffices_u32Array (count : Nat) : Suffices (4 * count) (u32Array count) :=
  (describes_u32Array count).suffices fun _ h => ⟨_, h, rfl⟩

end Read

/-! ## Where reading stands -/

/-- A cursor inside its window: the bytes that are left, where they begin and where the window
ends. -/
structure Cursor.At (c : Cursor) (offset total : Int) (rest : Bytes) : Prop where
  inside : c.Inside
  view : c.view = rest
  position : c.position = offset
  size : c.size = total

theorem Cursor.at_whole (data : Bytes) : (whole data.toArray).At 0 data.length data where
  inside := inside_whole _
  view := view_whole data
  position := Int.sub_self 0
  size := Int.sub_zero _

namespace Cursor.At

variable {c : Cursor} {offset total : Int} {front rest : Bytes}

theorem remaining (h : c.At offset total rest) : c.remaining = rest.length := by
  rw [← length_view h.inside, h.view]

theorem advance (h : c.At offset total (front ++ rest)) :
    (c.advance front.length).At (offset + front.length) total rest where
  inside := inside_advance h.inside h.view
  view := view_advance h.inside h.view
  position := by
    rw [← h.position]
    show c.pos + front.length - c.start = c.pos - c.start + front.length
    omega
  size := h.size

theorem u32 {word : Bytes} (h : c.At offset total (word ++ rest)) (hw : word.length = 4) :
    ∃ c', Read.u32 c = .ok (Word.decode word) c' ∧ c'.At (offset + 4) total rest := by
  refine ⟨_, Read.describes_u32.accepts h.inside h.view ⟨hw, rfl⟩, ?_⟩
  have hadvance := h.advance
  rwa [hw] at hadvance ⊢

theorem u32_of_short (h : c.At offset total rest) (hr : rest.length < 4) :
    Read.u32 c = .error (.pastBound .read 4 offset total) c := by
  have hlen := h.remaining
  unfold Cursor.remaining at hlen
  have hbytes : Read.bytes 4 c = .error (.pastBound .read 4 offset total) c := by
    unfold Read.bytes
    rw [if_pos (by omega), h.position, h.size]
  exact Read.bind_of_error (Read.bind_of_error hbytes)

theorem slice_of_short {size : Nat} (h : c.At offset total rest) (hr : rest.length < size) :
    Read.slice size c = .error (.pastBound .slice size offset total) c := by
  have hlen := h.remaining
  unfold Cursor.remaining at hlen
  unfold Read.slice
  rw [if_pos (by omega), h.position, h.size]

end Cursor.At

namespace Entity

open Read (Suffices)

/-! ## Records -/

/-- A count of units has an angle, whatever the bytes that it is read from. -/
theorem exists_turn_of_length {bs : Bytes} (h : bs.length = 4) : ∃ x, Turn bs x := by
  obtain ⟨low, high⟩ := Word.signed_bounds h
  obtain ⟨x, hx, -⟩ := Angle.toUnits_ofUnits low high
  exact ⟨x, h, hx⟩

theorem suffices_rotation : Suffices 12 readRotation := by
  refine describes_rotation.suffices fun bs h => ?_
  obtain ⟨x, y, z, rfl, hx, hy, hz⟩ := exists_thirds h
  obtain ⟨a, ha⟩ := exists_turn_of_length hx
  obtain ⟨b, hb⟩ := exists_turn_of_length hy
  obtain ⟨d, hd⟩ := exists_turn_of_length hz
  exact ⟨⟨a, b, d⟩, x, y, z, rfl, ha, hb, hd⟩

theorem ObjectRecord.suffices_read (area : Int) : Suffices objectSize (read area) := by
  unfold read
  exact Read.suffices_u16.bind fun _ => (Read.suffices_bytes 6).bind fun _ =>
    Read.suffices_u16.bind fun _ => Read.suffices_u16.bind fun _ => Read.suffices_u16.bind fun _ =>
    (Read.suffices_bytes 2).bind fun _ => Read.suffices_vec3.bind fun _ =>
    suffices_rotation.bind fun _ => Read.suffices_single.bind fun _ =>
    Read.suffices_single.bind fun _ => Read.suffices_single.bind fun _ =>
    (Read.suffices_u32Array 4).bind fun _ => .pure _

theorem NpcRecord.suffices_read (area : Int) : Suffices npcSize (read area) := by
  unfold read
  exact Read.suffices_u16.bind fun _ => (Read.suffices_bytes 10).bind fun _ =>
    Read.suffices_u16.bind fun _ => (Read.suffices_bytes 6).bind fun _ =>
    Read.suffices_vec3.bind fun _ => suffices_rotation.bind fun _ =>
    Read.suffices_vec3.bind fun _ => Read.suffices_single.bind fun _ =>
    Read.suffices_single.bind fun _ => Read.suffices_u32.bind fun _ =>
    (Read.suffices_bytes 4).bind fun _ => .pure _

theorem exists_readRecords {α : Type} {read : Read α} {size : Nat} (h : Suffices size read)
    (body : Bytes) : ∃ xs, readRecords read size body = .ok xs := by
  have hsize := (Read.flatten_groups (Nat.mul_div_le body.length size)).1
  exact exists_mapM fun g hg => h.exists_within (hsize g hg)

/-- No section is refused for what its body holds. -/
theorem Table.exists_ofSection (s : Section) : ∃ t, ofSection s = .ok t := by
  unfold ofSection
  split
  · obtain ⟨os, hos⟩ := exists_readRecords (ObjectRecord.suffices_read s.area) s.body
    exact ⟨_, bind_eq_ok_iff.2 ⟨os, hos, rfl⟩⟩
  · split
    · obtain ⟨ns, hns⟩ := exists_readRecords (NpcRecord.suffices_read s.area) s.body
      exact ⟨_, bind_eq_ok_iff.2 ⟨ns, hns, rfl⟩⟩
    · exact ⟨_, rfl⟩

/-! ## Breaks -/

/-- Some bytes are no section, no end mark and not the end, for a reason that reading gives:
there are `offset` bytes before them, and `total` bytes in all. -/
inductive Break (offset total : Int) : Bytes → Fault → Prop where
  /-- The word of the kind is cut short. -/
  | kind {bs : Bytes} (h0 : bs ≠ []) (h : bs.length < 4) :
      Break offset total bs (.pastBound .read 4 offset total)
  /-- The rest of the header is cut short, behind some whole words of its three. -/
  | header {kind rest : Bytes} {words : List Bytes} (hk : kind.length = 4)
      (h0 : Word.decode kind ≠ 0) (hw : ∀ w ∈ words, w.length = 4) (h3 : words.length < 3)
      (h : rest.length < 4) :
      Break offset total (kind ++ (words.flatten ++ rest))
        (.pastBound .read 4 (offset + (4 + words.flatten.length : Nat)) total)
  /-- The sizes of a whole header do not fit each other, whatever follows. -/
  | sizes {kind whole area size rest : Bytes}
      (hl : kind.length = 4 ∧ whole.length = 4 ∧ area.length = 4 ∧ size.length = 4)
      (h0 : Word.decode kind ≠ 0)
      (h : Word.decode whole ≠ Word.decode size + sectionHeaderSize) :
      Break offset total (kind ++ (whole ++ (area ++ (size ++ rest))))
        (.sectionSizes (Word.decode whole - sectionHeaderSize) (Word.decode size))
  /-- The body is cut short. -/
  | body {kind whole area size rest : Bytes}
      (hl : kind.length = 4 ∧ whole.length = 4 ∧ area.length = 4 ∧ size.length = 4)
      (h0 : Word.decode kind ≠ 0)
      (hs : Word.decode whole = Word.decode size + sectionHeaderSize)
      (h : rest.length < Word.decode size) :
      Break offset total (kind ++ (whole ++ (area ++ (size ++ rest))))
        (.pastBound .slice (Word.decode size) (offset + sectionHeaderSize) total)

theorem Break.length_pos {offset total : Int} {bs : Bytes} {e : Fault}
    (h : Break offset total bs e) : 0 < bs.length := by
  cases h with
  | kind h0 _ => exact List.length_pos_of_ne_nil h0
  | header hk => simp only [List.length_append, hk]; omega
  | sizes hl => simp only [List.length_append, hl.1]; omega
  | body hl => simp only [List.length_append, hl.1]; omega

theorem exists_front {n : Nat} {bs : Bytes} (h : n ≤ bs.length) :
    ∃ front rest, bs = front ++ rest ∧ front.length = n :=
  ⟨bs.take n, bs.drop n, (List.take_append_drop n bs).symm, List.length_take_of_le h⟩

/-- Bytes that are left begin with an end mark or a section, or break there. -/
theorem mark_or_section_or_break (offset total : Int) {bs : Bytes} (h0 : bs ≠ []) :
    (∃ mark rest, bs = mark ++ rest ∧ EndMark mark) ∨
      (∃ piece s rest, bs = piece ++ rest ∧ Section.Stored piece s) ∨
        ∃ e, Break offset total bs e := by
  by_cases hshort : bs.length < 4
  · exact Or.inr (Or.inr ⟨_, .kind h0 hshort⟩)
  obtain ⟨kind, after, rfl, hk⟩ := exists_front (Nat.le_of_not_lt hshort)
  by_cases hz : Word.decode kind = 0
  · exact Or.inl ⟨kind, after, rfl, hk, hz⟩
  refine Or.inr ?_
  by_cases hheader : after.length < 12
  · have hcut : 4 * (after.length / 4) ≤ after.length := Nat.mul_div_le _ _
    obtain ⟨hw, hflat⟩ := Read.flatten_groups hcut
    have hrest : (after.drop (4 * (after.length / 4))).length < 4 := by
      rw [List.length_drop]
      omega
    have hbreak := @Break.header offset total _ _ _ hk hz hw
      (by rw [Read.length_groups]; omega) hrest
    rw [hflat, List.take_append_drop] at hbreak
    exact Or.inr ⟨_, hbreak⟩
  obtain ⟨whole, after, rfl, ht⟩ := @exists_front 4 after (by omega)
  rw [List.length_append] at hheader
  obtain ⟨area, after, rfl, ha⟩ := @exists_front 4 after (by omega)
  rw [List.length_append] at hheader
  obtain ⟨size, after, rfl, hs⟩ := @exists_front 4 after (by omega)
  by_cases hsizes : Word.decode whole = Word.decode size + sectionHeaderSize
  · by_cases hbody : after.length < Word.decode size
    · exact Or.inr ⟨_, .body ⟨hk, ht, ha, hs⟩ hz hsizes hbody⟩
    · obtain ⟨body, rest, rfl, hb⟩ := exists_front (Nat.le_of_not_lt hbody)
      refine Or.inl ⟨kind ++ (whole ++ (area ++ (size ++ body))),
        ⟨Word.decode kind, Word.decode area, body⟩, rest, ?_, kind, whole, area, size,
        ⟨hk, ht, ha, hs⟩, rfl, rfl, hz, ?_, rfl, hb.symm⟩
      · simp only [List.append_assoc]
      · rw [hsizes, hb]
  · exact Or.inr ⟨_, .sizes ⟨hk, ht, ha, hs⟩ hz hsizes⟩

/-- All bytes are sections to their end, or sections in front of a break. -/
theorem sections_or_break (offset total : Int) (bs : Bytes) :
    (∃ ss, Sections bs ss) ∨ ∃ pieces ss rest e, bs = pieces.flatten ++ rest ∧
      List.Forall₂ Section.Stored pieces ss ∧
      Break (offset + pieces.flatten.length) total rest e := by
  -- what is left of the bytes gets shorter with every section
  induction hn : bs.length using Nat.strong_induction_on generalizing bs offset with
  | _ n ih =>
    by_cases h0 : bs = []
    · exact Or.inl ⟨[], h0 ▸ .nil⟩
    rcases mark_or_section_or_break offset total h0 with
      ⟨mark, rest, rfl, hm⟩ | ⟨piece, s, rest, rfl, hs⟩ | ⟨e, hb⟩
    · exact Or.inl ⟨[], .stop hm⟩
    · have hpos := Section.length_pos_of_stored hs
      rw [List.length_append] at hn
      rcases ih rest.length (by omega) (offset + piece.length) rest rfl with
        ⟨ss, hss⟩ | ⟨pieces, ss, rest, e, rfl, hss, hb⟩
      · exact Or.inl ⟨s :: ss, .cons hs hss⟩
      · refine Or.inr ⟨piece :: pieces, s :: ss, rest, e, ?_, .cons hs hss, ?_⟩
        · rw [List.flatten_cons, List.append_assoc]
        · rwa [List.flatten_cons, List.length_append, Int.natCast_add, ← Int.add_assoc]
    · refine Or.inr ⟨[], [], bs, e, rfl, .nil, ?_⟩
      simpa using hb

namespace Section

variable {c : Cursor} {offset total : Int} {bs rest : Bytes}

theorem read_of_stored {s : Section} (h : s.Stored bs) (hc : c.At offset total (bs ++ rest)) :
    ∃ c', read c = .ok (some s) c' ∧ c'.At (offset + bs.length) total rest :=
  ⟨_, describes_read.accepts hc.inside hc.view (Or.inr ⟨s, rfl, h⟩), hc.advance⟩

theorem read_of_break {e : Fault} (h : Break offset total bs e) (hc : c.At offset total bs) :
    ∃ c', read c = .error e c' := by
  unfold read
  cases h with
  | kind _ h => exact ⟨_, Read.bind_of_error (hc.u32_of_short h)⟩
  | @header kind rest words hk h0 hw h3 h =>
    obtain ⟨_, rk, hc⟩ := hc.u32 hk
    rw [Read.bind_of_ok rk, if_neg h0]
    -- the words that are there are read, and the next one is not
    match words with
    | [] =>
      have hn : offset + 4 = offset + (4 + ([] : List Bytes).flatten.length : Nat) := rfl
      exact ⟨_, Read.bind_of_error (hn ▸ hc.u32_of_short h)⟩
    | [whole] =>
      have l1 := hw whole List.mem_cons_self
      rw [List.flatten_singleton] at hc ⊢
      obtain ⟨_, rt, hc⟩ := hc.u32 l1
      have hn : offset + 4 + 4 = offset + (4 + whole.length : Nat) := by omega
      rw [Read.bind_of_ok rt]
      exact ⟨_, Read.bind_of_error (hn ▸ hc.u32_of_short h)⟩
    | [whole, area] =>
      have l1 := hw whole List.mem_cons_self
      have l2 := hw area (List.mem_cons_of_mem _ List.mem_cons_self)
      rw [List.flatten_cons, List.flatten_singleton] at hc ⊢
      rw [List.append_assoc] at hc
      obtain ⟨_, rt, hc⟩ := hc.u32 l1
      obtain ⟨_, ra, hc⟩ := hc.u32 l2
      have hn : offset + 4 + 4 + 4 = offset + (4 + (whole ++ area).length : Nat) := by
        rw [List.length_append]
        omega
      rw [Read.bind_of_ok rt, Read.bind_of_ok ra]
      exact ⟨_, Read.bind_of_error (hn ▸ hc.u32_of_short h)⟩
    | _ :: _ :: _ :: _ => exact absurd h3 (by simp only [List.length_cons]; omega)
  | sizes hl h0 h =>
    obtain ⟨_, rk, hc⟩ := hc.u32 hl.1
    obtain ⟨_, rt, hc⟩ := hc.u32 hl.2.1
    obtain ⟨_, ra, hc⟩ := hc.u32 hl.2.2.1
    obtain ⟨_, rs, hc⟩ := hc.u32 hl.2.2.2
    rw [Read.bind_of_ok rk, if_neg h0, Read.bind_of_ok rt, Read.bind_of_ok ra, Read.bind_of_ok rs,
      if_neg (by omega)]
    exact ⟨_, rfl⟩
  | body hl h0 hs h =>
    obtain ⟨_, rk, hc⟩ := hc.u32 hl.1
    obtain ⟨_, rt, hc⟩ := hc.u32 hl.2.1
    obtain ⟨_, ra, hc⟩ := hc.u32 hl.2.2.1
    obtain ⟨_, rs, hc⟩ := hc.u32 hl.2.2.2
    have hn : offset + 4 + 4 + 4 + 4 = offset + sectionHeaderSize := by
      rw [show (sectionHeaderSize : Int) = 16 from rfl]
      omega
    rw [Read.bind_of_ok rk, if_neg h0, Read.bind_of_ok rt, Read.bind_of_ok ra, Read.bind_of_ok rs,
      if_pos (by omega)]
    exact ⟨_, Read.bind_of_error (hn ▸ hc.slice_of_short h)⟩

theorem readAll_of_break {pieces : List Bytes} {ss : List Section} {e : Fault}
    (h : List.Forall₂ Stored pieces ss) (hb : Break (offset + pieces.flatten.length) total rest e)
    (hc : c.At offset total (pieces.flatten ++ rest)) (found : Array Section) :
    readAll c found = .error e := by
  induction h generalizing c offset found with
  | nil =>
    rw [List.flatten_nil, List.length_nil, Int.natCast_zero, Int.add_zero] at hb
    have hpos := hb.length_pos
    have hlen := hc.remaining
    obtain ⟨c', he⟩ := read_of_break hb hc
    exact readAll_error (by rw [hlen]; exact Int.ofNat_ne_zero.2 (Nat.ne_of_gt hpos)) he
  | cons hs _ ih =>
    have hpos := length_pos_of_stored hs
    have hlen := hc.remaining
    rw [List.flatten_cons, List.length_append, Int.natCast_add, ← Int.add_assoc] at hb
    rw [List.flatten_cons, List.append_assoc] at hc hlen
    rw [List.length_append] at hlen
    obtain ⟨c', hr, hc'⟩ := read_of_stored hs hc
    rw [readAll_section (by omega) hr]
    exact ih hb hc' _

end Section

namespace Table

/-- Sections are read as a table, whatever is in them. -/
theorem exists_read_of_sections {data : Bytes} {ss : List Section} (h : Sections data ss) :
    ∃ t, read data = .ok t := by
  obtain ⟨tables, htables⟩ := exists_mapM fun s (_ : s ∈ ss) => exists_ofSection s
  have hall := Section.readAll_of_sections h (Cursor.inside_whole _) (Cursor.view_whole _) #[]
  exact ⟨_, bind_eq_ok_iff.2 ⟨_, hall, bind_eq_ok_iff.2 ⟨tables, htables, rfl⟩⟩⟩

theorem read_of_break {pieces : List Bytes} {ss : List Section} {rest : Bytes} {e : Fault}
    (h : List.Forall₂ Section.Stored pieces ss)
    (hb : Break pieces.flatten.length (pieces.flatten ++ rest).length rest e) :
    read (pieces.flatten ++ rest) = .error e := by
  have hall := Section.readAll_of_break h (by rwa [Int.zero_add]) (Cursor.at_whole _) #[]
  unfold read
  rw [hall]
  rfl

/-- Data are read as a table just if they are sections up to their end or up to an end mark.
All other data are sections in front of a break, and the break is the fault of reading. -/
theorem read_grammar (data : Bytes) :
    ((∃ t, read data = .ok t) ↔ ∃ ss, Sections data ss) ∧
      ∀ e, read data = .error e ↔ ∃ pieces ss rest, data = pieces.flatten ++ rest ∧
        List.Forall₂ Section.Stored pieces ss ∧
        Break pieces.flatten.length data.length rest e := by
  rcases sections_or_break 0 data.length data with ⟨ss, hss⟩ | ⟨pieces, ss, rest, e, rfl, hss, hb⟩
  · obtain ⟨t, ht⟩ := exists_read_of_sections hss
    refine ⟨⟨fun _ => ⟨ss, hss⟩, fun _ => ⟨t, ht⟩⟩, fun e => ⟨fun he => ?_, ?_⟩⟩
    · cases ht.symm.trans he
    · rintro ⟨pieces, ss, rest, rfl, hss, hb⟩
      exact read_of_break hss hb
  · rw [Int.zero_add] at hb
    have he := read_of_break hss hb
    refine ⟨⟨?_, ?_⟩, fun e' => ⟨fun he' => ?_, ?_⟩⟩
    · rintro ⟨t, ht⟩
      cases he.symm.trans ht
    · rintro ⟨ss, hss⟩
      exact exists_read_of_sections hss
    · cases he.symm.trans he'
      exact ⟨pieces, ss, rest, rfl, hss, hb⟩
    · rintro ⟨pieces, ss, rest, heq, hss, hb⟩
      rw [heq] at hb ⊢
      exact read_of_break hss hb

/-- A header that states less than its own size is whole, and its sizes do not fit. -/
example : read [3, 0, 0, 0, 10, 0, 0, 0, 0, 0, 0, 0, 0, 0, 0, 0] =
    .error (.sectionSizes (-6) 0) := by
  cbv

end Table

end Entity
end QuestArchive
