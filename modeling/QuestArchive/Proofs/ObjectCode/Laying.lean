import QuestArchive.Proofs.ObjectCode.Encoding
import QuestArchive.Proofs.ObjectCode.Lossless
import QuestArchive.Proofs.ObjectCode.Placing

/-!
# The layout of written segments

Segments that have content are written one behind the other, and the starts of the label
table are just their offsets: each start has the labels of its segment and stops where that
segment ends.
-/

namespace QuestArchive

def Segment.HasContent : Segment → Prop
  | .code _ instructions => instructions ≠ []
  | .data _ bytes => bytes ≠ []
  | .text _ value => value ≠ []

namespace ObjectCode

/-- Code and data with content and labels that number entries of the label table, made of
instructions that can be stored. -/
structure Regular (segments : List Segment) : Prop where
  kind : ∀ s ∈ segments, s.kind ≠ .text
  content : ∀ s ∈ segments, s.HasContent
  instructions : ∀ ls is, .code ls is ∈ segments → ∀ i ∈ is, i.WellFormed ∧ i.Storable
  labels : ∀ s ∈ segments, s.labels ≠ [] ∧ s.labels.Pairwise (· < ·) ∧ ∀ l ∈ s.labels, 0 ≤ l
  distinct : (segments.flatMap Segment.labels).Nodup

/-- Segments with their offsets, from a position on. -/
def laid (pos : Int) : List Segment → List (Int × Segment)
  | [] => []
  | s :: rest => (pos, s) :: laid (pos + s.extent) rest

theorem map_snd_laid (pos : Int) (segments : List Segment) :
    (laid pos segments).map Prod.snd = segments := by
  induction segments generalizing pos with
  | nil => rfl
  | cons s rest ih => rw [laid, List.map_cons, ih]

theorem laid_append (pos : Int) (xs ys : List Segment) :
    laid pos (xs ++ ys) = laid pos xs ++ laid (pos + total (xs.map (·.extent))) ys := by
  induction xs generalizing pos with
  | nil =>
    rw [List.map_nil, total, Int.add_zero]
    rfl
  | cons x xs ih => rw [List.cons_append, laid, laid, ih, List.map_cons, total, ← Int.add_assoc,
      List.cons_append]

/-- Tiles stand where their segments come to lie when they are laid one behind the other. -/
theorem laid_of_tiles {code : Array UInt8} {entries : List (Int × Segment)} {pos : Int}
    (h : Tiles code pos entries) : laid pos (entries.map Prod.snd) = entries := by
  induction entries generalizing pos with
  | nil => rfl
  | cons entry rest ih =>
    obtain ⟨o, seg⟩ := entry
    obtain ⟨rfl, -, -, -, hr⟩ := h
    rw [List.map_cons, laid, ih hr]

/-- The segments of a script that was read lie at the offsets that they were read from. -/
theorem laid_reading {s : Input} {offsets : List Int} {p : Progress} (h : s.Reads offsets p.done) :
    laid 0 (reading s p).segments = (s.fill p.done).toList := by
  unfold reading
  dsimp only
  rw [Offsets.values_eq, laid_of_tiles (tiles_fill h)]

theorem mem_laid_reading {s : Input} {offsets : List Int} {p : Progress}
    (h : s.Reads offsets p.done) {o : Int} {seg : Segment} :
    (o, seg) ∈ laid 0 (reading s p).segments ↔ (s.fill p.done)[o]? = some seg := by
  rw [laid_reading h]
  exact Std.TreeMap.mem_toList_iff_getElem?_eq_some

theorem mem_placed {segments : List Segment} {pos o l : Int} :
    (l, o) ∈ placed pos segments ↔ ∃ s, (o, s) ∈ laid pos segments ∧ l ∈ s.labels := by
  induction segments generalizing pos with
  | nil => simp [placed, laid]
  | cons s rest ih =>
    rw [placed, laid, List.mem_append, ih, List.mem_map]
    constructor
    · intro h
      rcases h with ⟨l', hl, he⟩ | ⟨t, ht, hl⟩
      · cases he
        exact ⟨s, List.mem_cons_self, hl⟩
      · exact ⟨t, List.mem_cons_of_mem _ ht, hl⟩
    · intro h
      obtain ⟨t, ht, hl⟩ := h
      rcases List.mem_cons.1 ht with he | ht
      · cases he
        exact Or.inl ⟨l, hl, rfl⟩
      · exact Or.inr ⟨t, ht, hl⟩

section Offsets

variable {segments : List Segment} {pos : Int}

theorem mem_of_laid {o : Int} {s : Segment} (h : (o, s) ∈ laid pos segments) : s ∈ segments := by
  rw [← map_snd_laid pos segments]
  exact List.mem_map_of_mem h

theorem exists_laid {s : Segment} (h : s ∈ segments) : ∃ o, (o, s) ∈ laid pos segments := by
  rw [← map_snd_laid pos segments] at h
  obtain ⟨⟨o, t⟩, ht, rfl⟩ := List.mem_map.1 h
  exact ⟨o, ht⟩

/-- Segments lie between the places where the first begins and the last ends. -/
theorem bounds_of_laid (h : ∀ s ∈ segments, 0 ≤ s.extent) {pos o : Int} {s : Segment}
    (hl : (o, s) ∈ laid pos segments) :
    pos ≤ o ∧ o + s.extent ≤ pos + total (segments.map (·.extent)) := by
  induction segments generalizing pos with
  | nil => exact absurd hl List.not_mem_nil
  | cons t rest ih =>
    obtain ⟨ht, hrest⟩ := List.forall_mem_cons.1 h
    have htotal := @total_nonneg (rest.map (·.extent)) (List.forall_mem_map.2 hrest)
    rw [List.map_cons, total]
    rcases List.mem_cons.1 hl with he | hl
    · cases he
      omega
    · have hb := ih hrest hl
      omega

theorem ordered_laid (hpos : ∀ s ∈ segments, 0 < s.extent) :
    (laid pos segments).Pairwise fun a b => a.1 + a.2.extent ≤ b.1 := by
  induction segments generalizing pos with
  | nil => exact List.Pairwise.nil
  | cons s rest ih =>
    have hrest := fun t ht => hpos t (List.mem_cons_of_mem _ ht)
    have hnonneg := fun t ht => Int.le_of_lt (hrest t ht)
    exact List.pairwise_cons.2 ⟨fun e he => (bounds_of_laid hnonneg he).1, ih hrest⟩

theorem sorted_laid (hpos : ∀ s ∈ segments, 0 < s.extent) :
    (laid pos segments).Pairwise (·.1 < ·.1) := by
  refine (ordered_laid hpos).imp_of_mem ?_
  intro a b ha _ hle
  have h := hpos a.2 (@mem_of_laid segments pos a.1 a.2 ha)
  omega

theorem apart_of_laid (hpos : ∀ s ∈ segments, 0 < s.extent) {o o' : Int} {s s' : Segment}
    (h : (o, s) ∈ laid pos segments) (h' : (o', s') ∈ laid pos segments) (hlt : o < o') :
    o + s.extent ≤ o' := by
  have hord : (laid pos segments).Pairwise fun a b => a.1 < b.1 → a.1 + a.2.extent ≤ b.1 := by
    refine (ordered_laid hpos).imp ?_
    intro _ _ hle _
    exact hle
  have hflip : (laid pos segments).Pairwise fun a b => b.1 < a.1 → b.1 + b.2.extent ≤ a.1 :=
    (sorted_laid hpos).imp fun hlt hlt' => absurd hlt' (Int.lt_asymm hlt)
  exact hord.forall_of_forall_of_flip (fun _ _ hlt => absurd hlt (Int.lt_irrefl _)) hflip h h' hlt

theorem eq_of_laid (hpos : ∀ s ∈ segments, 0 < s.extent) {o : Int} {s s' : Segment}
    (h : (o, s) ∈ laid pos segments) (h' : (o, s') ∈ laid pos segments) : s = s' := by
  have hkey : (laid pos segments).Pairwise fun a b => a.1 = b.1 → a = b :=
    (sorted_laid hpos).imp fun hlt he => absurd he (Int.ne_of_lt hlt)
  have hflip : (laid pos segments).Pairwise fun a b => b.1 = a.1 → b = a :=
    (sorted_laid hpos).imp fun hlt he => absurd he (Int.ne_of_gt hlt)
  exact congrArg Prod.snd (hkey.forall_of_forall_of_flip (fun _ _ _ => rfl) hflip h h' rfl)

theorem laid_next {before after : List Segment} {s t : Segment}
    (he : segments = before ++ s :: t :: after) :
    ∃ o, (o, s) ∈ laid pos segments ∧ (o + s.extent, t) ∈ laid pos segments := by
  rw [he, laid_append]
  exact ⟨_, List.mem_append_right _ List.mem_cons_self,
    List.mem_append_right _ (List.mem_cons_of_mem _ List.mem_cons_self)⟩

/-- Where a segment ends, the segments end or the next one of the list begins. -/
theorem laid_cases {o : Int} {s : Segment} (h : (o, s) ∈ laid pos segments) :
    o + s.extent = pos + total (segments.map (·.extent)) ∨
      ∃ before t after, segments = before ++ s :: t :: after ∧
        (o + s.extent, t) ∈ laid pos segments := by
  induction segments generalizing pos with
  | nil => exact absurd h List.not_mem_nil
  | cons r rest ih =>
    rcases List.mem_cons.1 h with he | h
    · cases he
      cases rest with
      | nil => exact Or.inl (by simp [total])
      | cons t after =>
        exact Or.inr ⟨[], t, after, rfl, List.mem_cons_of_mem _ List.mem_cons_self⟩
    · rcases ih h with he | ⟨before, t, after, rfl, ht⟩
      · refine Or.inl ?_
        rw [he, List.map_cons, total]
        omega
      · exact Or.inr ⟨r :: before, t, after, rfl, List.mem_cons_of_mem _ ht⟩

end Offsets

/-! ## Writing -/

theorem length_pos_of_writeInstruction {i : Instruction} {bs : Bytes} (h : i.WellFormed)
    (hw : writeInstruction i = .ok bs) : 0 < bs.length := by
  obtain ⟨front, code, hn, -, hop⟩ := exists_number h.opcode
  unfold writeInstruction at hw
  rw [hop, ok_bind] at hw
  obtain ⟨parts, -, hw⟩ := bind_eq_ok_iff.1 hw
  cases hw
  rw [List.length_append]
  exact Nat.add_pos_left (length_pos_of_number hn) _

theorem exists_holds {s : Segment} (hk : s.kind ≠ .text)
    (hi : ∀ ls is, s = .code ls is → ∀ i ∈ is, i.WellFormed ∧ i.Storable) :
    ∃ bs, Holds bs s ∧ writeSegment s = .ok bs := by
  cases s with
  | code ls is =>
    obtain ⟨bs, parts, hs, hp, hflat⟩ := exists_storesAll (hi ls is rfl)
    refine ⟨bs, hs, ?_⟩
    show (is.mapM writeInstruction >>= fun parts => _) = _
    rw [hp, ← hflat]
    rfl
  | data ls bytes => exact ⟨bytes, rfl, rfl⟩
  | text ls value => exact absurd rfl hk

theorem extent_pos {bs : Bytes} {s : Segment} (h : Holds bs s) (hc : s.HasContent) :
    0 < s.extent := by
  rw [extent_of_holds h]
  cases s with
  | code ls is =>
    cases h with
    | nil => exact absurd rfl hc
    | cons h _ =>
      have hp := length_pos_of_stores h
      rw [List.length_append]
      omega
  | data ls bytes =>
    rw [← show bytes = bs from h]
    exact Int.natCast_pos.2 (List.length_pos_iff.2 hc)
  | text ls value => exact h.elim

theorem tiles_laid {segments : List Segment} {pieces : List Bytes}
    (h : List.Forall₂ Holds pieces segments) (front : Bytes) :
    Tiles (front ++ pieces.flatten).toArray front.length (laid front.length segments) := by
  induction h generalizing front with
  | nil =>
    show (front.length : Int) = _
    simp
  | @cons piece s pieces segments hs _ ih =>
    have hext := extent_of_holds hs
    have hnext := ih (front ++ piece)
    rw [List.append_assoc, ← List.flatten_cons, List.length_append, Nat.cast_add, ← hext] at hnext
    have hsize : ((front ++ (piece :: pieces).flatten).toArray.size : Int) =
        front.length + piece.length + pieces.flatten.length := by
      simp [Int.add_assoc]
    refine ⟨rfl, by omega, by omega, ?_, hnext⟩
    rw [List.flatten_cons, hext, Cursor.span_middle]
    exact hs

structure Fills (s : Segment) (bs : Bytes) : Prop where
  write : writeSegment s = .ok bs
  length : s.extent = bs.length
  size : s.size = .ok s.extent

theorem fills_of_holds {s : Segment} {bs : Bytes} (h : Holds bs s) (hw : writeSegment s = .ok bs) :
    Fills s bs :=
  ⟨hw, extent_of_holds h, size_of_holds h⟩

/-- Segments of sizes that are kept have a stored form, if their labels can be placed.  The
label table gives the offsets of their labels and nothing else, and reaches to the largest. -/
theorem exists_write_of_fills {segments : List Segment} {pieces : List Bytes}
    (h : List.Forall₂ Fills segments pieces) (hn : (segments.flatMap Segment.labels).Nodup)
    (h0 : ∀ s ∈ segments, ∀ l ∈ s.labels, 0 ≤ l) :
    ∃ offsets, write segments = .ok ⟨pieces.flatten, offsets⟩ ∧
      (∀ o s, (o, s) ∈ laid 0 segments → ∀ l ∈ s.labels, offsets[l.toNat]? = some o) ∧
      (∀ (n : Nat) (o : Int), offsets[n]? = some o →
        o = -1 ∨ ∃ s, (o, s) ∈ laid 0 segments ∧ (n : Int) ∈ s.labels) ∧
      ∀ n : Nat, n < offsets.length ↔ ∃ s ∈ segments, ∃ l ∈ s.labels, (n : Int) ≤ l := by
  have htotal := total_of_forall₂ (h.imp fun _ _ hs => hs.length)
  have hm : segments.mapM writeSegment = .ok pieces :=
    mapM_eq_ok_iff.2 (h.imp fun _ _ hs => hs.write)
  have hsize : ∀ s ∈ segments, s.size = .ok s.extent := by
    intro s hs
    obtain ⟨bs, -, hb⟩ := exists_of_forall₂ h s hs
    exact hb.size
  obtain ⟨table, ht, hset, honly, hcount⟩ := Placement.table_ok
    (p := ⟨(placed 0 segments).reverse, total (segments.map (·.extent))⟩)
    (by
      intro e he
      obtain ⟨s, hs, hl⟩ := mem_placed.1 (List.mem_reverse.1 he)
      exact h0 s (mem_of_laid hs) e.1 hl)
    (by
      rw [List.map_reverse, List.nodup_reverse, map_fst_placed]
      exact hn)
  refine ⟨table, ?_, ?_, ?_, ?_⟩
  · unfold write
    rw [Placement.ofSegments_ok hsize hn]
    show (segments.mapM writeSegment >>= fun parts => _) = _
    rw [hm]
    show (if (pieces.flatten.length : Int) ≠ _ then _ else _) = _
    rw [htotal, if_neg (by simp)]
    show (Placement.table _ >>= fun table => _) = _
    rw [← htotal, ht]
    rfl
  · exact fun o s hs l hl => hset (l, o) (List.mem_reverse.2 (mem_placed.2 ⟨s, hs, hl⟩))
  · exact fun n o ho => (honly n o ho).imp_right fun he => mem_placed.1 (List.mem_reverse.1 he)
  · intro n
    rw [hcount]
    constructor
    · intro h
      obtain ⟨e, he, hle⟩ := h
      obtain ⟨s, hs, hl⟩ := mem_placed.1 (List.mem_reverse.1 he)
      exact ⟨s, mem_of_laid hs, e.1, hl, hle⟩
    · intro h
      obtain ⟨s, hs, l, hl, hle⟩ := h
      obtain ⟨o, ho⟩ := exists_laid hs
      exact ⟨(l, o), List.mem_reverse.2 (mem_placed.2 ⟨s, ho, hl⟩), hle⟩

/-- Segments that hold what is written for them have a stored form, if their labels can be
placed, and tile it. -/
theorem exists_write_of_holds {segments : List Segment}
    (h : ∀ s ∈ segments, ∃ bs, Holds bs s ∧ writeSegment s = .ok bs)
    (hn : (segments.flatMap Segment.labels).Nodup) (h0 : ∀ s ∈ segments, ∀ l ∈ s.labels, 0 ≤ l) :
    ∃ stored, write segments = .ok stored ∧ Tiles stored.code.toArray 0 (laid 0 segments) ∧
      (∀ o s, (o, s) ∈ laid 0 segments → ∀ l ∈ s.labels, stored.offsets[l.toNat]? = some o) ∧
      ∀ (n : Nat) (o : Int), stored.offsets[n]? = some o →
        o = -1 ∨ ∃ s, (o, s) ∈ laid 0 segments ∧ (n : Int) ∈ s.labels := by
  obtain ⟨pieces, hp⟩ := exists_forall₂
    (R := fun s bs => Holds bs s ∧ writeSegment s = .ok bs) h
  have hfills := hp.imp fun _ _ hs => fills_of_holds hs.1 hs.2
  have htiles : Tiles pieces.flatten.toArray 0 (laid 0 segments) :=
    tiles_laid (hp.flip.imp fun _ _ hs => hs.1) []
  obtain ⟨offsets, hw, hset, honly, -⟩ := exists_write_of_fills hfills hn h0
  exact ⟨⟨pieces.flatten, offsets⟩, hw, htiles, hset, honly⟩

/-- Regular segments have a stored form, and its label table gives just their offsets. -/
theorem exists_write {segments : List Segment} (h : Regular segments) :
    ∃ stored, write segments = .ok stored ∧ Tiles stored.code.toArray 0 (laid 0 segments) ∧
      (∀ s ∈ segments, 0 < s.extent) ∧ ∀ (n : Nat) (o : Int),
        stored.offsets[n]? = some o ∧ o ≠ -1 ↔
          ∃ s, (o, s) ∈ laid 0 segments ∧ (n : Int) ∈ s.labels := by
  have hholds : ∀ s ∈ segments, ∃ bs, Holds bs s ∧ writeSegment s = .ok bs := fun s hs =>
    exists_holds (h.kind s hs) fun ls is he i hi => h.instructions ls is (he ▸ hs) i hi
  have hpos : ∀ s ∈ segments, 0 < s.extent := by
    intro s hs
    obtain ⟨bs, hb, -⟩ := hholds s hs
    exact extent_pos hb (h.content s hs)
  obtain ⟨stored, hw, htiles, hset, honly⟩ :=
    exists_write_of_holds hholds h.distinct fun s hs => (h.labels s hs).2.2
  refine ⟨stored, hw, htiles, hpos, fun n o => ⟨fun ho => (honly n o ho.1).resolve_left ho.2, ?_⟩⟩
  intro ho
  obtain ⟨s, hs, hl⟩ := ho
  have hle := (bounds_of_laid (fun t ht => Int.le_of_lt (hpos t ht)) hs).1
  refine ⟨hset o s hs n hl, ?_⟩
  omega

end ObjectCode
end QuestArchive
