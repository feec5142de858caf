import QuestArchive.Proofs.Archive.File

/-!
# A written archive is read again

The chunks of all files stand in turn, number by number.  Those of one name are the chunks
of one file, so that two files are read as they are and in their order.
-/

namespace QuestArchive
namespace Archive

/-! ## The chunks of all files -/

section Order

variable {files : List NewMember} {f : NewMember}

/-- The chunks of some files as they are read, in the order in which they are written. -/
def chunksOf (files : List NewMember) : List Chunk :=
  (chunkOrder files).map fun c => c.1.chunkOf c.2

def rounds (files : List NewMember) : Nat := (files.map (·.chunkCount)).foldl max 0

theorem chunkCount_le_rounds (h : f ∈ files) : f.chunkCount ≤ rounds files :=
  le_foldl_max.2 _ (List.mem_map_of_mem h)

theorem chunksOf_eq (files : List NewMember) :
    chunksOf files = (List.range (rounds files)).flatMap fun n =>
      (files.filter (n < ·.chunkCount)).map (·.chunkOf n) := by
  unfold chunksOf chunkOrder
  rw [List.map_flatMap]
  refine List.flatMap_congr fun n _ => ?_
  rw [List.map_map]
  rfl

theorem filter_name (hn : (files.map (·.name)).Nodup) (h : f ∈ files) :
    files.filter (·.name = f.name) = [f] := by
  induction files with
  | nil => cases h
  | cons g files ih =>
    rw [List.map_cons, List.nodup_cons] at hn
    rcases List.mem_cons.1 h with rfl | h
    · rw [List.filter_cons_of_pos (by simp)]
      congr 1
      refine List.filter_eq_nil_iff.2 fun g hg he => hn.1 ?_
      exact List.mem_map.2 ⟨g, hg, of_decide_eq_true he⟩
    · rw [List.filter_cons_of_neg, ih hn.2 h]
      intro he
      exact hn.1 (List.mem_map.2 ⟨f, h, (of_decide_eq_true he : g.name = f.name).symm⟩)

theorem flatMap_range_ite {α : Type} (g : Nat → α) {k m : Nat} (h : k ≤ m) :
    (List.range m).flatMap (fun n => if n < k then [g n] else []) = (List.range k).map g := by
  obtain ⟨d, rfl⟩ := Nat.le.dest h
  rw [List.range_add, List.flatMap_append, List.flatMap_map]
  have hfront : (List.range k).flatMap (fun n => if n < k then [g n] else []) =
      (List.range k).flatMap fun n => [g n] :=
    List.flatMap_congr fun n hn => if_pos (List.mem_range.1 hn)
  have hback : (List.range d).flatMap (fun n => if k + n < k then [g (k + n)] else []) = [] :=
    List.flatMap_eq_nil_iff.2 fun n _ => if_neg (by omega)
  rw [hfront, hback, List.append_nil, List.map_eq_flatMap]

theorem filter_chunksOf (hn : (files.map (·.name)).Nodup) (h : f ∈ files) :
    (chunksOf files).filter (·.name = f.name) = f.chunksOf := by
  rw [chunksOf_eq, List.filter_flatMap, NewMember.chunksOf,
    ← flatMap_range_ite f.chunkOf (chunkCount_le_rounds h)]
  refine List.flatMap_congr fun n _ => ?_
  rw [List.filter_map]
  show ((files.filter _).filter fun g => decide (g.name = f.name)).map _ = _
  rw [List.filter_filter, ← List.filter_congr fun g _ => Bool.and_comm _ _, ← List.filter_filter,
    filter_name hn h, List.filter_singleton]
  by_cases hlt : n < f.chunkCount
  · rw [if_pos hlt, decide_eq_true hlt]
    rfl
  · rw [if_neg hlt, decide_eq_false hlt]
    rfl

/-- Every file has a chunk in the first round, so that the names occur in the order of the
files. -/
theorem eraseDups_names (hn : (files.map (·.name)).Nodup) (h : ∀ f ∈ files, f.data ≠ []) :
    ((chunksOf files).map (·.name)).eraseDups = files.map (·.name) := by
  cases files with
  | nil => rfl
  | cons g more =>
    have hpos : ∀ f ∈ g :: more, 0 < f.chunkCount := by
      intro f hf
      obtain ⟨last, hcount, -⟩ := chunkCount_bounds (List.length_pos_of_ne_nil (h f hf))
      show 0 < chunkCount f.data.length
      omega
    obtain ⟨k, hk⟩ := Nat.exists_eq_add_of_lt
      (Nat.lt_of_lt_of_le (hpos g List.mem_cons_self) (chunkCount_le_rounds List.mem_cons_self))
    have hfirst : (g :: more).filter (0 < ·.chunkCount) = g :: more :=
      List.filter_eq_self.2 fun f hf => decide_eq_true (hpos f hf)
    have hnames : ((g :: more).map (·.chunkOf 0)).map (·.name) = (g :: more).map (·.name) := by
      rw [List.map_map]
      rfl
    rw [chunksOf_eq, hk, Nat.zero_add, List.range_succ_eq_map, List.flatMap_cons, hfirst,
      List.map_append, hnames, List.eraseDups_append, eraseDups_eq_self hn]
    have hrest : ∀ names : List String, (∀ name ∈ names, name ∈ (g :: more).map (·.name)) →
        (names.removeAll ((g :: more).map (·.name))).eraseDups = [] := by
      intro names hm
      have hnil : names.removeAll ((g :: more).map (·.name)) = [] := by
        refine List.filter_eq_nil_iff.2 fun name hname => ?_
        rw [List.elem_eq_true_of_mem (hm name hname)]
        exact Bool.false_ne_true
      rw [hnil]
      rfl
    rw [hrest, List.append_nil]
    intro name hname
    obtain ⟨c, hc, rfl⟩ := List.mem_map.1 hname
    obtain ⟨n, -, hc⟩ := List.mem_flatMap.1 hc
    obtain ⟨f, hf, rfl⟩ := List.mem_map.1 hc
    exact List.mem_map.2 ⟨f, (List.mem_filter.1 hf).1, rfl⟩

def Chunk.notices (c : Chunk) : List Notice :=
  if payloadSize < c.size then [.clampedChunk c.size] else []

/-- Where no number comes twice in a file, nothing else is worth a notice. -/
theorem chunkNotices_of_pairwise {cs : List Chunk}
    (hp : cs.Pairwise fun a b => ¬ (a.number = b.number ∧ a.name = b.name)) {earlier : List Chunk}
    (he : ∀ e ∈ earlier, ∀ c ∈ cs, ¬ (e.number = c.number ∧ e.name = c.name)) :
    chunkNotices earlier cs = cs.flatMap Chunk.notices := by
  induction cs generalizing earlier with
  | nil => rfl
  | cons c cs ih =>
    rw [List.pairwise_cons] at hp
    have hdup : (earlier.any fun e => e.number = c.number && e.name = c.name) = false := by
      refine List.any_eq_false.2 fun e hm => ?_
      simpa using he e hm c List.mem_cons_self
    have hrest : ∀ e ∈ c :: earlier, ∀ d ∈ cs, ¬ (e.number = d.number ∧ e.name = d.name) := by
      intro e hm d hd
      rcases List.mem_cons.1 hm with rfl | hm
      · exact hp.1 d hd
      · exact he e hm d (List.mem_cons_of_mem _ hd)
    unfold chunkNotices
    rw [hdup, if_neg Bool.false_ne_true, List.nil_append, ih hp.2 hrest, List.flatMap_cons]
    rfl

theorem chunkNotices_chunksOf (hn : (files.map (·.name)).Nodup) :
    chunkNotices [] (chunksOf files) = [] := by
  rw [chunksOf_eq, chunkNotices_of_pairwise _ fun e he => absurd he List.not_mem_nil]
  · refine List.flatMap_eq_nil_iff.2 fun c hc => ?_
    obtain ⟨n, -, hc⟩ := List.mem_flatMap.1 hc
    obtain ⟨f, -, rfl⟩ := List.mem_map.1 hc
    refine if_neg (Nat.not_lt.2 ?_)
    show (f.part n).length ≤ payloadSize
    rw [NewMember.length_part]
    exact Nat.min_le_left _ _
  · refine List.pairwise_flatMap.2 ⟨fun n _ => ?_, ?_⟩
    · rw [List.pairwise_map]
      have hnames := (List.pairwise_map.1 hn).sublist
        (List.filter_sublist (p := fun f : NewMember => decide (n < f.chunkCount)))
      exact hnames.imp fun hne hand => hne hand.2
    · refine List.nodup_range.imp fun hne c hc d hd hand => hne ?_
      obtain ⟨f, -, rfl⟩ := List.mem_map.1 hc
      obtain ⟨g, -, rfl⟩ := List.mem_map.1 hd
      exact hand.1

end Order

/-! ## The archive -/

theorem groups_eq_map (width count : Nat) (bs : Bytes) :
    Read.groups width count bs =
      (List.range count).map fun i => (bs.drop (i * width)).take width := by
  induction count generalizing bs with
  | zero => rfl
  | succ count ih =>
    rw [Read.groups, ih, List.range_succ_eq_map, List.map_cons, List.map_map, Nat.zero_mul,
      List.drop_zero]
    congr 1
    refine List.map_congr_left fun i _ => ?_
    show _ = (bs.drop ((i + 1) * width)).take width
    rw [List.drop_drop, Nat.succ_mul, Nat.add_comm]

theorem extract_toArray (bs : Bytes) {start stop size : Nat} (h : stop = start + size) :
    (bs.toArray.extract start stop).toList = slot bs start size := by
  rw [Array.toList_extract, List.extract_eq_take_drop, h, Nat.add_sub_cancel_left]
  rfl

theorem recordAt_eq_ok {bs : Bytes} {offset size : Nat} (h : offset + size ≤ bs.length) :
    recordAt bs.toArray offset size = .ok (slot bs offset size) := by
  unfold recordAt
  rw [List.size_toArray, if_neg (Nat.not_lt.2 h), extract_toArray bs rfl]

theorem recordAt_append {front part rest : Bytes} {offset size : Nat}
    (hf : front.length = offset) (hp : part.length = size) :
    recordAt (front ++ (part ++ rest)).toArray offset size = .ok part := by
  have hslot : slot (front ++ (part ++ rest)) (offset + 0) size = part :=
    (slot_behind hf).trans (slot_front hp)
  rw [recordAt_eq_ok (by simp only [List.length_append]; omega)]
  exact congrArg _ hslot

theorem chunks_eq_map (bs : Bytes) :
    chunks bs.toArray = (List.range ((bs.length - 2 * headerSize) / chunkSize)).map fun i =>
      Chunk.ofRecord (slot bs (2 * headerSize + i * chunkSize) chunkSize) := by
  refine List.map_congr_left fun i _ => ?_
  have hstop : 2 * headerSize + (i + 1) * chunkSize =
      2 * headerSize + i * chunkSize + chunkSize := by
    rw [Nat.succ_mul i, Nat.add_assoc]
  rw [extract_toArray bs hstop]

/-- Behind the headers, whole records are read as chunks, and less than a record is left. -/
theorem chunks_append {heads tail : Bytes} {records : List Bytes}
    (hh : heads.length = 2 * headerSize) (hr : ∀ r ∈ records, r.length = chunkSize)
    (ht : tail.length < chunkSize) :
    chunks (heads ++ (records.flatten ++ tail)).toArray = records.map Chunk.ofRecord ∧
      ((heads ++ (records.flatten ++ tail)).length - 2 * headerSize) % chunkSize =
        tail.length := by
  have hlen := length_flatten_of_forall hr
  have hsize : (heads ++ (records.flatten ++ tail)).length - 2 * headerSize =
      tail.length + records.length * chunkSize := by
    simp only [List.length_append, hh, hlen]
    omega
  constructor
  · rw [chunks_eq_map, hsize, Nat.add_mul_div_right _ _ (by decide), Nat.div_eq_of_lt ht,
      Nat.zero_add]
    have hgroups := Read.groups_flatten hr tail
    rw [groups_eq_map] at hgroups
    have hmap := congrArg (List.map Chunk.ofRecord) hgroups
    rw [List.map_map] at hmap
    refine (List.map_congr_left fun i _ => ?_).trans hmap
    rw [slot_behind hh]
    rfl
  · rw [hsize, Nat.add_mul_mod_self_right, Nat.mod_eq_of_lt ht]

/-- What an archive holds, from its headers, its chunks and the number of bytes behind them. -/
def contentsOf (first second : Header) (found : List Chunk) (left : Nat) : Contents :=
  let files := (found.map (·.name)).eraseDups.map (member [first, second] [second, first] found)
  let notices := chunkNotices [] found ++ (if left = 0 then [] else [.trailingBytes left]) ++
    files.flatMap (·.2)
  { version := .blueBurst
    members := files.map (·.1)
    diagnostics := notices.map ({ notice := · }) }

theorem mem_members_contentsOf {first second : Header} {found : List Chunk} {left : Nat}
    {m : Member} : m ∈ (contentsOf first second found left).members ↔
      ∃ c ∈ found, (member [first, second] [second, first] found c.name).1 = m := by
  simp [contentsOf]

theorem read_eq_ok {bs first second : Bytes} (hv : Version.detect bs = .blueBurst)
    (h1 : recordAt bs.toArray 0 headerSize = .ok first)
    (h2 : recordAt bs.toArray headerSize headerSize = .ok second) :
    read bs = .ok (contentsOf (.ofRecord first) (.ofRecord second) (chunks bs.toArray)
      ((bs.length - 2 * headerSize) % chunkSize)) := by
  unfold read
  rw [hv]
  dsimp only
  rw [if_neg (fun h => h rfl), h1, h2]
  exact congrArg Except.ok rfl

/-- An archive of two headers, whole records and a rest is read as these. -/
theorem read_append {first second tail : Bytes} {records : List Bytes}
    (hv : Version.detect (first ++ second ++ (records.flatten ++ tail)) = .blueBurst)
    (h1 : first.length = headerSize) (h2 : second.length = headerSize)
    (hr : ∀ r ∈ records, r.length = chunkSize) (ht : tail.length < chunkSize) :
    read (first ++ second ++ (records.flatten ++ tail)) =
      .ok (contentsOf (.ofRecord first) (.ofRecord second) (records.map Chunk.ofRecord)
        tail.length) := by
  have hheads : (first ++ second).length = 2 * headerSize := by
    rw [List.length_append, h1, h2]
    rfl
  obtain ⟨hchunks, hleft⟩ := chunks_append hheads hr ht
  rw [← hchunks, ← hleft]
  refine read_eq_ok hv ?_ ?_
  · rw [List.append_assoc]
    exact @recordAt_append [] first _ 0 headerSize rfl h1
  · rw [List.append_assoc]
    exact recordAt_append h1 h2

def NewMember.memberOf (f : NewMember) (second : String) : Member where
  name := f.name
  data := f.data
  chunkNumbers := List.range f.chunkCount
  secondName := some second
  questNo := some (f.questNo.getD 0).toNat
  expectedSize := some f.data.length

/-- A file is put together from its chunks, wherever they stand, and from its header. -/
theorem member_chunksOf {headers all : List Header} {found : List Chunk} {f : NewMember}
    {second : String} (hf : f.Storable) (hfound : found.filter (·.name = f.name) = f.chunksOf)
    (hh : headers.find? (·.name = f.name) = some (f.headerOf second))
    (ha : all.find? (·.name = f.name) = some (f.headerOf second)) :
    member headers all found f.name = (f.memberOf second, []) := by
  have hexpected : ((some (f.headerOf second)).map (·.size)) = some f.data.length := rfl
  unfold member
  rw [hfound, hh, ha, hexpected]
  dsimp only
  rw [NewMember.fileSize_chunksOf hf.nonempty,
    NewMember.fileData_chunksOf hf.nonempty, NewMember.chunkNumbers_chunksOf hf.size,
    NewMember.fileNotices_chunksOf hf.nonempty]
  rfl

section

variable {f g : NewMember} {bs : Bytes}

theorem find?_headerOf (h : f.name ≠ g.name) (s t : String) :
    [f.headerOf s, g.headerOf t].find? (·.name = f.name) = some (f.headerOf s) ∧
      [g.headerOf t, f.headerOf s].find? (·.name = f.name) = some (f.headerOf s) := by
  have hg : ¬ decide ((g.headerOf t).name = f.name) = true :=
    fun he => h (of_decide_eq_true he).symm
  have hf : decide ((f.headerOf s).name = f.name) = true := decide_eq_true rfl
  refine ⟨List.find?_cons_of_pos hf, ?_⟩
  refine Eq.trans (b := [f.headerOf s].find? fun h => h.name = f.name) ?_ ?_
  · exact List.find?_cons_of_neg hg
  · exact List.find?_cons_of_pos hf

/-- Files are written as their headers and then the records of their chunks, if none of them is
too long. -/
theorem exists_parts {files : List NewMember} (h : write files = .ok bs) :
    (∀ m ∈ files, m.data.length ≤ maxFileSize) ∧ ∃ heads records : List Bytes,
      bs = heads.flatten ++ records.flatten ∧
      List.Forall₂ (fun m head => m.header = .ok head) files heads ∧
      List.Forall₂ (fun c record => c.1.chunk c.2 = .ok record) (chunkOrder files) records := by
  unfold write at h
  by_cases hmany : 2 < files.length
  · rw [if_pos hmany] at h
    cases h
  · rw [if_neg hmany] at h
    dsimp only at h
    split at h
    · cases h
    · next hnone =>
      obtain ⟨heads, hh, h⟩ := bind_eq_ok_iff.1 h
      obtain ⟨records, hr, h⟩ := bind_eq_ok_iff.1 h
      cases h
      rw [List.find?_eq_none] at hnone
      exact ⟨fun m hm => Nat.le_of_not_lt fun hlt => hnone m hm (decide_eq_true hlt), heads,
        records, rfl, mapM_eq_ok_iff.1 hh, mapM_eq_ok_iff.1 hr⟩

/-- An archive is the headers and then the records of the chunks, and is read as these. -/
structure Laid (f g : NewMember) (bs first second : Bytes) (records : List Bytes) : Prop where
  headers : f.header = .ok first ∧ g.header = .ok second
  written : List.Forall₂ (fun c r => c.1.chunk c.2 = .ok r) (chunkOrder [f, g]) records
  read : read bs = .ok (contentsOf (.ofRecord first) (.ofRecord second)
    (records.map Chunk.ofRecord) 0)

theorem exists_laid (h : write [f, g] = .ok bs) :
    f.data.length ≤ maxFileSize ∧ g.data.length ≤ maxFileSize ∧
      ∃ first second records, Laid f g bs first second records := by
  obtain ⟨hsize, heads, records, rfl, hh, hr⟩ := exists_parts h
  obtain ⟨first, rest, h1, hrest, rfl⟩ := List.forall₂_cons_left_iff.1 hh
  obtain ⟨second, none, h2, hnil, rfl⟩ := List.forall₂_cons_left_iff.1 hrest
  have hlen : ∀ r ∈ records, r.length = chunkSize := by
    intro r hm
    obtain ⟨c, -, hc⟩ := exists_of_forall₂ hr.flip r hm
    exact (NewMember.exists_ofRecord_chunk hc).1
  obtain ⟨l1, hversion, -⟩ := NewMember.exists_ofRecord_header h1
  obtain ⟨l2, -⟩ := NewMember.exists_ofRecord_header h2
  rw [List.forall₂_nil_left_iff.1 hnil, List.flatten_cons, List.flatten_cons, List.flatten_nil,
    List.append_nil]
  refine ⟨hsize f (by simp), hsize g (by simp), first, second, records, ⟨h1, h2⟩, hr, ?_⟩
  rw [← List.append_nil records.flatten]
  refine read_append ?_ l1 l2 hlen (by decide)
  rw [List.append_assoc]
  exact hversion _

theorem exists_write (hf : f.Storable) (hg : g.Storable) (lf : f.Labelled) (lg : g.Labelled) :
    ∃ bs, write [f, g] = .ok bs := by
  obtain ⟨first, h1⟩ := NewMember.exists_header hf lf
  obtain ⟨second, h2⟩ := NewMember.exists_header hg lg
  have hboth : ∀ m ∈ [f, g], m.Storable := by simp [hf, hg]
  have hnone : [f, g].find? (maxFileSize < ·.data.length) = none :=
    List.find?_eq_none.2 fun m hm hlt => Nat.not_lt.2 (hboth m hm).size (of_decide_eq_true hlt)
  obtain ⟨records, hr⟩ := exists_forall₂ (R := fun (c : NewMember × Nat) r => c.1.chunk c.2 = .ok r)
    fun c (hc : c ∈ chunkOrder [f, g]) => by
      obtain ⟨n, -, hc⟩ := List.mem_flatMap.1 hc
      obtain ⟨m, hm, rfl⟩ := List.mem_map.1 hc
      obtain ⟨hm, hlt⟩ := List.mem_filter.1 hm
      exact NewMember.exists_chunk (hboth m hm) (of_decide_eq_true hlt)
  unfold write
  rw [if_neg (show ¬ 2 < [f, g].length from Nat.lt_irrefl 2), hnone, mapM_eq_ok_iff.2 hr,
    mapM_eq_ok_iff.2 (.cons h1 (.cons h2 .nil))]
  exact ⟨_, rfl⟩

/-- A file is read under its name up to the first null character. -/
theorem name_of_write (hw : write [f, g] = .ok bs) {contents : Contents}
    (hr : read bs = .ok contents) : ∀ m ∈ contents.members, ∃ n ∈ [f, g],
      (∀ c ∈ n.name.toList, c.toNat < 128) ∧
        m.name = String.ofList (n.name.toList.takeWhile (· ≠ '\x00')) := by
  obtain ⟨-, -, first, second, records, hl⟩ := exists_laid hw
  rw [hl.read] at hr
  cases hr
  intro m hm
  obtain ⟨chunk, hfound, rfl⟩ := mem_members_contentsOf.1 hm
  obtain ⟨r, hmem, rfl⟩ := List.mem_map.1 hfound
  obtain ⟨c, hc, hchunk⟩ := exists_of_forall₂ hl.written.flip r hmem
  obtain ⟨n, hn, hcn⟩ := List.mem_flatMap.1 hc
  obtain ⟨n', hn', rfl⟩ := List.mem_map.1 hcn
  have hn' := (List.mem_filter.1 hn').1
  refine ⟨n', hn', ?_⟩
  obtain ⟨-, field, hfield, hread⟩ := NewMember.exists_ofRecord_chunk hchunk
  have flen := (NewMember.exists_ofRecord_header hl.headers.1).2.2.1
  have glen := (NewMember.exists_ofRecord_header hl.headers.2).2.2.1
  have hlen : ∀ n ∈ [f, g], n.name.length ≤ maxNameLength := by simp [flen, glen]
  obtain ⟨hascii, hshown⟩ := Field.asciiOf_ascii hfield (hlen n' hn')
  refine ⟨hascii, ?_⟩
  show (Chunk.ofRecord r).name = _
  rw [hread, ← hshown]

/-- Two files of different names are read as they were written, in their order. -/
theorem read_of_write (hne : f.name ≠ g.name) (hf : Field.IsName f.name) (hg : Field.IsName g.name)
    (f0 : f.data ≠ []) (g0 : g.data ≠ []) (hw : write [f, g] = .ok bs) :
    ∃ s t, read bs = .ok { version := .blueBurst, members := [f.memberOf s, g.memberOf t]
                           diagnostics := [] } ∧
      (Field.IsName f.secondNameOrDefault → s = f.secondNameOrDefault) ∧
      (Field.IsName g.secondNameOrDefault → t = g.secondNameOrDefault) := by
  obtain ⟨fmax, gmax, first, second, records, hl⟩ := exists_laid hw
  obtain ⟨h1, h2⟩ := hl.headers
  obtain ⟨-, -, fname, -⟩ := NewMember.exists_ofRecord_header h1
  obtain ⟨-, -, gname, -⟩ := NewMember.exists_ofRecord_header h2
  obtain ⟨s, r1, hs⟩ := NewMember.ofRecord_header hf h1
  obtain ⟨t, r2, ht⟩ := NewMember.ofRecord_header hg h2
  have fstored : f.Storable := ⟨hf, fname, f0, fmax⟩
  have gstored : g.Storable := ⟨hg, gname, g0, gmax⟩
  have hboth : ∀ m ∈ [f, g], m.Storable := by simp [fstored, gstored]
  have hnames : ([f, g].map (·.name)).Nodup := by simpa using hne
  have hrecords : ∀ c ∈ chunkOrder [f, g], ∀ r ∈ records, c.1.chunk c.2 = .ok r →
      Chunk.ofRecord r = c.1.chunkOf c.2 := by
    intro c hc r _ hcr
    obtain ⟨n, -, hc⟩ := List.mem_flatMap.1 hc
    obtain ⟨m, hm, rfl⟩ := List.mem_map.1 hc
    exact (NewMember.ofRecord_chunk (hboth m (List.mem_filter.1 hm).1) hcr).2
  have hread := forall₂_imp_mem hl.written hrecords
  have hfound : records.map Chunk.ofRecord = chunksOf [f, g] := by
    unfold chunksOf
    exact (map_eq_map_of_forall₂ (hread.imp fun _ _ h => h.symm)).symm
  have hmembers : ((chunksOf [f, g]).map (·.name)).eraseDups = [f.name, g.name] :=
    eraseDups_names hnames fun m hm => (hboth m hm).nonempty
  have ffound := filter_chunksOf hnames (List.mem_cons_self (a := f) (l := [g]))
  have gfound := filter_chunksOf hnames (List.mem_cons_of_mem f (List.mem_cons_self (a := g)))
  have fmember : member [f.headerOf s, g.headerOf t] [g.headerOf t, f.headerOf s] (chunksOf [f, g])
      f.name = (f.memberOf s, []) := by
    obtain ⟨hh, ha⟩ := find?_headerOf hne s t
    exact member_chunksOf fstored ffound hh ha
  have gmember : member [f.headerOf s, g.headerOf t] [g.headerOf t, f.headerOf s] (chunksOf [f, g])
      g.name = (g.memberOf t, []) := by
    obtain ⟨ha, hh⟩ := find?_headerOf hne.symm t s
    exact member_chunksOf gstored gfound hh ha
  refine ⟨s, t, ?_, hs, ht⟩
  rw [hl.read]
  unfold contentsOf
  rw [hfound, if_pos rfl, chunkNotices_chunksOf hnames, hmembers, r1, r2,
    List.map_cons, List.map_singleton, fmember, gmember]
  rfl

end

end Archive
end QuestArchive
