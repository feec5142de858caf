import QuestArchive.Proofs.Bytes.Field
import QuestArchive.Quest.ScriptFile

/-!
# The script file around its object code

The fields of the header are read as they were written, and code and label table are cut out
where the header says.  So a written file is read as the reading of its code.
-/

namespace QuestArchive
namespace ScriptFile

open Read (Describes)

/-! ## The header -/

structure HeaderParts where
  codeOffset : Bytes
  tableOffset : Bytes
  size : Bytes
  ones : Bytes
  questId : Bytes
  language : Bytes
  name : Bytes
  shortDescription : Bytes
  longDescription : Bytes
  zeros : Bytes
  shopItems : Bytes

namespace HeaderParts

def bytes (p : HeaderParts) : Bytes :=
  p.codeOffset ++ (p.tableOffset ++ (p.size ++ (p.ones ++ (p.questId ++ (p.language ++
    (p.name ++ (p.shortDescription ++ (p.longDescription ++ (p.zeros ++ p.shopItems)))))))))

def Sized (p : HeaderParts) : Prop :=
  p.codeOffset.length = 4 ∧ p.tableOffset.length = 4 ∧ p.size.length = 4 ∧ p.ones.length = 4 ∧
    p.questId.length = 4 ∧ p.language.length = 4 ∧ p.name.length = nameSize ∧
    p.shortDescription.length = shortDescriptionSize ∧
    p.longDescription.length = longDescriptionSize ∧ p.zeros.length = 4 ∧
    p.shopItems.length = 4 * shopItemCount

def header (p : HeaderParts) (labelOffsets : List Int) : Header where
  codeOffset := Word.decode p.codeOffset
  tableOffset := Word.decode p.tableOffset
  size := Word.decode p.size
  questId := Word.decode p.questId
  language := Word.decode p.language
  name := Text.decode16 (Text.beforeNull p.name)
  shortDescription := Text.decode16 (Text.beforeNull p.shortDescription)
  longDescription := Text.decode16 (Text.beforeNull p.longDescription)
  shopItems := (Read.groups 4 shopItemCount p.shopItems).map Word.decode
  labelOffsets := labelOffsets

theorem length_bytes {p : HeaderParts} (h : p.Sized) : p.bytes.length = headerSize := by
  obtain ⟨l1, l2, l3, l4, l5, l6, l7, l8, l9, l10, l11⟩ := h
  simp only [bytes, List.length_append, l1, l2, l3, l4, l5, l6, l7, l8, l9, l10, l11]
  rfl

end HeaderParts

def readFields : Read Header := do
  let codeOffset ← Read.u32
  let tableOffset ← Read.u32
  let size ← Read.u32
  Read.skip 4
  let questId ← Read.u32
  let language ← Read.u32
  let name ← Read.text nameSize
  let shortDescription ← Read.text shortDescriptionSize
  let longDescription ← Read.text longDescriptionSize
  Read.skip 4
  let shopItems ← Read.u32Array shopItemCount
  return { codeOffset, tableOffset, size, questId, language, name, shortDescription,
           longDescription, shopItems, labelOffsets := [] }

theorem describes_readFields :
    Describes readFields fun bs h =>
      ∃ p : HeaderParts, p.Sized ∧ bs = p.bytes ∧ h = p.header [] := by
  unfold readFields
  refine (Read.describes_u32.bind fun _ codeOffset _ => Read.describes_u32.bind
    fun _ tableOffset _ => Read.describes_u32.bind fun _ size _ => (Read.describes_skip 4).bind
    fun _ _ _ => Read.describes_u32.bind fun _ questId _ => Read.describes_u32.bind
    fun _ language _ => (Read.describes_fieldText nameSize).bind fun _ name _ =>
    (Read.describes_fieldText shortDescriptionSize).bind fun _ shortDescription _ =>
    (Read.describes_fieldText longDescriptionSize).bind fun _ longDescription _ =>
    (Read.describes_skip 4).bind fun _ _ _ =>
    (Read.describes_u32Array shopItemCount).map fun shopItems => (_ : Header)).congr fun bs h => ?_
  constructor
  · rintro ⟨codeOffset, _, _, rfl, ⟨l1, rfl⟩, tableOffset, _, _, rfl, ⟨l2, rfl⟩, size, _, _, rfl,
      ⟨l3, rfl⟩, ones, _, _, rfl, l4, hquest⟩
    obtain ⟨questId, _, _, rfl, ⟨l5, rfl⟩, language, _, _, rfl, ⟨l6, rfl⟩, htexts⟩ := hquest
    obtain ⟨name, _, _, rfl, ⟨l7, rfl⟩, short, _, _, rfl, ⟨l8, rfl⟩, long, _, _, rfl,
      ⟨l9, rfl⟩, hshop⟩ := htexts
    obtain ⟨zeros, shopItems, _, rfl, l10, _, ⟨l11, rfl⟩, rfl⟩ := hshop
    exact ⟨⟨codeOffset, tableOffset, size, ones, questId, language, name, short, long, zeros,
      shopItems⟩, ⟨l1, l2, l3, l4, l5, l6, l7, l8, l9, l10, l11⟩, rfl, rfl⟩
  · rintro ⟨p, ⟨l1, l2, l3, l4, l5, l6, l7, l8, l9, l10, l11⟩, rfl, rfl⟩
    exact ⟨p.codeOffset, _, _, rfl, ⟨l1, rfl⟩, p.tableOffset, _, _, rfl, ⟨l2, rfl⟩, p.size, _, _,
      rfl, ⟨l3, rfl⟩, p.ones, _, (), rfl, l4, p.questId, _, _, rfl, ⟨l5, rfl⟩, p.language, _, _,
      rfl, ⟨l6, rfl⟩, p.name, _, _, rfl, ⟨l7, rfl⟩, p.shortDescription, _, _, rfl, ⟨l8, rfl⟩,
      p.longDescription, _, _, rfl, ⟨l9, rfl⟩, p.zeros, p.shopItems, (), rfl, l10, _, ⟨l11, rfl⟩,
      rfl⟩

def readTable (fileSize : Nat) (h : Header) : Read Header := do
  if h.tableOffset < h.codeOffset ∨ fileSize < h.tableOffset then
    throw (.scriptOffsets h.codeOffset h.tableOffset fileSize)
  Read.seek h.tableOffset
  let labelOffsets ← Read.i32Array ((fileSize - h.tableOffset) / 4 : Nat)
  return { h with labelOffsets }

theorem Header.read_eq (fileSize : Nat) :
    Header.read fileSize = readFields >>= readTable fileSize := by
  unfold Header.read readFields readTable
  simp only [bind_assoc, pure_bind]

def labelsAt (bs : Bytes) (offset : Nat) : List Int :=
  (Read.groups 4 ((bs.length - offset) / 4) (bs.drop offset)).map fun word =>
    Word.signed 4 (Word.decode word)

/-- The label table is read if the object code ends inside the file, and only then. -/
theorem readTable_eq_ok_iff {bs : Bytes} {h h' : Header} {pos : Int} :
    (∃ c, readTable bs.length h { Cursor.whole bs.toArray with pos } = .ok h' c) ↔
      h.codeOffset ≤ h.tableOffset ∧ h.tableOffset ≤ bs.length ∧
        h' = { h with labelOffsets := labelsAt bs h.tableOffset } := by
  unfold readTable
  by_cases hbad : h.tableOffset < h.codeOffset ∨ bs.length < h.tableOffset
  · rw [if_pos hbad]
    constructor
    · intro hr
      obtain ⟨c, hr⟩ := hr
      cases hr
    · intro hr
      omega
  · rw [if_neg hbad]
    -- behind the seek the rest of the file is in view
    have htake : (bs.take h.tableOffset).length = h.tableOffset := by
      rw [List.length_take]
      omega
    have hcut := (Cursor.view_whole bs).trans (List.take_append_drop h.tableOffset bs).symm
    have hin := Cursor.inside_advance (Cursor.inside_whole bs.toArray) hcut
    have hview := Cursor.view_advance (Cursor.inside_whole bs.toArray) hcut
    rw [htake] at hin hview
    have hseek : Read.seek h.tableOffset { Cursor.whole bs.toArray with pos } =
        .ok () ((Cursor.whole bs.toArray).advance h.tableOffset) := by
      unfold Read.seek
      have hsize : ({ Cursor.whole bs.toArray with pos } : Cursor).size = bs.length :=
        (Int.sub_zero _).trans (congrArg Int.ofNat List.size_toArray)
      rw [hsize, if_neg (by omega)]
      rfl
    obtain ⟨c, hwords⟩ : ∃ c, Read.i32Array ((bs.length - h.tableOffset) / 4 : Nat)
        ((Cursor.whole bs.toArray).advance h.tableOffset) = .ok (labelsAt bs h.tableOffset) c := by
      refine ⟨_, (Read.describes_i32Array _).accepts hin
        (hview.trans (List.take_append_drop (4 * ((bs.length - h.tableOffset) / 4)) _).symm)
        ⟨?_, ?_⟩⟩
      · rw [List.length_take, List.length_drop]
        omega
      · rw [Read.groups_take]
        rfl
    have hrun : (do
        Read.seek h.tableOffset
        let labelOffsets ← Read.i32Array ((bs.length - h.tableOffset) / 4 : Nat)
        return { h with labelOffsets } : Read Header) { Cursor.whole bs.toArray with pos } =
        .ok { h with labelOffsets := labelsAt bs h.tableOffset } c := by
      rw [Read.bind_of_ok hseek, Read.bind_of_ok hwords]
      rfl
    constructor
    · intro hr
      obtain ⟨c', hr⟩ := hr
      cases hrun.symm.trans hr
      exact ⟨by omega, by omega, rfl⟩
    · rintro ⟨-, -, rfl⟩
      exact ⟨c, hrun⟩

/-- A file has a header just if it begins with one and its object code ends inside it. -/
theorem header_eq_ok_iff {bs : Bytes} {h : Header} :
    Read.within (.whole bs.toArray) (Header.read bs.length) = .ok h ↔
      ∃ (p : HeaderParts) (rest : Bytes), p.Sized ∧ bs = p.bytes ++ rest ∧
        Word.decode p.codeOffset ≤ Word.decode p.tableOffset ∧
        Word.decode p.tableOffset ≤ bs.length ∧
        h = p.header (labelsAt bs (Word.decode p.tableOffset)) := by
  have hin := Cursor.inside_whole bs.toArray
  rw [Header.read_eq]
  unfold Read.within
  unfold EStateM.run
  constructor
  · intro hr
    split at hr
    · next h' c hrun =>
      cases hr
      obtain ⟨fields, c', hfields, hrun⟩ := Read.ok_of_bind hrun
      obtain ⟨front, rest, hv, ⟨p, hp, rfl, rfl⟩, rfl⟩ := describes_readFields.yields hin hfields
      rw [Cursor.view_whole] at hv
      obtain ⟨hle, hend, rfl⟩ := readTable_eq_ok_iff.1 ⟨c, hrun⟩
      exact ⟨p, rest, hp, hv, hle, hend, rfl⟩
    · cases hr
  · rintro ⟨p, rest, hp, hbs, hle, hend, rfl⟩
    have hfields := describes_readFields.accepts hin ((Cursor.view_whole bs).trans hbs)
      ⟨p, hp, rfl, rfl⟩
    obtain ⟨c, htable⟩ := (@readTable_eq_ok_iff bs (p.header []) _ _).2 ⟨hle, hend, rfl⟩
    rw [Read.bind_of_ok hfields]
    unfold Cursor.advance
    rw [htable]
    rfl

/-! ## Whole files -/

/-- What a script file can hold, its object code aside. -/
structure Storable (f : ScriptFile) : Prop where
  questId : Word.Fits 4 f.questId
  language : Word.Fits 4 f.language
  name : f.name.Fits nameSize
  shortDescription : f.shortDescription.Fits shortDescriptionSize
  longDescription : f.longDescription.Fits longDescriptionSize
  shopCount : f.shopItems.length ≤ shopItemCount
  shopItems : ∀ n ∈ f.shopItems, Word.Fits 4 n

def paddedItems (items : List Int) : List Int :=
  items ++ List.replicate (shopItemCount - items.length) 0

/-- Items are written as words, and zeros take the place of missing ones. -/
theorem items_append {items : List Int} {pieces : List Bytes} (hc : items.length ≤ shopItemCount)
    (h : items.mapM Field.u32 = .ok pieces) :
    (pieces.flatten ++ Field.zeros (4 * (shopItemCount - items.length : Int))).length =
        4 * shopItemCount ∧
      (Read.groups 4 shopItemCount
        (pieces.flatten ++ Field.zeros (4 * (shopItemCount - items.length : Int)))).map
          (fun word => (Word.decode word : Int)) = paddedItems items := by
  have hw := (mapM_eq_ok_iff.1 h).imp fun n p hn =>
    Field.unsigned_eq_ok_iff.1 (show Field.unsigned 4 n = .ok p from hn)
  have hcount : pieces.length = items.length := hw.length_eq.symm
  have hitems : pieces.map (fun p => (Word.decode p : Int)) = items := by
    rw [map_eq_map_of_forall₂ (hw.flip.imp fun _ _ hn => hn.2.symm), List.map_id']
  have hzeros : ∀ k, (List.replicate k (List.replicate 4 (0 : UInt8))).flatten =
      List.replicate (4 * k) 0 := fun k => by rw [List.flatten_replicate_replicate, Nat.mul_comm]
  have hall : pieces.flatten ++ Field.zeros (4 * (shopItemCount - items.length : Int)) =
      (pieces ++ List.replicate (shopItemCount - items.length) (List.replicate 4 0)).flatten := by
    rw [List.flatten_append, hzeros, Field.zeros]
    congr 2
    omega
  have hwidth : ∀ p ∈ pieces ++ List.replicate (shopItemCount - items.length)
      (List.replicate 4 (0 : UInt8)), p.length = 4 := by
    intro p hp
    rcases List.mem_append.1 hp with hp | hp
    · obtain ⟨n, -, hn⟩ := exists_of_forall₂ hw.flip p hp
      exact hn.1
    · rw [List.eq_of_mem_replicate hp, List.length_replicate]
  have htotal : (pieces ++ List.replicate (shopItemCount - items.length)
      (List.replicate 4 (0 : UInt8))).length = shopItemCount := by
    rw [List.length_append, List.length_replicate, hcount]
    omega
  constructor
  · rw [hall, length_flatten_of_forall hwidth, htotal, Nat.mul_comm]
  · have hgroups := Read.groups_flatten hwidth []
    rw [List.append_nil, htotal] at hgroups
    rw [hall, hgroups, List.map_append, hitems, List.map_replicate]
    rfl

theorem labelsAt_append {offsets : List Int} {pieces : List Bytes} {front : Bytes} {start : Nat}
    (h : offsets.mapM Field.i32 = .ok pieces) (hf : front.length = start) :
    labelsAt (front ++ pieces.flatten) start = offsets ∧
      pieces.flatten.length = 4 * offsets.length := by
  have hw := mapM_eq_ok_iff.1 h
  have hlen : ∀ p ∈ pieces, p.length = 4 := by
    intro p hp
    obtain ⟨n, -, hn⟩ := exists_of_forall₂ hw.flip p hp
    exact (Field.i32_eq_ok_iff.1 hn).1
  have htotal : pieces.flatten.length = 4 * pieces.length := by
    rw [length_flatten_of_forall hlen, Nat.mul_comm]
  have hgroups := Read.groups_flatten hlen []
  rw [List.append_nil] at hgroups
  constructor
  · unfold labelsAt
    rw [List.length_append, hf, Nat.add_sub_cancel_left, htotal,
      Nat.mul_div_cancel_left _ (by decide), List.drop_left' hf, hgroups]
    have hmap := map_eq_map_of_forall₂ (f := id)
      (hw.imp fun n p hn => (Field.i32_eq_ok_iff.1 hn).2)
    rw [← hmap, List.map_id]
  · rw [htotal, hw.length_eq]

/-- A written file: its header, its object code, its label table.  Of the texts only those are
read as they were that fit their fields. -/
structure Written (f : ScriptFile) (stored : ObjectCode.Stored) (p : HeaderParts)
    (table : Bytes) : Prop where
  code : ObjectCode.write f.segments = .ok stored
  sized : p.Sized
  codeOffset : Word.decode p.codeOffset = headerSize
  tableOffset : Word.decode p.tableOffset = headerSize + stored.code.length
  size : Word.decode p.size = headerSize + stored.code.length + table.length
  labels : labelsAt (p.bytes ++ (stored.code ++ table)) (headerSize + stored.code.length) =
    stored.offsets
  tableSize : table.length = 4 * stored.offsets.length
  questId : (Word.decode p.questId : Int) = f.questId
  language : (Word.decode p.language : Int) = f.language
  name : f.name.Fits nameSize → Text.decode16 (Text.beforeNull p.name) = f.name
  shortDescription : f.shortDescription.Fits shortDescriptionSize →
    Text.decode16 (Text.beforeNull p.shortDescription) = f.shortDescription
  longDescription : f.longDescription.Fits longDescriptionSize →
    Text.decode16 (Text.beforeNull p.longDescription) = f.longDescription
  shopItems : (Read.groups 4 shopItemCount p.shopItems).map
    (fun word => (Word.decode word : Int)) = paddedItems f.shopItems

variable {f : ScriptFile} {stored : ObjectCode.Stored} {bs : Bytes}

/-- The field of a text has its size, and holds the text if that fits. -/
theorem text_field {t : Text} {size : Nat} {field : Bytes} (h : Field.text t size = .ok field) :
    field.length = size ∧ (t.Fits size → Text.decode16 (Text.beforeNull field) = t) := by
  constructor
  · obtain ⟨units, -, hunits⟩ := bind_eq_ok_iff.1 h
    rw [← Except.ok.inj hunits]
    exact Field.length_fixed size units
  · intro hfits
    obtain ⟨field', hw, -, hback⟩ := Field.exists_text hfits
    cases h.symm.trans hw
    exact hback

theorem written_of_write (hw : f.write = .ok bs) :
    ∃ stored p table, f.Written stored p table ∧ bs = p.bytes ++ (stored.code ++ table) := by
  unfold write at hw
  split at hw
  · cases hw
  · next hc =>
    obtain ⟨stored, hstored, hw⟩ := bind_eq_ok_iff.1 hw
    obtain ⟨questId, hquestId, hw⟩ := bind_eq_ok_iff.1 hw
    obtain ⟨language, hlanguage, hw⟩ := bind_eq_ok_iff.1 hw
    obtain ⟨name, hname, hw⟩ := bind_eq_ok_iff.1 hw
    obtain ⟨short, hshort, hw⟩ := bind_eq_ok_iff.1 hw
    obtain ⟨long, hlong, hw⟩ := bind_eq_ok_iff.1 hw
    obtain ⟨items, hitems, hw⟩ := bind_eq_ok_iff.1 hw
    obtain ⟨table, htable, hw⟩ := bind_eq_ok_iff.1 hw
    obtain ⟨tableOffset, htableOffset, hw⟩ := bind_eq_ok_iff.1 hw
    obtain ⟨size, hsize, hw⟩ := bind_eq_ok_iff.1 hw
    obtain ⟨l2, h2⟩ := Field.unsigned_eq_ok_iff.1 htableOffset
    obtain ⟨l3, h3⟩ := Field.unsigned_eq_ok_iff.1 hsize
    obtain ⟨l5, h5⟩ := Field.unsigned_eq_ok_iff.1 hquestId
    obtain ⟨l6, h6⟩ := Field.unsigned_eq_ok_iff.1 hlanguage
    obtain ⟨l7, h7⟩ := text_field hname
    obtain ⟨l8, h8⟩ := text_field hshort
    obtain ⟨l9, h9⟩ := text_field hlong
    obtain ⟨l11, h11⟩ := items_append (Nat.not_lt.1 hc) hitems
    have hbs := Except.ok.inj hw
    simp only [List.append_assoc] at hbs
    have l1 := Word.length_encode 4 headerSize
    have l4 := Word.length_encode 4 0xFFFFFFFF
    have sized : HeaderParts.Sized ⟨Word.encode 4 headerSize, tableOffset, size,
        Word.encode 4 0xFFFFFFFF, questId, language, name, short, long, Field.zeros 4,
        items.flatten ++ Field.zeros (4 * (shopItemCount - f.shopItems.length : Int))⟩ :=
      ⟨l1, l2, l3, l4, l5, l6, l7, l8, l9, rfl, l11⟩
    have hfront := HeaderParts.length_bytes sized
    obtain ⟨hlabels, hlen⟩ := labelsAt_append htable
      (List.length_append.trans (congrArg (· + stored.code.length) hfront))
    refine ⟨stored, _, table.flatten, ⟨hstored, sized, Word.decode_encode (by decide),
      (Int.ofNat.inj h2).symm, ?_, ?_, hlen, h5.symm, h6.symm, h7, h8, h9, h11⟩, ?_⟩
    · rw [hlen]
      exact (Int.ofNat.inj h3).symm
    · rw [← List.append_assoc]
      exact hlabels
    · rw [← hbs]
      simp only [HeaderParts.bytes, List.append_assoc]

theorem Written.length_eq {p : HeaderParts} {table : Bytes} (hp : f.Written stored p table) :
    (p.bytes ++ (stored.code ++ table)).length =
      headerSize + stored.code.length + table.length := by
  rw [List.length_append, List.length_append, HeaderParts.length_bytes hp.sized, Nat.add_assoc]

theorem length_write (hs : ObjectCode.write f.segments = .ok stored) (hw : f.write = .ok bs) :
    bs.length = headerSize + stored.code.length + 4 * stored.offsets.length := by
  obtain ⟨stored', p, table, hp, rfl⟩ := written_of_write hw
  cases hs.symm.trans hp.code
  rw [hp.length_eq, hp.tableSize]

def withReading (f : ScriptFile) (r : ObjectCode.Reading) : ScriptFile × List Diagnostic :=
  ({ f with segments := r.segments, shopItems := paddedItems f.shopItems }, r.diagnostics)

theorem header_of_written {p : HeaderParts} {table : Bytes} (hp : f.Written stored p table) :
    Read.within (.whole (p.bytes ++ (stored.code ++ table)).toArray)
      (Header.read (p.bytes ++ (stored.code ++ table)).length) = .ok (p.header stored.offsets) := by
  have hlen := hp.length_eq
  have hlabels := hp.labels
  rw [← hp.tableOffset] at hlabels
  rw [header_eq_ok_iff.2 ⟨p, stored.code ++ table, hp.sized, rfl,
    by rw [hp.codeOffset, hp.tableOffset]; omega, by rw [hp.tableOffset, hlen]; omega, rfl⟩,
    hlabels]

/-- A file as it is read from the fields of its header and from its object code. -/
def HeaderParts.file (p : HeaderParts) (segments : List Segment) : ScriptFile where
  questId := Word.decode p.questId
  language := Word.decode p.language
  name := Text.decode16 (Text.beforeNull p.name)
  shortDescription := Text.decode16 (Text.beforeNull p.shortDescription)
  longDescription := Text.decode16 (Text.beforeNull p.longDescription)
  segments := segments
  shopItems := (Read.groups 4 shopItemCount p.shopItems).map fun word => (Word.decode word : Int)

/-- The code of a written file is read with the label table that it was written with. -/
theorem Written.read_eq {p : HeaderParts} {table : Bytes} (hp : f.Written stored p table)
    (mode : ObjectCode.Mode) (labels : List Int) :
    read mode (p.bytes ++ (stored.code ++ table)) labels =
      (ObjectCode.read mode stored (ObjectCode.entries labels)).map
        fun r => (p.file r.segments, r.diagnostics) := by
  have hfront := HeaderParts.length_bytes hp.sized
  have hcode : ((p.bytes ++ (stored.code ++ table)).toArray.extract (Word.decode p.codeOffset)
      (Word.decode p.tableOffset)).toList = stored.code := by
    rw [hp.codeOffset, hp.tableOffset, Array.toList_extract, List.extract_eq_take_drop,
      List.drop_left' hfront, Nat.add_sub_cancel_left, List.take_left' rfl]
  unfold read
  dsimp only
  rw [List.size_toArray, header_of_written hp]
  show (ObjectCode.read mode ⟨((p.bytes ++ (stored.code ++ table)).toArray.extract
    (Word.decode p.codeOffset) (Word.decode p.tableOffset)).toList, stored.offsets⟩ _ >>= _) = _
  rw [hcode]
  cases ObjectCode.read mode stored (ObjectCode.entries labels) with
  | error e => rfl
  | ok r =>
    have items : (p.header stored.offsets).shopItems.map (fun n : Nat => (n : Int)) =
        (p.file r.segments).shopItems := List.map_map
    show Except.ok (_, (if Word.decode p.size = _ then [] else _) ++ r.diagnostics) = _
    rw [if_pos (hp.size.trans hp.length_eq.symm), items]
    rfl

/-- Around the object code, everything is read as it was written. -/
theorem read_of_write (h : f.Storable) (hs : ObjectCode.write f.segments = .ok stored)
    (hw : f.write = .ok bs) (mode : ObjectCode.Mode) (labels : List Int) :
    read mode bs labels =
      (ObjectCode.read mode stored (ObjectCode.entries labels)).map f.withReading := by
  obtain ⟨stored', p, table, hp, rfl⟩ := written_of_write hw
  cases hs.symm.trans hp.code
  rw [hp.read_eq]
  congr 1
  funext r
  unfold withReading HeaderParts.file
  rw [hp.questId, hp.language, hp.name h.name, hp.shortDescription h.shortDescription,
    hp.longDescription h.longDescription, hp.shopItems]

/-- Whatever a file holds, its segments are read from the code that was written for them. -/
theorem exists_reread (hw : f.write = .ok bs) {mode : ObjectCode.Mode} {labels : List Int}
    {g : ScriptFile} {diagnostics : List Diagnostic}
    (hr : read mode bs labels = .ok (g, diagnostics)) :
    ∃ stored r, ObjectCode.write f.segments = .ok stored ∧
      ObjectCode.read mode stored (ObjectCode.entries labels) = .ok r ∧
      g.segments = r.segments := by
  obtain ⟨stored, p, table, hp, rfl⟩ := written_of_write hw
  rw [hp.read_eq] at hr
  cases hread : ObjectCode.read mode stored (ObjectCode.entries labels) with
  | error e =>
    rw [hread] at hr
    cases hr
  | ok r =>
    rw [hread] at hr
    cases hr
    exact ⟨stored, r, hp.code, hread, rfl⟩

/-- With everything in front of the code in its range, a file is written if its label table and
its sizes are, and fails for what they fail for. -/
theorem write_eq (h : f.Storable) (hs : ObjectCode.write f.segments = .ok stored) :
    ∃ lay : List Bytes → Bytes → Bytes → Bytes, f.write = do
      let table ← stored.offsets.mapM Field.i32
      let tableOffset ← Field.u32 (headerSize + stored.code.length : Nat)
      let size ← Field.u32 (headerSize + stored.code.length + 4 * stored.offsets.length : Nat)
      return lay table tableOffset size := by
  obtain ⟨_, -, -, questId⟩ := Field.exists_unsigned h.questId
  obtain ⟨_, -, -, language⟩ := Field.exists_unsigned h.language
  obtain ⟨_, name, -, -⟩ := Field.exists_text h.name
  obtain ⟨_, short, -, -⟩ := Field.exists_text h.shortDescription
  obtain ⟨_, long, -, -⟩ := Field.exists_text h.longDescription
  obtain ⟨_, items, -, -⟩ := Field.forall₂_unsigned h.shopItems
  unfold write
  rw [if_neg (Nat.not_lt.2 h.shopCount)]
  dsimp only
  rw [hs]
  simp only [show Field.u32 = Field.unsigned 4 from rfl]
  simp only [questId, language, name, short, long, mapM_eq_ok_iff.2 items, ok_bind]
  exact ⟨fun table tableOffset size => _, rfl⟩

/-- A file can be written if its object code can and the offsets and sizes fit their fields. -/
theorem exists_write (h : f.Storable) (hs : ObjectCode.write f.segments = .ok stored)
    (ho : ∀ n ∈ stored.offsets, ∃ bs, Field.i32 n = .ok bs)
    (hsize : Word.Fits 4 (headerSize + stored.code.length + 4 * stored.offsets.length : Nat)) :
    ∃ bs, f.write = .ok bs := by
  have htable : Word.Fits 4 (headerSize + stored.code.length : Nat) :=
    ⟨Int.natCast_nonneg _, by have := hsize.2; omega⟩
  obtain ⟨_, table⟩ := exists_forall₂ ho
  obtain ⟨_, -, -, tableOffset⟩ := Field.exists_unsigned htable
  obtain ⟨_, -, -, size⟩ := Field.exists_unsigned hsize
  obtain ⟨lay, hw⟩ := write_eq h hs
  rw [hw, show Field.u32 = Field.unsigned 4 from rfl, mapM_eq_ok_iff.2 table, tableOffset, size]
  exact ⟨_, rfl⟩

theorem exists_reading {mode : ObjectCode.Mode} {labels : List Int} {data : Bytes}
    {diagnostics : List Diagnostic} (h : read mode data labels = .ok (f, diagnostics)) :
    ∃ header code r, Read.within (.whole data.toArray) (Header.read data.length) = .ok header ∧
      ObjectCode.read mode ⟨code, header.labelOffsets⟩ (ObjectCode.entries labels) = .ok r ∧
      f.segments = r.segments := by
  unfold read at h
  dsimp only at h
  rw [List.size_toArray] at h
  obtain ⟨header, hh, h⟩ := bind_eq_ok_iff.1 h
  obtain ⟨r, hr, h⟩ := bind_eq_ok_iff.1 h
  cases h
  exact ⟨header, _, r, hh, hr, rfl⟩

/-- Whatever is read as a script file can be stored, and no shop item is missing. -/
theorem storable_of_read {mode : ObjectCode.Mode} {labels : List Int} {data : Bytes}
    {diagnostics : List Diagnostic} (h : read mode data labels = .ok (f, diagnostics)) :
    f.Storable ∧ f.shopItems.length = shopItemCount := by
  unfold read at h
  dsimp only at h
  rw [List.size_toArray] at h
  obtain ⟨header, hh, h⟩ := bind_eq_ok_iff.1 h
  obtain ⟨reading, -, h⟩ := bind_eq_ok_iff.1 h
  obtain ⟨p, rest, ⟨l1, l2, l3, l4, l5, l6, l7, l8, l9, l10, l11⟩, -, -, -, rfl⟩ :=
    header_eq_ok_iff.1 hh
  cases h
  have hcount : ((p.header (labelsAt data (Word.decode p.tableOffset))).shopItems.map
      fun n : Nat => (n : Int)).length = shopItemCount := by
    rw [List.length_map]
    show ((Read.groups 4 shopItemCount p.shopItems).map Word.decode).length = _
    rw [List.length_map, Read.length_groups]
  refine ⟨⟨Word.fits_decode l5, Word.fits_decode l6, ?_, ?_, ?_, Nat.le_of_eq hcount, ?_⟩, hcount⟩
  · exact l7 ▸ Text.fits_field p.name
  · exact l8 ▸ Text.fits_field p.shortDescription
  · exact l9 ▸ Text.fits_field p.longDescription
  · intro n hn
    obtain ⟨m, hm, rfl⟩ := List.mem_map.1 hn
    obtain ⟨g, hg, rfl⟩ := List.mem_map.1 hm
    exact Word.fits_decode ((Read.flatten_groups (Nat.le_of_eq l11.symm)).1 g hg)

end ScriptFile
end QuestArchive
