import QuestArchive.Proofs.ObjectCode.Extents
import QuestArchive.Proofs.ObjectCode.Modes
import QuestArchive.Proofs.Quest.ScriptFile

/-!
# The script file is transparent

What reading a written file comes to is what reading its object code comes to, faults and
notices included, and the file adds no notice of its own.  A file is written just if its label
table can hold the offsets of the labels.  It can unless a segment states a negative size: then
sizes that cancel put a label where the code is not.
-/

namespace QuestArchive
namespace ObjectCode

/-! ## What is noted of object code -/

/-- The notices of reading object code.  None of them is about the file around it. -/
def IsCodeNotice : Notice → Prop
  | .unregisteredLabel _ | .labelPastEnd .. | .unterminatedText _ | .unreadableInstruction _
  | .codeSize .. | .unplacedLabel .. => True
  | _ => False

theorem IsCodeNotice.code_ne {n : Notice} (h : IsCodeNotice n) : n.code ≠ "bin_size_mismatch" := by
  cases n <;> simp [IsCodeNotice, Notice.code] at h ⊢

theorem Input.readAt_codeNotice {s : Input} {o : Int} {st : Start} {r : Reference} {f : Finding}
    (h : s.readAt o st r = .ok f) : ∀ n ∈ f.notices, IsCodeNotice n := by
  unfold readAt at h
  split at h
  · cases h
    exact fun n hn => absurd hn List.not_mem_nil
  · obtain ⟨-, -, hnil | hone⟩ := readText_ok h
    · rw [hnil]
      exact fun n hn => absurd hn List.not_mem_nil
    · rw [hone]
      exact List.forall_mem_singleton.2 trivial
  · obtain ⟨-, -, hnil | ⟨e, hone⟩⟩ := readCode_ok rfl h
    · rw [hnil]
      exact fun n hn => absurd hn List.not_mem_nil
    · rw [hone]
      exact List.forall_mem_singleton.2 trivial

/-- Whatever the code and its label table, reading them says nothing of the file around. -/
theorem codeNotice_of_read {mode : Mode} {stored : Stored} {queue : List Reference} {r : Reading}
    (hr : read mode stored queue = .ok r) : ∀ d ∈ r.diagnostics, IsCodeNotice d.notice := by
  obtain ⟨p, hf⟩ := exists_follow hr
  have hp : ∀ n ∈ p.notices.toList, IsCodeNotice n :=
    Progress.inv_of_follow (Progress.preserves_notices (fun _ => trivial) (fun _ _ _ => trivial)
      Input.readAt_codeNotice) (p := { todo := _ }) (fun n hn => absurd hn List.not_mem_nil) hf
  have hreading : ∀ d ∈ (reading (input mode stored) p).diagnostics, IsCodeNotice d.notice :=
    (forall_reading fun _ _ => trivial).2 hp
  rw [read_of_follow hf, conclude] at hr
  split at hr
  · cases hr
    exact hreading
  · split at hr
    · cases hr
    · cases hr
      exact List.forall_mem_append.2 ⟨hreading, List.forall_mem_singleton.2 trivial⟩

/-! ## Offsets that a label table holds -/

def Stored.Fits (stored : Stored) : Prop := ∀ o ∈ stored.offsets, -2 ^ 31 ≤ o ∧ o < 2 ^ 31

variable {stored : Stored}

/-- Code that is small enough, of segments without negative sizes, has offsets that fit. -/
theorem fits_of_write {segments : List Segment} (h : ∀ s ∈ segments, 0 ≤ s.extent)
    (hw : write segments = .ok stored) (hsize : stored.code.length < 2 ^ 31) : stored.Fits := by
  intro o ho
  have hb := offsets_of_write h hw o ho
  omega

end ObjectCode

namespace ScriptFile

variable {f : ScriptFile} {stored : ObjectCode.Stored}

/-- A file is not written if its label table cannot hold an offset. -/
theorem write_of_not_fits (h : f.Storable) (hs : ObjectCode.write f.segments = .ok stored)
    (ho : ¬stored.Fits) : f.write = .error .fieldRange := by
  have hcases : ∀ o : Int, (∃ bs, Field.i32 o = .ok bs) ∨ Field.i32 o = .error .fieldRange := by
    intro o
    by_cases hfits : -2 ^ 31 ≤ o ∧ o < 2 ^ 31
    · exact Or.inl (Field.exists_i32 hfits)
    · exact Or.inr (Field.i32_eq_error hfits)
  have hwide : ∃ o ∈ stored.offsets, Field.i32 o = .error .fieldRange := by
    unfold ObjectCode.Stored.Fits at ho
    simp only [not_forall] at ho
    obtain ⟨o, hm, hwide⟩ := ho
    exact ⟨o, hm, Field.i32_eq_error hwide⟩
  obtain ⟨lay, hw⟩ := write_eq h hs
  rw [hw, mapM_eq_error (fun o _ => hcases o) hwide]
  rfl

/-- The file around object code is transparent.  It is written just if the label table can hold
the offsets, which it can where no segment states a negative size.  Then reading it, in whatever
mode and from whatever labels, fails as reading the object code does, or gives all the rest as it
was, the shop's items filled up with zeros, with the segments and the diagnostics of the object
code; and none of these is about the size of the file. -/
theorem write_transparent (h : f.Storable) (hs : ObjectCode.write f.segments = .ok stored)
    (hsize : headerSize + stored.code.length + 4 * stored.offsets.length < 2 ^ 31) :
    ((∀ s ∈ f.segments, 0 ≤ s.extent) → stored.Fits) ∧
    (¬stored.Fits → f.write = .error .fieldRange) ∧
    (stored.Fits → ∃ bs, f.write = .ok bs ∧ ∀ (mode : ObjectCode.Mode) (labels : List Int),
      read mode bs labels = (ObjectCode.read mode stored (ObjectCode.entries labels)).map
          (fun r => ({ f with segments := r.segments
                              shopItems := f.shopItems ++
                                List.replicate (shopItemCount - f.shopItems.length) 0 },
            r.diagnostics)) ∧
        ∀ g diagnostics, read mode bs labels = .ok (g, diagnostics) →
          ∀ d ∈ diagnostics, d.code ≠ "bin_size_mismatch") := by
  refine ⟨fun hextent => ObjectCode.fits_of_write hextent hs (by omega),
    write_of_not_fits h hs, fun hfits => ?_⟩
  have htotal : Word.Fits 4 (headerSize + stored.code.length + 4 * stored.offsets.length : Nat) :=
    ⟨Int.natCast_nonneg _, by rw [show Word.bound 4 = 2 ^ 32 from rfl]; omega⟩
  obtain ⟨bs, hw⟩ := exists_write h hs (fun o ho => Field.exists_i32 (hfits o ho)) htotal
  refine ⟨bs, hw, fun mode labels => ?_⟩
  have hread := read_of_write h hs hw mode labels
  refine ⟨hread, fun g diagnostics hg d hd => ?_⟩
  rw [hread] at hg
  cases hr : ObjectCode.read mode stored (ObjectCode.entries labels) with
  | error e =>
    rw [hr] at hg
    cases hg
  | ok r =>
    rw [hr] at hg
    cases hg
    exact (ObjectCode.codeNotice_of_read hr d hd).code_ne

/-! ## Two files -/

def brimming : ScriptFile where
  questId := 1
  language := 0
  name := .ofString "12345678901234567890123456789012"
  shortDescription := []
  longDescription := []
  segments := [.code [1] [⟨.plain 0x00 "nop" [], []⟩, ⟨.plain 0x01 "ret" [], []⟩],
    .code [0] [⟨.plain 0x01 "ret" [], []⟩]]
  shopItems := [7]

theorem storable_brimming : brimming.Storable := by
  refine ⟨by decide, by decide, ?_, ?_, ?_, by decide, by decide⟩
  · exact Text.fits_ofString (by decide +kernel) (by decide +kernel)
  · exact Text.fits_ofString (s := "") (by decide +kernel) (by decide +kernel)
  · exact Text.fits_ofString (s := "") (by decide +kernel) (by decide +kernel)

theorem write_brimming : ObjectCode.write brimming.segments = .ok ⟨[0, 1, 1], [2, 0]⟩ := by
  decide +kernel

theorem read_brimming :
    ObjectCode.read .strict ⟨[0, 1, 1], [2, 0]⟩ (ObjectCode.entries [0, 1]) =
      .ok ⟨brimming.segments, []⟩ :=
  ObjectCode.read_of_readWithin (n := 3) (by decide) (by decide +kernel)

/-- The label table of this file stands at an odd place, and its name has no end. -/
theorem write_transparent_brimming :
    brimming.Storable ∧ ObjectCode.write brimming.segments = .ok ⟨[0, 1, 1], [2, 0]⟩ ∧
      ∃ bs, brimming.write = .ok bs ∧ read .strict bs [0, 1] =
        .ok ({ brimming with shopItems := 7 :: List.replicate 931 0 }, []) := by
  obtain ⟨hfits, -, hread⟩ := write_transparent storable_brimming write_brimming (by decide)
  obtain ⟨bs, hw, hread⟩ := hread (hfits (by decide))
  obtain ⟨hread, -⟩ := hread .strict [0, 1]
  rw [read_brimming] at hread
  exact ⟨storable_brimming, write_brimming, bs, hw, hread⟩

/-- Code whose second segment is said to start where no label table can say it. -/
def misstated : ScriptFile where
  questId := 0
  language := 0
  name := []
  shortDescription := []
  longDescription := []
  segments := [.code [] [⟨.plain 0x00 "nop" [], [⟨.int 0, 2 ^ 31 - 1⟩]⟩],
    .code [0] [⟨.plain 0x01 "ret" [], []⟩],
    .code [] [⟨.plain 0x00 "nop" [], [⟨.int 0, 1 - 2 ^ 31⟩]⟩]]
  shopItems := []

/-- Stated sizes that cancel are taken as they are.  So this code can be written, and read with
its label table, but no file holds that table. -/
theorem write_transparent_misstated :
    misstated.Storable ∧ ObjectCode.write misstated.segments = .ok ⟨[0, 1, 0], [2 ^ 31]⟩ ∧
      headerSize + 3 + 4 * 1 < 2 ^ 31 ∧
      ObjectCode.read .strict ⟨[0, 1, 0], [2 ^ 31]⟩ (ObjectCode.entries [0]) =
        .ok ⟨[.data [] [0, 1, 0]], [{ notice := .labelPastEnd 0 (2 ^ 31) 3 },
          { notice := .unplacedLabel 0 (2 ^ 31) }]⟩ ∧
      misstated.write = .error .fieldRange := by
  refine ⟨?_, by decide +kernel, by decide, ?_, by decide +kernel⟩
  · refine ⟨by decide, by decide, ?_, ?_, ?_, by decide, by decide⟩
    all_goals exact Text.fits_ofString (s := "") (by decide +kernel) (by decide +kernel)
  · exact ObjectCode.read_of_readWithin (n := 2) (by decide) (by decide +kernel)

end ScriptFile
end QuestArchive
