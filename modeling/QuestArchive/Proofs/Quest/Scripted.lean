import QuestArchive.Proofs.ObjectCode.BoundedReading
import QuestArchive.Proofs.Quest.Fitting

/-!
# Quests with a script of their own

Around any small script that is read from the labels of a quest there is an archive.  One such
script shows a line separator.
-/

namespace QuestArchive
namespace Quest

def scripted (segments : List Segment) : Quest := { sampler with segments }

variable {segments : List Segment} {stored : ObjectCode.Stored}

theorem storable_scripted (he : Script.episode segments = .ok .one)
    (hw : ObjectCode.write segments = .ok stored)
    (hr : ObjectCode.read .strict stored (ObjectCode.entries [0, 1, 2]) = .ok ⟨segments, []⟩) :
    (scripted segments).Storable {} := by
  have hone : sampler.episode = .ok .one := by decide +kernel
  have hlabels : outline.labels = .ok [0, 1, 2] := by decide +kernel
  obtain ⟨objects, npcs, identities, kept, ⟨h1, h2, h3, h4, h5, h6, h7⟩, shopItems, -⟩ :=
    storable_sampler
  refine ⟨objects, npcs, fun e h => ?_, kept, ⟨h1, h2, h3, h4, h5, h6, h7⟩, shopItems,
    ⟨_, _, _, hlabels, hw, hr, rfl⟩⟩
  cases he.symm.trans h
  exact identities .one hone

/-- A quest with a small table and a small script is read from its archive. -/
theorem exists_read_of_small {q : Quest} {fileName : String} (h : q.Storable {})
    (hobjects : ∀ a, Word.Fits 4
      ((q.objects.map (·.areaId)).count a * Entity.objectSize + Entity.sectionHeaderSize : Nat))
    (hnpcs : ∀ a, Word.Fits 4
      ((q.npcs.map (·.areaId)).count a * Entity.npcSize + Entity.sectionHeaderSize : Nat))
    (htable : 3 * q.tableSize + 4 ≤ Archive.maxFileSize)
    (hw : ObjectCode.write q.segments = .ok stored)
    (hsize : stored.code.length + 4 * stored.offsets.length ≤ 1000)
    (hn : Field.IsName fileName) :
    ∃ data r, q.write fileName {} = .ok data ∧ read data {} = .ok r ∧ r.quest = q.arranged := by
  have hheader : ScriptFile.headerSize = 4652 := rfl
  have hroom : 3 * (4652 + 1000) + 4 ≤ Archive.maxFileSize := by decide +kernel
  have hsized : q.Sized := by
    refine ⟨hobjects, hnpcs, fun stored' hs => ?_⟩
    cases hw.symm.trans hs
    have hbound : Word.bound 4 = 2 ^ 32 := rfl
    refine ⟨by omega, Int.natCast_nonneg _, ?_⟩
    rw [hheader, hbound]
    omega
  have hpacks : q.Packs {} := by
    refine packs_of_size h htable fun stored' hs => ?_
    cases hw.symm.trans hs
    rw [hheader]
    omega
  obtain ⟨data, hdata⟩ := exists_write h hsized hpacks QuestOptions.nameable_default hn
  obtain ⟨r, hread, hquest, -⟩ := read_of_write h rfl hn hdata
  exact ⟨data, r, hdata, hread, hquest⟩

theorem exists_archive (he : Script.episode segments = .ok .one)
    (hw : ObjectCode.write segments = .ok stored)
    (hr : ObjectCode.read .strict stored (ObjectCode.entries [0, 1, 2]) = .ok ⟨segments, []⟩)
    (hsize : stored.code.length + 4 * stored.offsets.length ≤ 1000) :
    ∃ data r, read data {} = .ok r ∧ r.quest.segments = segments := by
  have hn : Field.IsName "message.qst" := by decide +kernel
  have htable : 3 * (scripted segments).tableSize + 4 ≤ Archive.maxFileSize := by
    show 3 * sampler.tableSize + 4 ≤ _
    decide +kernel
  obtain ⟨data, r, -, hread, hquest⟩ := exists_read_of_small (storable_scripted he hw hr)
    sized_sampler.objects sized_sampler.npcs htable hw hsize hn
  exact ⟨data, r, hread, by rw [hquest]; rfl⟩

/-! ## Quests without inhabitants -/

def bare (segments : List Segment) : Quest :=
  { sampler with objects := [], npcs := [], segments }

theorem storable_bare {diagnostics : List Diagnostic} (hw : ObjectCode.write segments = .ok stored)
    (hr : ObjectCode.read .strict stored (ObjectCode.entries [0]) = .ok ⟨segments, diagnostics⟩) :
    (bare segments).Storable {} := by
  obtain ⟨-, -, -, kept, ⟨h1, h2, h3, h4, h5, h6, h7⟩, shopItems, -⟩ := storable_sampler
  exact ⟨fun o ho => absurd ho List.not_mem_nil, fun n hn => absurd hn List.not_mem_nil,
    fun e _ n hn => absurd hn List.not_mem_nil, kept, ⟨h1, h2, h3, h4, h5, h6, h7⟩, shopItems,
    ⟨[0], _, _, rfl, hw, hr, rfl⟩⟩

theorem exists_read_bare {diagnostics : List Diagnostic}
    (hw : ObjectCode.write segments = .ok stored)
    (hr : ObjectCode.read .strict stored (ObjectCode.entries [0]) = .ok ⟨segments, diagnostics⟩)
    (hsize : stored.code.length + 4 * stored.offsets.length ≤ 1000) :
    ∃ w r, (bare segments).write "message.qst" {} = .ok w ∧ read w {} = .ok r ∧
      r.quest.segments = segments := by
  have hnone : ∀ size, size ≤ 72 → Word.Fits 4 (0 * size + 16 : Nat) := fun size hs =>
    ⟨Int.natCast_nonneg _, by rw [show Word.bound 4 = 2 ^ 32 from rfl]; omega⟩
  obtain ⟨w, r, hwrite, hread, hquest⟩ := exists_read_of_small (storable_bare hw hr)
    (fun a => hnone _ (by decide)) (fun a => hnone _ (by decide)) (by
      show 3 * (bare []).tableSize + 4 ≤ _
      decide +kernel) hw hsize (by decide +kernel : Field.IsName "message.qst")
  exact ⟨w, r, hwrite, hread, by rw [hquest]; rfl⟩

/-- Without NPCs an episode leaves no trace in the files but in the code. -/
theorem write_bare_congr {segments' : List Segment}
    (h : ObjectCode.write segments = ObjectCode.write segments')
    {e e' : Episode} (he : Script.episode segments = .ok e)
    (he' : Script.episode segments' = .ok e') {fileName : String} {options : QuestOptions} :
    (bare segments).write fileName options = (bare segments').write fileName options := by
  have htable : (bare segments).table options = (bare segments').table options := by
    unfold table
    rw [show (bare segments).episode = .ok e from he,
      show (bare segments').episode = .ok e' from he']
    rfl
  have hscript : (bare segments).scriptFile.write = (bare segments').scriptFile.write := by
    unfold ScriptFile.write
    rw [show (bare segments).scriptFile.segments = segments from rfl,
      show (bare segments').scriptFile.segments = segments' from rfl, h]
    rfl
  unfold write
  rw [htable, hscript]
  rfl

/-! ## A message -/

open ObjectCode

def messageCode : List Instruction :=
  [⟨.setEpisode, [⟨.int 0, 4⟩]⟩, ⟨.pushString, [⟨.text [.char '\u2028'], 4⟩]⟩,
    ⟨.pops 0x5A "window_msg" [.string], []⟩, ⟨.plain 0x01 "ret" [], []⟩]

def message : List Segment :=
  [.code [0] messageCode, .code [1] [⟨.plain 0x01 "ret" [], []⟩],
    .code [2] [⟨.plain 0x01 "ret" [], []⟩]]

def storedMessage : Stored :=
  ⟨[0xF8, 0xBC, 0, 0, 0, 0, 0x4E, 0x28, 0x20, 0, 0, 0x5A, 1, 1, 1], [0, 13, 14]⟩

theorem write_message : ObjectCode.write message = .ok storedMessage := by decide +kernel

theorem read_message :
    ObjectCode.read .strict storedMessage (entries [0, 1, 2]) = .ok ⟨message, []⟩ :=
  read_of_readWithin (n := 4) (by decide) (by decide +kernel)

end Quest
end QuestArchive
