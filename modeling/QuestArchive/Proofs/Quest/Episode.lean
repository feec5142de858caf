import QuestArchive.Proofs.Quest.Opening
import QuestArchive.Proofs.Quest.Scripted

/-!
# The episode of a quest that is read again

The episode and the variants of maps stand in the code that runs first.  Calls for them have no
number to be rounded, so they say the same in an archive as long as that code is read as it was
written.  The label table does not tell it from what follows it without a label.
-/

namespace QuestArchive

namespace Script

variable {is : List Instruction} {segments segments' : List Segment}

theorem exists_designations (h : ∀ is, startCode? segments = some is → ∀ i ∈ is, i.WellFormed) :
    ∃ ds, designations segments = .ok ds :=
  exists_designations_of_typed fun is hs i hi => (h is hs i hi).typed

/-! ## Calls that are kept -/

/-- Calls of an operation without numbers are stored as they are. -/
theorem filter_narrowed (h : ∀ i ∈ is, i.WellFormed) {op : Opcode}
    (hp : ParamKind.float ∉ op.params) :
    (is.map Instruction.narrowed).filter (·.opcode = op) = is.filter (·.opcode = op) := by
  rw [List.filter_map]
  refine (List.map_congr_left fun i hi => ?_).trans (List.map_id' _)
  obtain ⟨hi, hop⟩ := List.mem_filter.1 hi
  exact Instruction.narrowed_eq (h i hi) ((of_decide_eq_true hop : i.opcode = op) ▸ hp)

theorem episodeCall?_narrowed (h : ∀ i ∈ is, i.WellFormed) :
    episodeCall? (is.map Instruction.narrowed) = episodeCall? is := by
  unfold episodeCall?
  rw [← List.head?_filter, ← List.head?_filter, filter_narrowed h (by decide)]

/-- What stored code says of its quest is what it said before. -/
theorem outline_narrowed
    (h : startCode? segments' = (startCode? segments).map (·.map Instruction.narrowed))
    (hw : ∀ is, startCode? segments = some is → ∀ i ∈ is, i.WellFormed) :
    episode segments' = episode segments ∧ designations segments' = designations segments := by
  unfold episode designations
  cases hs : startCode? segments with
  | none =>
    rw [h, hs]
    exact ⟨rfl, rfl⟩
  | some is =>
    rw [h, hs, Option.map_some, Option.bind_some, Option.bind_some, Option.getD_some,
      Option.getD_some, episodeCall?_narrowed (hw is hs), filter_narrowed (hw is hs) (by decide)]
    exact ⟨rfl, rfl⟩

/-- An episode that code sets is not changed by what comes behind it. -/
theorem episode_of_append {more : List Instruction}
    (h : startCode? segments' = some (is.map Instruction.narrowed ++ more))
    (hs : startCode? segments = some is) (hw : ∀ i ∈ is, i.WellFormed)
    (hcall : (episodeCall? is).isSome) : episode segments' = episode segments := by
  obtain ⟨i, hi⟩ := Option.isSome_iff_exists.1 hcall
  have happend : episodeCall? (is.map Instruction.narrowed ++ more) = some i := by
    have hfront := (episodeCall?_narrowed hw).trans hi
    unfold episodeCall? at hfront ⊢
    rw [List.find?_append, hfront, Option.some_or]
  unfold episode
  rw [h, hs, Option.bind_some, Option.bind_some, happend, hi]

end Script

namespace Quest

variable {q : Quest} {fileName : String} {options options' : QuestOptions} {w : Bytes} {r : Reading}

theorem exists_episode_of_write (hw : q.write fileName options = .ok w) :
    ∃ e, q.episode = .ok e := by
  obtain ⟨t, ht, -⟩ := bind_eq_ok_iff.1 hw
  obtain ⟨e, he, -⟩ := bind_eq_ok_iff.1 ht
  exact ⟨e, he⟩

/-- The script of an archive is read from the code that was written for it. -/
theorem exists_script_reread (hw : q.write fileName options = .ok w)
    (hm : options'.lenient = false) (hr : read w options' = .ok r) :
    ∃ labels stored r', 0 ∈ labels ∧ ObjectCode.write q.segments = .ok stored ∧
      ObjectCode.read .strict stored (ObjectCode.entries labels) = .ok r' ∧
      r.quest.segments = r'.segments := by
  unfold write at hw
  obtain ⟨t, -, hw⟩ := bind_eq_ok_iff.1 hw
  obtain ⟨table, -, hw⟩ := bind_eq_ok_iff.1 hw
  obtain ⟨script, hscript, hw⟩ := bind_eq_ok_iff.1 hw
  have hw : Archive.write (q.newMembers options fileName table script) = .ok w := hw
  unfold read at hr
  obtain ⟨archive, harchive, hr⟩ := bind_eq_ok_iff.1 hr
  obtain ⟨files, hparts, hr⟩ := bind_eq_ok_iff.1 hr
  obtain ⟨archive', files', harchive', -, hparts', -, hback⟩ :=
    parts_of_write (isName_of_parts hw harchive hparts) hw
  cases harchive.symm.trans harchive'
  cases hparts.symm.trans hparts'
  obtain ⟨packedTable, packedScript⟩ := files
  obtain ⟨tableData, -, hr⟩ := bind_eq_ok_iff.1 hr
  obtain ⟨t', -, hr⟩ := bind_eq_ok_iff.1 hr
  obtain ⟨script', hscript', hr⟩ := bind_eq_ok_iff.1 hr
  cases hscript'.symm.trans hback
  obtain ⟨labels, hlabels, hr⟩ := bind_eq_ok_iff.1 hr
  rw [hm] at hr
  obtain ⟨⟨f, diagnostics⟩, hf, hr⟩ := bind_eq_ok_iff.1 hr
  obtain ⟨e, -, hr⟩ := bind_eq_ok_iff.1 hr
  cases hr
  obtain ⟨stored, r', hstored, hread, hsegments⟩ := ScriptFile.exists_reread hscript hf
  obtain ⟨more, -, hmore⟩ := bind_eq_ok_iff.1 hlabels
  cases hmore
  exact ⟨_, stored, r', List.mem_cons_self, hstored, hread, hsegments⟩

/-- A quest whose script comes of a source is written and read again: what runs first is the
same code with its numbers rounded just if nothing is read together with it, and then episode and
map designations are the same.  Code without null characters comes first in any case, so that an
episode that it sets is the same. -/
theorem episode_of_write {lines : List Text} {a : Script.Assembly}
    (h : Script.assemble lines = .ok a) (herr : a.errors = []) (hq : q.segments = a.segments)
    (hw : q.write fileName options = .ok w) (hm : options'.lenient = false)
    (hr : read w options' = .ok r) :
    (Script.startCode? r.quest.segments =
        (Script.startCode? q.segments).map (·.map Instruction.narrowed) ↔
      Script.StartsAlone q.segments) ∧
    (Script.StartsAlone q.segments → ∃ e ds, q.episode = .ok e ∧ r.quest.episode = .ok e ∧
      q.designations = .ok ds ∧ r.quest.designations = .ok ds) ∧
    ∀ is, Script.startCode? q.segments = some is → (∀ i ∈ is, i.NullFree) →
      ∃ more, Script.startCode? r.quest.segments = some (is.map Instruction.narrowed ++ more) ∧
        ((Script.episodeCall? is).isSome → r.quest.episode = q.episode) := by
  have hd := Script.drafted_of_assemble h herr
  rw [← hq] at hd
  have hwell : ∀ is, Script.startCode? q.segments = some is → ∀ i ∈ is, i.WellFormed := by
    intro is hstart
    obtain ⟨ls, hs, -⟩ := Script.mem_of_startCode? hstart
    exact (hd.settled _ hs).instructions ls is rfl
  obtain ⟨labels, stored, r', h0, hstored, hread, hsegments⟩ := exists_script_reread hw hm hr
  have halone := ObjectCode.startCode?_reread hd.settled hd.distinct hstored h0 hread
  rw [← hsegments] at halone
  refine ⟨halone, fun hs => ?_, fun is hstart hu => ?_⟩
  · obtain ⟨hepisode, hdesignations⟩ := Script.outline_narrowed (halone.2 hs) hwell
    obtain ⟨e, he⟩ := exists_episode_of_write hw
    obtain ⟨ds, hds⟩ := Script.exists_designations hwell
    exact ⟨e, ds, he, hepisode.trans he, hds, hdesignations.trans hds⟩
  · obtain ⟨pieces, hstands⟩ := ObjectCode.exists_stands hd.settled hd.distinct hstored
    obtain ⟨ls, hs, hl⟩ := Script.mem_of_startCode? hstart
    obtain ⟨before, after, he, -⟩ := Script.exists_first hd.distinct hs hl
    obtain ⟨more, hmore, -⟩ := hstands.exists_more he hl hu h0 hread
    rw [← hsegments] at hmore
    exact ⟨more, hmore, Script.episode_of_append hmore hstart (hwell is hstart)⟩

def designating : List Segment := [
  .code [0] [⟨.setEpisode, [⟨.int 1, 4⟩]⟩,
    ⟨.mapDesignate, [⟨.int 1, 1⟩, ⟨.int 0, 2⟩, ⟨.int 2, 1⟩, ⟨.int 0, 1⟩]⟩,
    ⟨.plain 0x01 "ret" [], []⟩],
  .data [1] [1, 2]]

theorem episode_of_write_designating : ∃ w r,
    Script.assemble [.ofString "0: set_episode 1", .ofString "bb_map_designate 1, 0, 2, 0",
      .ofString "ret", .ofString ".data", .ofString "1: 01 02"] = .ok ⟨designating, []⟩ ∧
    (bare designating).write "message.qst" {} = .ok w ∧ read w {} = .ok r ∧
    Script.StartsAlone designating ∧ r.quest.episode = .ok .two ∧
    r.quest.designations = .ok [(.int 1, .int 2)] := by
  have hstored : ObjectCode.write designating =
      .ok ⟨[0xF8, 0xBC, 1, 0, 0, 0, 0xF9, 0x51, 1, 0, 0, 2, 0, 1, 1, 2], [0, 14]⟩ := by
    decide +kernel
  have hread : ObjectCode.read .strict
      ⟨[0xF8, 0xBC, 1, 0, 0, 0, 0xF9, 0x51, 1, 0, 0, 2, 0, 1, 1, 2], [0, 14]⟩
      (ObjectCode.entries [0]) = .ok ⟨designating, []⟩ :=
    ObjectCode.read_of_readWithin (n := 3) (by decide) (by decide +kernel)
  obtain ⟨w, r, hw, hr, -⟩ := exists_read_bare hstored hread (by decide)
  have h : Script.assemble [.ofString "0: set_episode 1", .ofString "bb_map_designate 1, 0, 2, 0",
      .ofString "ret", .ofString ".data", .ofString "1: 01 02"] = .ok ⟨designating, []⟩ := by
    decide +kernel
  have halone : Script.StartsAlone designating := by decide
  obtain ⟨e, ds, he, hre, hds, hrds⟩ := (episode_of_write h rfl rfl hw rfl hr).2.1 halone
  have htwo : (bare designating).episode = .ok .two := by decide +kernel
  have hone : (bare designating).designations = .ok [(.int 1, .int 2)] := by decide +kernel
  cases he.symm.trans htwo
  cases hds.symm.trans hone
  exact ⟨w, r, h, hw, hr, halone, hre, hrds⟩

def detour : List Segment := [
  .code [0] [⟨.plain 0 "nop" [], []⟩],
  .code [] [⟨.setEpisode, [⟨.int 1, 4⟩]⟩, ⟨.plain 0x01 "ret" [], []⟩]]

/-- What stands without a label behind the first code sets the episode once it is read again. -/
theorem episode_of_write_detour : ∃ w r,
    Script.assemble [.ofString "0: nop", .ofString ".data", .ofString ".code",
      .ofString "set_episode 1", .ofString "ret"] = .ok ⟨detour, []⟩ ∧
    (bare detour).write "message.qst" {} = .ok w ∧ read w {} = .ok r ∧
    (bare detour).episode = .ok .one ∧ r.quest.episode = .ok .two := by
  have hread : ObjectCode.read .strict ⟨[0, 0xF8, 0xBC, 1, 0, 0, 0, 1], [0]⟩
      (ObjectCode.entries [0]) = .ok ⟨[.code [0] [⟨.plain 0 "nop" [], []⟩,
        ⟨.setEpisode, [⟨.int 1, 4⟩]⟩, ⟨.plain 0x01 "ret" [], []⟩]], []⟩ :=
    ObjectCode.read_of_readWithin (n := 2) (by decide) (by decide +kernel)
  obtain ⟨w, r, hw, hr, hsegments⟩ := exists_read_bare (by decide +kernel) hread (by decide)
  have hone : Script.episode detour = .ok .one := by decide +kernel
  have htwo : Script.episode [.code [0] [⟨.plain 0 "nop" [], []⟩,
      ⟨.setEpisode, [⟨.int 1, 4⟩]⟩, ⟨.plain 0x01 "ret" [], []⟩]] = .ok .two := by
    decide +kernel
  rw [← write_bare_congr (by decide +kernel) hone htwo] at hw
  refine ⟨w, r, by decide +kernel, hw, hr, hone, ?_⟩
  unfold episode
  rw [hsegments, htwo]

end Quest
end QuestArchive
