import QuestArchive.Proofs.Quest.Defects
import QuestArchive.Proofs.Script.Showing
import QuestArchive.Shell.Dump

/-!
# Showing a quest

Whatever can be read as a quest is shown, all sections that were asked for.  What cannot is told
as an error if its format has a fault for it.  The defects that the format leaves out stop the
command: it prints nothing and ends with the fault of reading.
-/

namespace QuestArchive

namespace Quest

variable {q : Quest}

theorem exists_summary (h : ∀ s ∈ q.segments, s.Typed) : ∃ lines, q.summary = .ok lines := by
  obtain ⟨episode, hepisode⟩ := Script.exists_episode (Script.typed_of_startCode? h)
  obtain ⟨ds, hds⟩ := Script.exists_designations_of_typed (Script.typed_of_startCode? h)
  unfold summary Quest.episode Quest.designations
  rw [hepisode, ok_bind, hds, ok_bind]
  exact ⟨_, rfl⟩

theorem exists_objectLines (h : ∀ o ∈ q.objects, ∃ labels, o.scriptLabels = .ok labels) :
    ∃ lines, q.objectLines = .ok lines := by
  refine exists_mapM fun o ho => ?_
  obtain ⟨labels, hlabels⟩ := h o ho
  unfold objectLine
  rw [hlabels, ok_bind]
  exact ⟨_, rfl⟩

theorem Defect.isReadFault {data : Bytes} {e : Fault} (h : Defect data e) :
    Shell.isReadFault e = false := by
  cases h with
  | headers | stream | copy | table | header | opcode => rfl
  | label _ _ _ fault => rcases fault with rfl | rfl | ⟨_, rfl⟩ <;> rfl

end Quest

namespace Shell

theorem Outcome.print_append (lines more : List Text) :
    print (lines ++ more) = print lines ++ print more :=
  List.flatMap_append

namespace Dump

variable {d : Directory} {a : Arguments} {r : Quest.Reading}

theorem printSections_ok (d : Directory) (lines : List (List Text)) :
    printSections d (lines.map .ok) =
      { output := Outcome.print lines.flatten, directory := d, status := .ok 0 } := by
  induction lines with
  | nil => rfl
  | cons first rest ih =>
    rw [List.map_cons, printSections, ih, List.flatten_cons, Outcome.print_append]
    rfl

theorem exists_sections (hs : ∀ s ∈ r.quest.segments, s.Typed)
    (ho : ∀ o ∈ r.quest.objects, ∃ labels, o.scriptLabels = .ok labels) :
    ∃ lines : List (List Text), sections a r = lines.map .ok := by
  obtain ⟨summary, hsummary⟩ := Quest.exists_summary hs
  obtain ⟨objectLines, hobjects⟩ := Quest.exists_objectLines ho
  obtain ⟨source, hsource⟩ : ∃ lines, Script.listing r.quest.segments = .ok lines :=
    Script.exists_listingFrom_of_typed hs .code false
  have hall : ∀ s ∈ sections a r, ∃ lines, s = .ok lines := by
    unfold sections
    dsimp only
    rw [hsummary, hobjects, hsource]
    simp only [List.forall_mem_append, List.forall_mem_singleton]
    refine ⟨⟨⟨⟨⟨_, rfl⟩, ?_⟩, ?_⟩, ?_⟩, ?_⟩
    all_goals
      split
      all_goals simp
  obtain ⟨lines, hlines⟩ := exists_forall₂ hall
  exact ⟨lines, List.forall₂_eq_eq_eq ▸ List.forall₂_map_right_iff.2 hlines⟩

/-- For every content of the file and all flags: the command prints the sections of the quest and
succeeds, or tells a fault of the format in a line and fails, or the file has a defect and the
command ends with its fault. -/
theorem run_of_read {args : List String} {data : Bytes}
    (ha : Arguments.parse? flags maxOperands args = some a)
    (hd : d.read (.ofString (a.operands.headD "")) = .ok data) :
    (∃ r, ∃ lines : List (List Text), Quest.read data { lenient := a.has lenient } = .ok r ∧
      sections a r = lines.map .ok ∧ run d args =
        { output := Outcome.print lines.flatten, directory := d, status := .ok 0 }) ∨
    ∃ e, Quest.read data { lenient := a.has lenient } = .error e ∧
      (e.isFormat = true ∧ run d args =
          { output := Outcome.print [Outcome.errorLine e], directory := d, status := .ok 1 } ∨
        Quest.Defect data e ∧
          run d args = { output := [], directory := d, status := .error e }) := by
  have hquest : readQuest d (a.operands.headD "") { lenient := a.has lenient } =
      Quest.read data { lenient := a.has lenient } := by
    unfold readQuest
    rw [hd, ok_bind]
  unfold run
  rw [ha]
  dsimp only
  rw [hquest]
  cases hr : Quest.read data { lenient := a.has lenient } with
  | ok r =>
    obtain ⟨hs, ho⟩ := Quest.showable_of_read hr
    obtain ⟨lines, hlines⟩ := @exists_sections a r hs ho
    refine Or.inl ⟨r, lines, rfl, hlines, ?_⟩
    dsimp only
    rw [hlines, printSections_ok]
  | error e =>
    refine Or.inr ⟨e, rfl, (Quest.fault_of_read hr).imp (fun hf => ⟨hf, ?_⟩) fun hf => ⟨hf, ?_⟩⟩
    · have htold : isReadFault e = true := by
        unfold isReadFault
        rw [hf, Bool.or_true]
      dsimp only
      rw [Outcome.fail, if_pos htold]
    · dsimp only
      rw [Outcome.fail, if_neg (Bool.eq_false_iff.1 hf.isReadFault)]

theorem read_only_file (data : Bytes) :
    Directory.read { files := [("q.qst", data)] } (.ofString "q.qst") = .ok data := by
  have hpath : Path.ofString "q.qst" = ⟨0, ["q.qst"]⟩ := by decide +kernel
  have htext : Path.text ⟨0, ["q.qst"]⟩ = "q.qst" := by decide +kernel
  have hnull : "q.qst".contains '\x00' = false := by simp
  have hlocate : Directory.locate { files := [("q.qst", data)] } ⟨0, ["q.qst"]⟩ =
      .ok ⟨0, ["q.qst"]⟩ := by
    unfold Directory.locate
    rw [htext, hnull]
    rfl
  rw [hpath, Directory.read, hlocate]
  rfl

/-- An archive of another system is told in a line, and that is no success. -/
theorem run_of_read_computer :
    ∃ e, Quest.read [1, 2, 3, 4] { lenient := true } = .error e ∧
      run { files := [("q.qst", [1, 2, 3, 4])] } ["--lenient", "q.qst"] =
        { output := Outcome.print [Outcome.errorLine e]
          directory := { files := [("q.qst", [1, 2, 3, 4])] }
          status := .ok 1 } := by
  have hparse : Arguments.parse? flags maxOperands ["--lenient", "q.qst"] =
      some { flags := [(lenient, "")], operands := ["q.qst"] } := by decide +kernel
  have hfile := read_only_file [1, 2, 3, 4]
  have hread : Quest.read [1, 2, 3, 4] { lenient := true } = .error (.unsupported "PC") := rfl
  rcases run_of_read hparse hfile with ⟨r, lines, hr, -⟩ | ⟨e, he, ⟨-, hrun⟩ | ⟨hdefect, -⟩⟩
  · cases hread.symm.trans hr
  · exact ⟨e, he, hrun⟩
  · cases hread.symm.trans he
    cases hdefect.isReadFault

/-- An archive that ends inside its headers stops the command without a word. -/
theorem run_cut_headers :
    run { files := [("q.qst", [0x58, 0, 0x44])] } ["q.qst"] =
      { output := []
        directory := { files := [("q.qst", [0x58, 0, 0x44])] }
        status := .error (.pastBound .slice 88 0 3) } := by
  have hparse : Arguments.parse? flags maxOperands ["q.qst"] =
      some { operands := ["q.qst"] } := by decide +kernel
  have hfile := read_only_file [0x58, 0, 0x44]
  have hquest : readQuest { files := [("q.qst", [0x58, 0, 0x44])] } "q.qst" {} =
      .error (.pastBound .slice 88 0 3) := by
    unfold readQuest
    rw [hfile, ok_bind]
    rfl
  have hstrict : Arguments.has { operands := ["q.qst"] } lenient = false := rfl
  unfold run
  rw [hparse]
  dsimp only
  rw [List.headD_cons, hstrict, hquest]
  rfl

end Dump
end Shell
end QuestArchive
