import QuestArchive.Proofs.Archive.Reading

/-!
# Archives of two files

What can be asked of a file, its names, its size and its quest number, is enough for it to
be written and to be read as it is.  A file that brings no second name gets one from its
name, which is no longer than its field allows.
-/

namespace QuestArchive
namespace Archive

/-! ## The second name made from a name -/

section

variable {name suffix : String}

theorem toList_splitExtension (name : String) :
    (splitExtension name).1.toList ++ (splitExtension name).2.toList = name.toList := by
  have hparts := List.takeWhile_append_dropWhile (p := (· ≠ '.')) (l := name.toList.reverse)
  have hhead := List.head?_dropWhile_not (· ≠ '.') name.toList.reverse
  unfold splitExtension
  dsimp only
  generalize name.toList.reverse.takeWhile (· ≠ '.') = extension at *
  split
  · exact List.append_nil _
  · next hlen =>
    cases htail : name.toList.reverse.dropWhile (· ≠ '.') with
    | nil =>
      rw [htail, List.append_nil] at hparts
      exact absurd (congrArg List.length hparts) hlen
    | cons c rest =>
      -- what is left starts with the dot that ended the extension
      rw [htail] at hparts hhead
      have hc : c = '.' := of_not_not (of_decide_eq_false hhead)
      subst hc
      have hdrop : name.toList.reverse.drop (extension.length + 1) = rest := by
        rw [← hparts, ← List.drop_drop, List.drop_left]
        rfl
      have hback := congrArg List.reverse hparts
      rw [List.reverse_append, List.reverse_cons, List.append_assoc, List.reverse_reverse] at hback
      rw [hdrop, String.toList_ofList, String.toList_ofList]
      exact hback

theorem length_defaultSecondName :
    (defaultSecondName name suffix).length = name.length + suffix.length := by
  have h := congrArg List.length (toList_splitExtension name)
  rw [List.length_append] at h
  unfold defaultSecondName
  simp only [← String.length_toList, String.toList_append, List.length_append]
  omega

theorem isName_defaultSecondName (h : Field.IsName name) (hs : Field.IsName suffix) :
    Field.IsName (defaultSecondName name suffix) := by
  intro c hc
  unfold defaultSecondName at hc
  rw [String.toList_append, String.toList_append, List.mem_append, List.mem_append] at hc
  have hname : c ∈ (splitExtension name).1.toList ++ (splitExtension name).2.toList → _ :=
    fun hc => h c (toList_splitExtension name ▸ hc)
  rcases hc with (hc | hc) | hc
  · exact hname (List.mem_append_left _ hc)
  · exact hs c hc
  · exact hname (List.mem_append_right _ hc)

end

/-! ## Files that fit -/

/-- A file within the bounds of an archive: what it leaves out counts as fitting. -/
structure NewMember.Fitting (f : NewMember) : Prop where
  name : Field.IsName f.name
  nameLength : f.name.length ≤ 16
  nonempty : f.data ≠ []
  size : f.data.length ≤ 262144
  questNo : ∀ n ∈ f.questNo, 0 ≤ n ∧ n ≤ 0xFFFF
  second : ∀ s ∈ f.secondName, Field.IsName s ∧ s.length ≤ 24

section

variable {f g : NewMember}

theorem NewMember.Fitting.storable (h : f.Fitting) : f.Storable :=
  ⟨h.name, h.nameLength, h.nonempty, h.size⟩

theorem NewMember.Fitting.labelled (h : f.Fitting) : f.Labelled := by
  have hsecond : Field.IsName f.secondNameOrDefault ∧ f.secondNameOrDefault.length ≤ 24 := by
    unfold secondNameOrDefault
    cases hs : f.secondName with
    | none =>
      rw [Option.getD_none, length_defaultSecondName]
      have hlen : ("_j" : String).length = 2 := by decide
      have hname := h.nameLength
      exact ⟨isName_defaultSecondName h.name (by decide), by omega⟩
    | some s => exact h.second s hs
  refine ⟨hsecond.1, hsecond.2, ?_⟩
  cases hq : f.questNo with
  | none => exact ⟨Int.le_refl 0, by decide⟩
  | some n =>
    obtain ⟨hlow, hhigh⟩ := h.questNo n hq
    exact ⟨hlow, Int.lt_of_le_of_lt hhigh (by decide)⟩

/-- Two files of different names that fit are written, and the archive is read as these
two files with nothing to be noted. -/
theorem files_round_trip (hf : f.Fitting) (hg : g.Fitting) (hne : f.name ≠ g.name) :
    ∃ bs, write [f, g] = .ok bs ∧
      read bs = .ok { version := .blueBurst
                      members := [f.memberOf f.secondNameOrDefault,
                        g.memberOf g.secondNameOrDefault]
                      diagnostics := [] } := by
  obtain ⟨bs, hw⟩ := exists_write hf.storable hg.storable hf.labelled hg.labelled
  obtain ⟨s, t, hr, hs, ht⟩ := read_of_write hne hf.name hg.name hf.nonempty hg.nonempty hw
  rw [hs hf.labelled.second, ht hg.labelled.second] at hr
  exact ⟨bs, hw, hr⟩

end

/-- One file without what it may leave out, and one with all of it. -/
theorem files_round_trip_sampler :
    let f : NewMember := { name := "q.v2.bin", data := List.replicate 1025 7 }
    let g : NewMember := { name := "q.dat", data := [1, 2], secondName := some "q_e.dat"
                           questNo := some 58 }
    ∃ bs, write [f, g] = .ok bs ∧
      read bs = .ok { version := .blueBurst
                      members :=
                        [{ name := "q.v2.bin", data := List.replicate 1025 7, chunkNumbers := [0, 1]
                           secondName := some "q.v2_j.bin", questNo := some 0
                           expectedSize := some 1025 },
                         { name := "q.dat", data := [1, 2], chunkNumbers := [0]
                           secondName := some "q_e.dat", questNo := some 58
                           expectedSize := some 2 }]
                      diagnostics := [] } := by
  intro f g
  have hlen : f.data.length = 1025 := List.length_replicate
  have hf : f.Fitting :=
    ⟨by decide, by decide, List.ne_nil_of_length_pos (by omega), by omega, by decide, by decide⟩
  have hg : g.Fitting := ⟨by decide, by decide, by decide, by decide, by decide, by decide⟩
  obtain ⟨bs, hw, hr⟩ := files_round_trip hf hg (by decide)
  have hfirst : f.memberOf f.secondNameOrDefault =
      { name := "q.v2.bin", data := List.replicate 1025 7, chunkNumbers := [0, 1]
        secondName := some "q.v2_j.bin", questNo := some 0, expectedSize := some 1025 } := by
    unfold NewMember.memberOf NewMember.chunkCount
    rw [hlen, show f.secondNameOrDefault = "q.v2_j.bin" by decide]
    rfl
  have hother : g.memberOf g.secondNameOrDefault =
      { name := "q.dat", data := [1, 2], chunkNumbers := [0], secondName := some "q_e.dat"
        questNo := some 58, expectedSize := some 2 } := by decide
  rw [hfirst, hother] at hr
  exact ⟨bs, hw, hr⟩

end Archive
end QuestArchive
