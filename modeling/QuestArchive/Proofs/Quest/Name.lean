import Mathlib.Data.List.Infix
import QuestArchive.Proofs.Bytes.Field
import QuestArchive.Quest.Codec

/-!
# The names of an archive's files

The two files have a common base and an extension each, and are found by their extensions
whatever the base is.
-/

namespace QuestArchive

namespace Text

/-- Blanks in front of a text that neither begins nor ends with one do not matter to it. -/
theorem exists_trim_append (front : Text) {t : Text} (hne : t ≠ []) (hl : trimLeft t = t)
    (hr : trimRight t = t) : ∃ rest, trim (front ++ t) = rest ++ t := by
  have hleft : trimLeft (front ++ t) = trimLeft front ++ t := by
    unfold trimLeft at hl ⊢
    rw [List.dropWhile_append, hl]
    split
    · next hnil => rw [List.isEmpty_iff.1 hnil, List.nil_append]
    · rfl
  have hrev : t.reverse.dropWhile Rune.isBlank = t.reverse := by
    rw [← List.reverse_inj, List.reverse_reverse]
    exact hr
  refine ⟨trimLeft front, ?_⟩
  unfold trim
  rw [hleft]
  unfold trimRight
  rw [List.reverse_append, List.dropWhile_append, hrev, if_neg (by simpa using hne),
    ← List.reverse_append, List.reverse_reverse]

end Text

namespace Quest

/-! ## Extensions -/

/-- A name has the extension that it ends in, and no other one of the same length. -/
theorem hasExtension_append {base extension other : String}
    (hne : Text.ofString extension ≠ [])
    (hl : Text.trimLeft (.ofString extension) = .ofString extension)
    (hr : Text.trimRight (.ofString extension) = .ofString extension)
    (hlower : Text.lower (.ofString extension) = .ofString extension)
    (hlen : (Text.ofString other).length = (Text.ofString extension).length) :
    hasExtension other (base ++ extension) = true ↔ other = extension := by
  have hsplit : Text.ofString (base ++ extension) =
      Text.ofString base ++ Text.ofString extension := by
    unfold Text.ofString
    rw [String.toList_append, List.map_append]
  obtain ⟨rest, hrest⟩ := Text.exists_trim_append (.ofString base) hne hl hr
  have happ : Text.lower (rest ++ .ofString extension) =
      Text.lower rest ++ .ofString extension := by
    conv_rhs => rw [← hlower]
    exact List.map_append
  unfold hasExtension
  dsimp only
  rw [hsplit, hrest, happ, List.isSuffixOf_iff_suffix]
  constructor
  · intro h
    have heq := (List.suffix_of_suffix_length_le h (List.suffix_append _ _)
      (Nat.le_of_eq hlen)).eq_of_length hlen
    rw [← Text.toString_ofString other, heq, Text.toString_ofString]
  · rintro rfl
    exact List.suffix_append _ _

variable {base : String}

theorem hasExtension_dat {other : String} (h : (Text.ofString other).length = 4) :
    hasExtension other (base ++ ".dat") = true ↔ other = ".dat" :=
  hasExtension_append (by decide) (by decide) (by decide) (by decide) h

theorem hasExtension_bin {other : String} (h : (Text.ofString other).length = 4) :
    hasExtension other (base ++ ".bin") = true ↔ other = ".bin" :=
  hasExtension_append (by decide) (by decide) (by decide) (by decide) h

/-- The entity table and the script file are told apart by their names. -/
theorem parts_eq {table script : Archive.Member} (ht : table.name = base ++ ".dat")
    (hs : script.name = base ++ ".bin") :
    parts [table, script] = .ok (table.data, script.data) := by
  have htable : hasExtension ".dat" table.name = true := by
    rw [ht, hasExtension_dat (by decide)]
  have hother : ¬hasExtension ".dat" script.name = true := by
    rw [hs, hasExtension_bin (by decide)]
    decide
  have hscript : hasExtension ".bin" script.name = true := by
    rw [hs, hasExtension_bin (by decide)]
  unfold parts
  simp [hother, htable, hscript]

/-- No name has both extensions, so that two files are found under two names. -/
theorem exists_of_parts {members : List Archive.Member} {files : Bytes × Bytes}
    (h : parts members = .ok files) : ∃ t ∈ members, ∃ s ∈ members, t.name ≠ s.name := by
  unfold parts at h
  split at h
  · cases h
  · next t ht =>
    split at h
    · cases h
    · next s hs =>
      refine ⟨t, List.mem_reverse.1 (List.mem_of_find?_eq_some ht), s,
        List.mem_reverse.1 (List.mem_of_find?_eq_some hs), fun he => ?_⟩
      have hdat := List.find?_some ht
      have hbin := List.find?_some hs
      rw [← he] at hbin
      unfold hasExtension at hdat hbin
      have hlen : (Text.ofString ".dat").length = (Text.ofString ".bin").length := by decide
      have hsame := (List.suffix_of_suffix_length_le (List.isSuffixOf_iff_suffix.1 hdat)
        (List.isSuffixOf_iff_suffix.1 hbin) (Nat.le_of_eq hlen)).eq_of_length hlen
      exact absurd hsame (by decide)

/-! ## Base names -/

variable {fileName : String} {n : Int}

theorem toList_baseName : ∃ k, (baseName fileName n).toList = fileName.toList.take k := by
  unfold baseName
  dsimp only
  rw [String.toList_ofList]
  exact ⟨_, rfl⟩

theorem isName_baseName (h : Field.IsName fileName) : Field.IsName (baseName fileName n) := by
  obtain ⟨k, hk⟩ := @toList_baseName fileName n
  intro c hc
  rw [hk] at hc
  exact h c (List.mem_of_mem_take hc)

theorem length_baseName_le (hn : 0 ≤ n) : ((baseName fileName n).length : Int) ≤ n := by
  unfold baseName
  dsimp only
  rw [String.length_ofList, List.length_take]
  unfold Cursor.clamp
  split <;> split <;> omega

theorem isName_append {s t : String} (hs : Field.IsName s) (ht : Field.IsName t) :
    Field.IsName (s ++ t) := by
  intro c hc
  rw [String.toList_append] at hc
  rcases List.mem_append.1 hc with hc | hc
  · exact hs c hc
  · exact ht c hc

/-- The second name of a file has its suffix in front of the extension. -/
theorem defaultSecondName_append {base extension suffix : String} {letters : List Char}
    (he : extension.toList = '.' :: letters) (hl : '.' ∉ letters) :
    Archive.defaultSecondName (base ++ extension) suffix = base ++ suffix ++ extension := by
  have hsplit : Archive.splitExtension (base ++ extension) = (base, extension) := by
    have hreversed : (base ++ extension).toList.reverse =
        letters.reverse ++ '.' :: base.toList.reverse := by
      rw [String.toList_append, he, List.reverse_append, List.reverse_cons, List.append_assoc]
      rfl
    have htake : (letters.reverse ++ '.' :: base.toList.reverse).takeWhile (· ≠ '.') =
        letters.reverse := by
      rw [List.takeWhile_append_of_pos, List.takeWhile_cons_of_neg (by decide), List.append_nil]
      intro c hc
      refine decide_eq_true fun hdot => hl ?_
      rw [← hdot]
      exact List.mem_reverse.1 hc
    have hlen : ¬letters.reverse.length =
        (letters.reverse ++ '.' :: base.toList.reverse).length := by
      simp
    have hdrop : (letters.reverse ++ '.' :: base.toList.reverse).drop
        (letters.reverse.length + 1) = base.toList.reverse := by
      rw [← List.drop_drop, List.drop_left]
      rfl
    unfold Archive.splitExtension
    dsimp only
    rw [hreversed, htake, if_neg hlen, hdrop, List.reverse_reverse, List.reverse_reverse,
      String.ofList_toList, ← he, String.ofList_toList]
  unfold Archive.defaultSecondName
  rw [hsplit]

end Quest
end QuestArchive
