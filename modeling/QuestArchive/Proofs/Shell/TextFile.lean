import QuestArchive.Proofs.Script.Breaking
import QuestArchive.Shell.Assemble

/-!
# Lines written to a text file and read back

A text file ends each line with a line feed.  Reading it back gives the lines as they were,
except that a line is split where another line end stands in it.
-/

namespace QuestArchive

/-! ## Characters -/

namespace Text

theorem foldLineEnds_self {cs : List Char} (h : '\r' ∉ cs) : foldLineEnds cs = cs := by
  induction cs with
  | nil => rfl
  | cons c cs ih =>
    obtain ⟨hc, hcs⟩ := not_or.1 (mt List.mem_cons.2 h)
    have hne : c ≠ '\r' := fun he => hc he.symm
    rw [foldLineEnds, ih hcs]
    · exact fun _ heq _ => hne heq
    · exact hne

theorem linesFrom_cons {c : Char} (h : c ≠ '\r') (line cs : List Char) :
    linesFrom line (c :: cs) =
      if isLineEnd c then line.reverse :: linesFrom [] cs else linesFrom (c :: line) cs := by
  rw [linesFrom.eq_def]
  split
  · next hnil => cases hnil
  · next hreturn => exact absurd (List.cons.inj hreturn).1 h
  · next hcons =>
    cases hcons
    rfl

/-- Up to a line feed, a text is split without regard to what follows. -/
theorem linesFrom_append {cs : List Char} (h : '\r' ∉ cs) (line rest : List Char) :
    linesFrom line (cs ++ '\n' :: rest) = linesFrom line (cs ++ ['\n']) ++ linesFrom [] rest := by
  induction cs generalizing line with
  | nil => rfl
  | cons c cs ih =>
    obtain ⟨hc, hcs⟩ := not_or.1 (mt List.mem_cons.2 h)
    have hne : c ≠ '\r' := fun he => hc he.symm
    rw [List.cons_append, List.cons_append, linesFrom_cons hne, linesFrom_cons hne]
    split
    · rw [ih hcs, List.cons_append]
    · exact ih hcs _

theorem lines_flatMap {ls : List (List Char)} (h : ∀ cs ∈ ls, '\r' ∉ cs) :
    lines (ls.flatMap (· ++ ['\n'])) = ls.flatMap fun cs => lines (cs ++ ['\n']) := by
  induction ls with
  | nil => rfl
  | cons cs ls ih =>
    obtain ⟨hcs, hls⟩ := List.forall_mem_cons.1 h
    rw [List.flatMap_cons, List.flatMap_cons, ← ih hls, List.append_assoc]
    exact linesFrom_append hcs [] _

theorem linesFrom_eq {cs : List Char} (h : '\r' ∉ cs) (line : List Char) :
    ∃ more, linesFrom line (cs ++ ['\n']) =
        (line.reverse ++ cs.takeWhile fun c => !isLineEnd c) :: more ∧
      ((∀ c ∈ cs, isLineEnd c = false) → more = []) := by
  induction cs generalizing line with
  | nil => exact ⟨[], by rw [List.takeWhile_nil, List.append_nil]; rfl, fun _ => rfl⟩
  | cons c cs ih =>
    obtain ⟨hc, hcs⟩ := not_or.1 (mt List.mem_cons.2 h)
    rw [List.cons_append, linesFrom_cons fun he => hc he.symm]
    cases he : isLineEnd c with
    | true =>
      refine ⟨linesFrom [] (cs ++ ['\n']), ?_, fun hall => ?_⟩
      · rw [if_pos rfl, List.takeWhile_cons_of_neg (by rw [he]; decide), List.append_nil]
      · exact absurd (he.symm.trans (hall c List.mem_cons_self)) (by decide)
    | false =>
      obtain ⟨more, hmore, hnil⟩ := ih hcs (c :: line)
      refine ⟨more, ?_, fun hall => hnil (List.forall_mem_cons.1 hall).2⟩
      rw [if_neg (by decide), hmore, List.takeWhile_cons_of_pos (by rw [he]; rfl),
        List.reverse_cons, List.append_assoc, List.singleton_append]

/-! ## Lines -/

def split (t : Text) : List Text := (lines (t.map Rune.toChar ++ ['\n'])).map (·.map .char)

variable {t : Text}

theorem map_toChar (h : ∀ r ∈ t, r.isFiled = true) :
    (t.map Rune.toChar).map Rune.char = t ∧ '\r' ∉ t.map Rune.toChar := by
  have filed : ∀ r ∈ t, Rune.char r.toChar = r ∧ r.toChar ≠ '\r' := by
    intro r hr
    cases r with
    | char c => exact ⟨rfl, of_decide_eq_true (h _ hr)⟩
    | surrogate n => exact absurd (h _ hr) Bool.false_ne_true
  refine ⟨?_, fun hm => ?_⟩
  · rw [List.map_map]
    exact (List.map_congr_left fun r hr => (filed r hr).1).trans (List.map_id t)
  · obtain ⟨r, hr, he⟩ := List.mem_map.1 hm
    exact (filed r hr).2 he

theorem split_eq (h : ∀ r ∈ t, r.isFiled = true) :
    ∃ more, split t = firstLine t :: more ∧ ((∀ r ∈ t, r.endsLine = false) → more = []) := by
  obtain ⟨hchars, hreturn⟩ := map_toChar h
  obtain ⟨more, hmore, hnil⟩ := linesFrom_eq hreturn []
  refine ⟨more.map (·.map .char), ?_, fun hall => ?_⟩
  · rw [split, lines, hmore, List.map_cons, List.reverse_nil, List.nil_append]
    congr 1
    have hfirst : firstLine ((t.map Rune.toChar).map Rune.char) =
        ((t.map Rune.toChar).takeWhile fun c => !isLineEnd c).map Rune.char := List.takeWhile_map ..
    rw [← hfirst, hchars]
  · rw [hnil, List.map_nil]
    intro c hc
    have hr := List.mem_map_of_mem (f := Rune.char) hc
    rw [hchars] at hr
    exact hall _ hr

theorem split_self (h : ∀ r ∈ t, r.isFiled = true) (he : ∀ r ∈ t, r.endsLine = false) :
    split t = [t] := by
  obtain ⟨more, hmore, hnil⟩ := split_eq h
  rw [hmore, hnil he, firstLine_self he]

theorem firstLine_mem_split (h : ∀ r ∈ t, r.isFiled = true) : firstLine t ∈ split t := by
  obtain ⟨more, hmore, -⟩ := split_eq h
  rw [hmore]
  exact List.mem_cons_self

end Text

/-! ## Bytes -/

namespace Shell

theorem toList_loop (b : ByteArray) (i : Nat) (front : List UInt8) :
    ByteArray.toList.loop b i front = front.reverse ++ b.data.toList.drop i := by
  fun_induction ByteArray.toList.loop b i front with
  | case1 i front h ih =>
    have hi : i < b.data.toList.length := h
    have hget : b.get! i = b.data.toList[i] := by
      show b.data[i]! = _
      rw [getElem!_pos b.data i h]
      rfl
    rw [ih, List.drop_eq_getElem_cons hi, hget, List.reverse_cons, List.append_assoc]
    rfl
  | case2 i front h =>
    rw [List.drop_eq_nil_of_le (Nat.le_of_not_lt h), List.append_nil]

theorem chars_toUTF8 (s : String) : Assemble.chars s.toUTF8.toList = .ok s.toList := by
  have hbytes : ByteArray.mk s.toUTF8.toList.toArray = s.toUTF8 := by
    rw [ByteArray.toList, toList_loop, List.reverse_nil, List.nil_append, List.drop_zero,
      Array.toArray_toList]
  have hs : String.fromUTF8? s.toUTF8 = some s := by
    unfold String.fromUTF8?
    rw [String.toUTF8_eq_toByteArray, dif_pos s.isValidUTF8]
    rfl
  unfold Assemble.chars
  rw [hbytes, hs]

def fileLines (lines : List Text) : List Text :=
  (if lines.isEmpty then [[]] else lines).flatMap Text.split

theorem exists_sourceLines {lines : List Text} (h : ∀ l ∈ lines, ∀ r ∈ l, r.isFiled = true) :
    ∃ cs, Assemble.chars (Assemble.sourceFile lines) = .ok cs ∧
      Assemble.sourceLines cs = fileLines lines := by
  refine ⟨_, chars_toUTF8 _, ?_⟩
  unfold fileLines
  have hshown : ∀ l ∈ (if lines.isEmpty then [[]] else lines), ∀ r ∈ l, r.isFiled = true := by
    split
    · exact fun l hl r hr => absurd (List.mem_singleton.1 hl ▸ hr) List.not_mem_nil
    · exact h
  generalize (if lines.isEmpty then [[]] else lines) = shown at hshown
  have hchars : (Outcome.print shown).toString.toList =
      (shown.map (·.map Rune.toChar)).flatMap (· ++ ['\n']) := by
    rw [Text.toString, String.toList_ofList, Outcome.print, List.map_flatMap, List.flatMap_map]
    simp [Rune.toChar]
  have hreturn : ∀ cs ∈ shown.map (·.map Rune.toChar), '\r' ∉ cs := by
    intro cs hcs
    obtain ⟨l, hl, rfl⟩ := List.mem_map.1 hcs
    exact (Text.map_toChar (hshown l hl)).2
  have hfold : '\r' ∉ (shown.map (·.map Rune.toChar)).flatMap (· ++ ['\n']) := by
    intro hm
    obtain ⟨cs, hcs, hm⟩ := List.mem_flatMap.1 hm
    rcases List.mem_append.1 hm with hm | hm
    · exact hreturn cs hcs hm
    · exact absurd (List.mem_singleton.1 hm) (by decide)
  rw [hchars, Assemble.sourceLines, Text.foldLineEnds_self hfold, Text.lines_flatMap hreturn,
    List.flatMap_map, List.map_flatMap]
  rfl

end Shell
end QuestArchive
