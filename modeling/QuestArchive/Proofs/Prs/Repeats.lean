import QuestArchive.Proofs.Prs.Spelling
import QuestArchive.Prs.Compress

/-!
# Tokens that the search chooses

Every position in the index stands before the place searched from and starts with the
bytes it is listed under.  A repeat found is therefore one, and the tokens chosen cut
the data into pieces, each of which the bytes before it determine.
-/

namespace QuestArchive
namespace Prs

def Token.extent : Token → Nat
  | literal _ => 1
  | short _ length | long _ length => length

/-- What stands `distance` bytes before a position is repeated there. -/
structure Repeats (data : Array UInt8) (pos distance length : Nat) : Prop where
  positive : 1 ≤ distance
  within : distance ≤ pos
  room : pos + length ≤ data.size
  agree : ∀ k < length, data.getD (pos - distance + k) 0 = data.getD (pos + k) 0

def Token.StandsAt (data : Array UInt8) (pos : Nat) : Token → Prop
  | literal b => pos < data.size ∧ b = data.getD pos 0
  | short distance length | long distance length => Repeats data pos distance length

def Covers (data : Array UInt8) (pos : Nat) : List Token → Prop
  | [] => pos = data.size
  | t :: ts => t.StandsAt data pos ∧ Covers data (pos + t.extent) ts

theorem extract_push (data : Array UInt8) {pos : Nat} (h : pos < data.size) :
    (data.extract 0 pos).push (data.getD pos 0) = data.extract 0 (pos + 1) := by
  have hb : data.getD pos 0 = data[pos] := by simp [Array.getD, h]
  rw [hb, Array.push_extract_getElem, Nat.zero_min]

theorem copy_of_repeats {data : Array UInt8} {distance : Nat} :
    ∀ {pos length : Nat}, Repeats data pos distance length →
      copy (data.extract 0 pos) distance length = data.extract 0 (pos + length) := by
  intro pos length
  induction length generalizing pos with
  | zero => intro _; rfl
  | succ length ih =>
    rintro ⟨positive, within, room, agree⟩
    have hsize : (data.extract 0 pos).size = pos := by
      rw [Array.size_extract]
      omega
    -- The byte copied stands in the output already, even where the copy overlaps itself.
    have hbyte : (data.extract 0 pos).getD (pos - distance) 0 = data.getD pos 0 := by
      have h0 := agree 0 (Nat.succ_pos length)
      rw [Nat.add_zero, Nat.add_zero] at h0
      rw [← h0]
      have hlt : pos - distance < pos := by omega
      have hlt' : pos - distance < data.size := by omega
      simp [Array.getD, hsize, hlt, hlt']
    have next : Repeats data (pos + 1) distance length := by
      refine ⟨positive, by omega, by omega, fun k hk => ?_⟩
      have hk' := agree (k + 1) (by omega)
      have e1 : pos - distance + (k + 1) = pos + 1 - distance + k := by omega
      have e2 : pos + (k + 1) = pos + 1 + k := by omega
      rw [e1, e2] at hk'
      exact hk'
    rw [copy, hsize, hbyte, extract_push data (by omega), ih next]
    congr 1
    omega

theorem extend_of_standsAt {data : Array UInt8} {pos : Nat} {t : Token}
    (h : t.StandsAt data pos) :
    t.extend (data.extract 0 pos) = .ok (data.extract 0 (pos + t.extent)) := by
  have copied {distance length : Nat} (hr : Repeats data pos distance length) :
      (if distance ≤ (data.extract 0 pos).size then
          .ok (copy (data.extract 0 pos) distance length)
        else .error (.copyBeforeStart distance (data.extract 0 pos).size) :
          Except Fault (Array UInt8)) =
        .ok (data.extract 0 (pos + length)) := by
    have hd : distance ≤ (data.extract 0 pos).size := by
      have := hr.within
      have := hr.room
      rw [Array.size_extract]
      omega
    rw [if_pos hd, copy_of_repeats hr]
  cases t with
  | literal b =>
    obtain ⟨hp, rfl⟩ := h
    show Except.ok ((data.extract 0 pos).push (data.getD pos 0)) = _
    rw [extract_push data hp]
    rfl
  | short distance length => exact copied h
  | long distance length => exact copied h

theorem expand_of_covers {data : Array UInt8} {pos : Nat} {ts : List Token}
    (h : Covers data pos ts) : expand (data.extract 0 pos) ts = .ok data := by
  induction ts generalizing pos with
  | nil =>
    have hp : pos = data.size := h
    rw [hp, Array.extract_size]
    rfl
  | cons t ts ih =>
    obtain ⟨ht, hts⟩ := h
    have hx : expand (data.extract 0 pos) (t :: ts) =
        t.extend (data.extract 0 pos) >>= fun out => expand out ts := rfl
    rw [hx, extend_of_standsAt ht]
    exact ih hts

/-! ## The search -/

/-- Every position listed stands before `pos` and starts with the bytes that it is
listed under. -/
def Index.Sound (data : Array UInt8) (pos : Nat) (index : Index) : Prop :=
  ∀ key, ∀ p ∈ index.getD key [], p < pos ∧ key? data p = some key

theorem Index.sound_empty (data : Array UInt8) (pos : Nat) : Index.Sound data pos ∅ := by
  intro key p hp
  simp at hp

theorem Index.Sound.record {data : Array UInt8} {pos : Nat} {index : Index}
    (h : Index.Sound data pos index) : Index.Sound data (pos + 1) (record data index pos) := by
  have keep : Index.Sound data (pos + 1) index := fun key p hp =>
    ⟨Nat.lt_succ_of_lt (h key p hp).1, (h key p hp).2⟩
  unfold Prs.record
  split
  · exact keep
  · next k hk =>
    intro key p hp
    rw [Std.HashMap.getD_insert] at hp
    split at hp
    · next he =>
      have he : k = key := by simpa using he
      subst he
      have hmem : p ∈ pos :: index.getD k [] := by
        split at hp
        · exact List.mem_of_mem_take hp
        · exact hp
      rcases List.mem_cons.1 hmem with rfl | hmem
      · exact ⟨Nat.lt_succ_self p, hk⟩
      · exact keep k p hmem
    · exact keep key p hp

theorem Index.Sound.recordRun {data : Array UInt8} {count : Nat} :
    ∀ {pos : Nat} {index : Index}, Index.Sound data pos index →
      Index.Sound data (pos + count) (recordRun data index pos count) := by
  induction count with
  | zero => intro pos index h; exact h
  | succ count ih =>
    intro pos index h
    have := ih h.record
    rwa [Nat.add_right_comm] at this

theorem runLength_spec {data : Array UInt8} {i j limit : Nat} : ∀ {length : Nat},
    length ≤ limit → (∀ k < length, data.getD (i + k) 0 = data.getD (j + k) 0) →
      length ≤ runLength data i j limit length ∧ runLength data i j limit length ≤ limit ∧
        ∀ k < runLength data i j limit length, data.getD (i + k) 0 = data.getD (j + k) 0 := by
  intro length
  fun_induction runLength data i j limit length with
  | case1 length hc ih =>
    intro _ agree
    obtain ⟨h1, h2, h3⟩ := ih hc.1 (fun k hk => by
      rcases Nat.lt_succ_iff_lt_or_eq.1 hk with hk | rfl
      · exact agree k hk
      · exact hc.2)
    exact ⟨by omega, h2, h3⟩
  | case2 length hc =>
    intro hle agree
    exact ⟨Nat.le_refl _, hle, agree⟩

theorem agree_of_key? {data : Array UInt8} {i j : Nat} {key : List UInt8}
    (hi : key? data i = some key) (hj : key? data j = some key) :
    ∀ k < minMatch, data.getD (i + k) 0 = data.getD (j + k) 0 := by
  unfold key? at hi hj
  split at hi
  · next h =>
    split at hj
    · next h' =>
      rw [← Option.some.inj hi] at hj
      injection hj with hj
      simp only [List.cons.injEq, and_true] at hj
      obtain ⟨h0, h1, h2⟩ := hj
      intro k hk
      have hk : k = 0 ∨ k = 1 ∨ k = 2 := by
        simp only [minMatch] at hk
        omega
      rcases hk with rfl | rfl | rfl
      · simp [Array.getD, show i < data.size by omega, show j < data.size by omega, h0]
      · simp [Array.getD, show i + 1 < data.size by omega, show j + 1 < data.size by omega, h1]
      · simp [Array.getD, h, h', h2]
    · cases hj
  · cases hi

/-- What a search has found: nothing, or a repeat that can be stored. -/
def Found (data : Array UInt8) (pos : Nat) (found : Nat × Nat) : Prop :=
  found.1 = 0 ∨
    Repeats data pos found.2 found.1 ∧ minMatch ≤ found.1 ∧ found.1 ≤ maxLength ∧
      found.2 ≤ maxDistance

theorem found_scan {data : Array UInt8} {pos limit : Nat} {key : List UInt8}
    (hpos : key? data pos = some key) (hlow : minMatch ≤ limit) (hhigh : limit ≤ maxLength)
    (hroom : pos + limit ≤ data.size) {candidates : List Nat}
    (hc : ∀ p ∈ candidates, p < pos ∧ key? data p = some key) :
    ∀ {best : Nat × Nat}, Found data pos best →
      Found data pos (scan data pos limit best candidates) := by
  induction candidates with
  | nil => intro best hb; exact hb
  | cons candidate rest ih =>
    intro best hb
    have hrest : ∀ p ∈ rest, p < pos ∧ key? data p = some key := fun p hp =>
      hc p (List.mem_cons_of_mem candidate hp)
    obtain ⟨hlt, hkey⟩ := hc candidate List.mem_cons_self
    obtain ⟨hmin, hmax, agree⟩ :=
      runLength_spec (i := candidate) (j := pos) hlow (agree_of_key? hkey hpos)
    unfold scan
    by_cases hd : maxDistance < pos - candidate
    · rw [if_pos hd]
      exact hb
    · have hf : Found data pos
          (runLength data candidate pos limit minMatch, pos - candidate) := by
        refine Or.inr ⟨⟨?_, ?_, ?_, ?_⟩, hmin, Nat.le_trans hmax hhigh, Nat.le_of_not_lt hd⟩
        · show 1 ≤ pos - candidate
          omega
        · exact Nat.sub_le pos candidate
        · show pos + runLength data candidate pos limit minMatch ≤ data.size
          omega
        · intro k hk
          have he : pos - (pos - candidate) = candidate := by omega
          show data.getD (pos - (pos - candidate) + k) 0 = data.getD (pos + k) 0
          rw [he]
          exact agree k hk
      rw [if_neg hd]
      by_cases hbest : best.1 < runLength data candidate pos limit minMatch
      · rw [if_pos hbest]
        by_cases hfull : runLength data candidate pos limit minMatch = limit
        · rw [if_pos hfull]
          exact hf
        · rw [if_neg hfull]
          exact ih hrest hf
      · rw [if_neg hbest]
        exact ih hrest hb

theorem found_findMatch {data : Array UInt8} {pos : Nat} {index : Index}
    (h : Index.Sound data pos index) : Found data pos (findMatch data index pos) := by
  unfold findMatch
  split
  · exact Or.inl rfl
  · next key hkey =>
    have hsize : pos + 2 < data.size := by
      unfold key? at hkey
      split at hkey
      · assumption
      · cases hkey
    refine found_scan hkey ?_ (Nat.min_le_left _ _) ?_ ?_ (Or.inl rfl)
    · exact Nat.le_min.2 ⟨by decide, by simp only [minMatch]; omega⟩
    · omega
    · intro p hp
      exact h key p (List.mem_of_mem_take hp)

/-! ## The tokens chosen -/

theorem chooseToken_spec {data : Array UInt8} {pos : Nat} {found : Nat × Nat}
    (hpos : pos < data.size) (h : Found data pos found) :
    let t := chooseToken data pos found.1 found.2
    t.StandsAt data pos ∧ t.Storable ∧
      t.extent = max 1 (if found.1 < minMatch then 1 else found.1) := by
  intro t
  by_cases hm : found.1 < minMatch
  · have ht : t = .literal (data.getD pos 0) := if_pos hm
    rw [ht, if_pos hm]
    exact ⟨⟨hpos, rfl⟩, trivial, rfl⟩
  · obtain ⟨hr, h3, hmax, hd⟩ : Repeats data pos found.2 found.1 ∧ minMatch ≤ found.1 ∧
        found.1 ≤ maxLength ∧ found.2 ≤ maxDistance := by
      rcases h with h | h
      · simp only [minMatch] at hm
        omega
      · exact h
    have h1 := hr.positive
    simp only [minMatch, maxLength, maxDistance] at h3 hmax hd
    have hext : max 1 (if found.1 < minMatch then 1 else found.1) = found.1 := by
      rw [if_neg hm]
      omega
    rw [hext]
    by_cases hs : found.2 ≤ maxShortDistance ∧ found.1 ≤ maxShortLength
    · have ht : t = .short found.2 found.1 := (if_neg hm).trans (if_pos hs)
      simp only [maxShortDistance, maxShortLength] at hs
      rw [ht]
      exact ⟨hr, ⟨⟨h1, hs.1⟩, by omega, hs.2⟩, rfl⟩
    · have ht : t = .long found.2 found.1 := (if_neg hm).trans (if_neg hs)
      rw [ht]
      refine ⟨hr, ?_, rfl⟩
      by_cases hl : found.1 ≤ 9
      · exact Or.inl ⟨h1, by omega, h3, hl⟩
      · exact Or.inr ⟨h1, hd, by omega, hmax⟩

theorem Token.StandsAt.room {data : Array UInt8} {pos : Nat} {t : Token}
    (h : t.StandsAt data pos) : pos + t.extent ≤ data.size := by
  cases t with
  | literal b => exact h.1
  | short distance length => exact Repeats.room h
  | long distance length => exact Repeats.room h

theorem tokensFrom_spec {data : Array UInt8} : ∀ {index : Index} {pos : Nat} (before : Array Token),
    pos ≤ data.size → Index.Sound data pos index →
      ∃ ts, (tokensFrom data index pos before).toList = before.toList ++ ts ∧
        Covers data pos ts ∧ ∀ t ∈ ts, t.Storable := by
  intro index pos before
  fun_induction tokensFrom data index pos before with
  | case1 index pos before hlt found length ih =>
    intro _ hs
    obtain ⟨hat, hstore, hext⟩ := chooseToken_spec hlt (found_findMatch hs)
    have hroom := hat.room
    rw [hext] at hroom
    obtain ⟨ts, hts, hcov, hall⟩ := ih hroom hs.recordRun
    refine ⟨chooseToken data pos found.1 found.2 :: ts, ?_, ⟨hat, ?_⟩, ?_⟩
    · rw [hts, Array.toList_push, List.append_assoc]
      rfl
    · rw [hext]
      exact hcov
    · intro t ht
      rcases List.mem_cons.1 ht with rfl | ht
      · exact hstore
      · exact hall t ht
  | case2 index pos before hge =>
    intro hle _
    exact ⟨[], (List.append_nil _).symm, by show pos = data.size; omega, by simp⟩

theorem tokens_spec (data : Bytes) :
    Covers data.toArray 0 (tokens data) ∧ ∀ t ∈ tokens data, t.Storable := by
  obtain ⟨ts, hts, hcov, hall⟩ :=
    tokensFrom_spec #[] (Nat.zero_le _) (Index.sound_empty data.toArray 0)
  have he : tokens data = ts := hts
  rw [he]
  exact ⟨hcov, hall⟩

end Prs
end QuestArchive
