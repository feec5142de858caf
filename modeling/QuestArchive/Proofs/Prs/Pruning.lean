import Mathlib.Data.Nat.Find
import QuestArchive.Proofs.Prs.Repeats
import QuestArchive.Prs.Compress

/-!
# Positions that are dropped are never missed

The index drops positions that are old, and a search gives up at a candidate that is too far
away.  Neither changes what is found: an index holds the newest positions of every three bytes,
in order and at least as many as a search looks at.  So each search finds the longest repeat
among the newest candidates, the nearest one of equally long ones, and compression chooses the
tokens it would choose if nothing were ever dropped.
-/

namespace QuestArchive
namespace Prs

/-! ## What a search is for -/

def Agree (data : Array UInt8) (i j length : Nat) : Prop :=
  ∀ k < length, data.getD (i + k) 0 = data.getD (j + k) 0

instance (data : Array UInt8) (i j length : Nat) : Decidable (Agree data i j length) :=
  inferInstanceAs (Decidable (∀ k < length, data.getD (i + k) 0 = data.getD (j + k) 0))

/-- The positions before one at which the same three bytes start, newest first. -/
def earlier (data : Array UInt8) (pos : Nat) : List Nat :=
  (List.range pos).reverse.filter fun p => Agree data p pos minMatch

/-- The newest of these positions, as far as a copy can reach them. -/
def candidates (data : Array UInt8) (pos : Nat) : List Nat :=
  ((earlier data pos).take maxCandidates).filter fun p => pos - p ≤ maxDistance

def reach (data : Array UInt8) (pos : Nat) : Nat := min maxLength (data.size - pos)

def commonRun (data : Array UInt8) (p pos : Nat) : Nat :=
  Nat.findGreatest (Agree data p pos) (reach data pos)

/-- One position is the best of some: none has a longer run, and the ones that come as far stand
before it. -/
structure Best (run : Nat → Nat) (ps : List Nat) (p : Nat) : Prop where
  mem : p ∈ ps
  best : ∀ q ∈ ps, run q < run p ∨ run q = run p ∧ q ≤ p

theorem Best.behind {run : Nat → Nat} {ps : List Nat} {p c : Nat} (h : Best run ps p)
    (hc : run c < run p) : Best run (c :: ps) p :=
  ⟨List.mem_cons_of_mem c h.mem, List.forall_mem_cons.2 ⟨Or.inl hc, h.best⟩⟩

theorem best_head {run : Nat → Nat} {ps : List Nat} {c : Nat}
    (h : ∀ q ∈ ps, q ≤ c ∧ run q ≤ run c) : Best run (c :: ps) c := by
  refine ⟨List.mem_cons_self, List.forall_mem_cons.2 ⟨Or.inr ⟨rfl, Nat.le_refl c⟩, ?_⟩⟩
  intro q hq
  have := h q hq
  omega

theorem Best.congr {run run' : Nat → Nat} {ps : List Nat} {p : Nat} (h : Best run ps p)
    (heq : ∀ q ∈ ps, run q = run' q) : Best run' ps p := by
  refine ⟨h.mem, fun q hq => ?_⟩
  rw [← heq q hq, ← heq p h.mem]
  exact h.best q hq

/-- What a search should give: the length and the distance of the best candidate, and zeros if
there is none. -/
structure Longest (data : Array UInt8) (pos : Nat) (found : Nat × Nat) : Prop where
  nothing : data.size < pos + minMatch ∨ candidates data pos = [] → found = (0, 0)
  something : pos + minMatch ≤ data.size → candidates data pos ≠ [] →
    ∃ p, Best (commonRun data · pos) (candidates data pos) p ∧
      found = (commonRun data p pos, pos - p)

/-- There is one length and distance that a search should give. -/
theorem Longest.unique {data : Array UInt8} {pos : Nat} {found found' : Nat × Nat}
    (h : Longest data pos found) (h' : Longest data pos found') : found = found' := by
  by_cases hnone : data.size < pos + minMatch ∨ candidates data pos = []
  · rw [h.nothing hnone, h'.nothing hnone]
  · rw [not_or, Nat.not_lt] at hnone
    obtain ⟨p, hp, rfl⟩ := h.something hnone.1 hnone.2
    obtain ⟨q, hq, rfl⟩ := h'.something hnone.1 hnone.2
    have hle := hp.best q hq.mem
    have hge := hq.best p hp.mem
    have hpq : p = q := by omega
    rw [hpq]

/-! ## Scanning candidates -/

theorem runLength_stops (data : Array UInt8) (i j : Nat) {limit length : Nat}
    (h : length ≤ limit) :
    runLength data i j limit length = limit ∨
      data.getD (i + runLength data i j limit length) 0 ≠
        data.getD (j + runLength data i j limit length) 0 := by
  fun_induction runLength data i j limit length with
  | case1 length hc ih => exact ih hc.1
  | case2 length hc =>
    by_cases hl : length < limit
    · exact Or.inr fun he => hc ⟨hl, he⟩
    · exact Or.inl (by omega)

theorem runLength_eq {data : Array UInt8} {p pos : Nat} (hroom : minMatch ≤ reach data pos)
    (hp : Agree data p pos minMatch) :
    runLength data p pos (reach data pos) minMatch = commonRun data p pos := by
  obtain ⟨-, hmax, hagree⟩ := runLength_spec hroom hp
  have hstop := runLength_stops data p pos hroom
  refine (Nat.findGreatest_eq_iff.2 ⟨hmax, fun _ => hagree, fun n hn hle hall => ?_⟩).symm
  rcases hstop with heq | hne
  · omega
  · exact hne (hall _ hn)

theorem near_eq_nil {pos c : Nat} {ps : List Nat} (hfar : maxDistance < pos - c)
    (h : ∀ q ∈ ps, q ≤ c) : (ps.filter fun p => pos - p ≤ maxDistance) = [] := by
  apply List.filter_eq_nil_iff.2
  intro q hq
  have := h q hq
  simp only [decide_eq_true_eq]
  omega

/-- A scan keeps the best so far, or goes on to the best of the candidates within reach if that
is longer.  The candidates come newest first, so the scan may stop at the first that is too far
away, and at the first that is as long as can be. -/
theorem scan_cases {data : Array UInt8} {pos limit : Nat} {ps : List Nat}
    (hsorted : ps.Pairwise (· > ·)) (hagree : ∀ p ∈ ps, Agree data p pos minMatch)
    (hlimit : minMatch ≤ limit) (best : Nat × Nat) :
    let run := fun p => runLength data p pos limit minMatch
    let near := ps.filter fun p => pos - p ≤ maxDistance
    (scan data pos limit best ps = best ∧ ∀ q ∈ near, run q ≤ best.1) ∨
      ∃ p, Best run near p ∧ scan data pos limit best ps = (run p, pos - p) ∧ best.1 < run p := by
  intro run near
  induction ps generalizing best with
  | nil => exact Or.inl ⟨rfl, by simp [near]⟩
  | cons c rest ih =>
    obtain ⟨hc, hsorted⟩ := List.pairwise_cons.1 hsorted
    obtain ⟨-, hagree⟩ := List.forall_mem_cons.1 hagree
    have ih := ih hsorted hagree
    unfold scan
    by_cases hfar : maxDistance < pos - c
    · rw [if_pos hfar]
      have hnone : near = [] := near_eq_nil hfar
        (List.forall_mem_cons.2 ⟨Nat.le_refl c, fun q hq => Nat.le_of_lt (hc q hq)⟩)
      exact Or.inl ⟨rfl, by simp [hnone]⟩
    · have hnear : near = c :: rest.filter fun p => pos - p ≤ maxDistance :=
        List.filter_cons_of_pos (by simpa using hfar)
      have hbefore : ∀ q ∈ rest.filter fun p => pos - p ≤ maxDistance, q ≤ c := fun q hq =>
        Nat.le_of_lt (hc q (List.mem_filter.1 hq).1)
      rw [if_neg hfar, hnear]
      by_cases hlonger : best.1 < run c
      · rw [if_pos hlonger]
        by_cases hfull : run c = limit
        · rw [if_pos hfull]
          refine Or.inr ⟨c, best_head fun q hq => ⟨hbefore q hq, ?_⟩, rfl, hlonger⟩
          rw [hfull]
          exact (runLength_spec hlimit (hagree q (List.mem_filter.1 hq).1)).2.1
        · rw [if_neg hfull]
          rcases ih (run c, pos - c) with ⟨hscan, hrest⟩ | ⟨p, hp, hscan, hlt⟩
          · exact Or.inr
              ⟨c, best_head fun q hq => ⟨hbefore q hq, hrest q hq⟩, hscan, hlonger⟩
          · exact Or.inr ⟨p, hp.behind hlt, hscan, Nat.lt_trans hlonger hlt⟩
      · rw [if_neg hlonger]
        rcases ih best with ⟨hscan, hrest⟩ | ⟨p, hp, hscan, hlt⟩
        · exact Or.inl
            ⟨hscan, List.forall_mem_cons.2 ⟨Nat.le_of_not_lt hlonger, hrest⟩⟩
        · exact Or.inr ⟨p, hp.behind (Nat.lt_of_le_of_lt (Nat.le_of_not_lt hlonger) hlt),
            hscan, hlt⟩

/-! ## What the index holds -/

def listed (data : Array UInt8) (key : List UInt8) (pos : Nat) : List Nat :=
  (List.range pos).reverse.filter fun p => key? data p = some key

theorem listed_succ (data : Array UInt8) (key : List UInt8) (pos : Nat) :
    listed data key (pos + 1) =
      if key? data pos = some key then pos :: listed data key pos else listed data key pos := by
  unfold listed
  rw [List.range_succ, List.reverse_append, List.reverse_singleton, List.singleton_append,
    List.filter_cons]
  simp only [decide_eq_true_eq]

/-- Only old positions may be missing in an index: a list holds the newest of its positions, and
not fewer than a search looks at if there are as many. -/
def Index.Recent (data : Array UInt8) (pos : Nat) (index : Index) : Prop :=
  ∀ key, index.getD key [] <+: listed data key pos ∧
    min maxCandidates (listed data key pos).length ≤ (index.getD key []).length

theorem Index.recent_empty (data : Array UInt8) : Index.Recent data 0 ∅ := by
  intro key
  simp [listed]

/-- A search looks at the newest positions, whatever is missing. -/
theorem Index.Recent.take {data : Array UInt8} {pos : Nat} {index : Index}
    (h : Index.Recent data pos index) (key : List UInt8) :
    (index.getD key []).take maxCandidates = (listed data key pos).take maxCandidates := by
  obtain ⟨⟨old, hold⟩, hlen⟩ := h key
  rw [← hold] at hlen ⊢
  rw [List.length_append] at hlen
  by_cases hmany : maxCandidates ≤ (index.getD key []).length
  · rw [List.take_append_of_le_length hmany]
  · have hnone : old = [] := List.length_eq_zero_iff.1 (by omega)
    rw [hnone, List.append_nil]

/-- Adds a position to an index from which nothing is dropped. -/
def recordAll (data : Array UInt8) (index : Index) (pos : Nat) : Index :=
  match key? data pos with
  | none => index
  | some k => index.insert k (pos :: index.getD k [])

def Keeps (data : Array UInt8) (insert : Index → Nat → Index) : Prop :=
  ∀ pos index, Index.Recent data pos index → Index.Recent data (pos + 1) (insert index pos)

theorem recent_insert {data : Array UInt8} {pos : Nat} {index : Index} {k : List UInt8}
    {positions : List Nat} (h : Index.Recent data pos index) (hk : key? data pos = some k)
    (hpositions : positions <+: pos :: listed data k pos)
    (hlen : min maxCandidates ((listed data k pos).length + 1) ≤ positions.length) :
    Index.Recent data (pos + 1) (index.insert k positions) := by
  intro key
  rw [Std.HashMap.getD_insert, listed_succ, hk]
  by_cases he : k = key
  · subst he
    rw [if_pos BEq.rfl, if_pos rfl]
    exact ⟨hpositions, hlen⟩
  · simpa [he] using h key

theorem recent_skip {data : Array UInt8} {pos : Nat} {index : Index}
    (h : Index.Recent data pos index) (hk : key? data pos = none) :
    Index.Recent data (pos + 1) index := by
  intro key
  simpa [listed_succ, hk] using h key

theorem keeps_recordAll (data : Array UInt8) : Keeps data (recordAll data) := by
  intro pos index h
  unfold recordAll
  split
  · next hk => exact recent_skip h hk
  · next k hk =>
    obtain ⟨hfront, hlen⟩ := h k
    refine recent_insert h hk ((List.prefix_cons_inj pos).2 hfront) ?_
    rw [List.length_cons]
    omega

/-- A list that has grown too long loses its end, and what is left is more than a search looks
at. -/
theorem keeps_record (data : Array UInt8) : Keeps data (record data) := by
  intro pos index h
  unfold record
  split
  · next hk => exact recent_skip h hk
  · next k hk =>
    obtain ⟨hfront, hlen⟩ := h k
    have hcons := (List.prefix_cons_inj pos).2 hfront
    refine recent_insert h hk ?_ ?_
    · split
      · exact (List.take_prefix _ _).trans hcons
      · exact hcons
    · split
      · next hlong =>
        rw [List.length_take]
        simp only [maxCandidates] at hlong ⊢
        omega
      · rw [List.length_cons]
        omega

/-! ## What a search finds -/

theorem size_of_key? {data : Array UInt8} {pos : Nat} {key : List UInt8}
    (h : key? data pos = some key) : pos + minMatch ≤ data.size := by
  unfold key? at h
  split at h
  · simp only [minMatch]
    omega
  · cases h

theorem size_of_key?_none {data : Array UInt8} {pos : Nat} (h : key? data pos = none) :
    data.size < pos + minMatch := by
  unfold key? at h
  split at h
  · cases h
  · simp only [minMatch]
    omega

theorem key?_eq_some_iff {data : Array UInt8} {p pos : Nat} {key : List UInt8}
    (hkey : key? data pos = some key) (hp : p ≤ pos) :
    key? data p = some key ↔ Agree data p pos minMatch := by
  refine ⟨fun h => agree_of_key? h hkey, fun h => ?_⟩
  have hsize := size_of_key? hkey
  simp only [minMatch] at hsize
  have h0 := h 0 (by decide)
  have h1 := h 1 (by decide)
  have h2 := h 2 (by decide)
  rw [← hkey]
  simp only [key?, Array.getD, show p + 0 < data.size by omega, show p + 1 < data.size by omega,
    show p + 2 < data.size by omega, show pos + 0 < data.size by omega,
    show pos + 1 < data.size by omega, show pos + 2 < data.size by omega, dite_true] at h0 h1 h2 ⊢
  simpa using ⟨h0, h1, h2⟩

theorem listed_eq_earlier {data : Array UInt8} {pos : Nat} {key : List UInt8}
    (hkey : key? data pos = some key) : listed data key pos = earlier data pos := by
  unfold listed earlier
  apply List.filter_congr
  intro p hp
  have hp : p < pos := by simpa using hp
  simp only [key?_eq_some_iff hkey (Nat.le_of_lt hp)]

theorem earlier_sorted (data : Array UInt8) (pos : Nat) : (earlier data pos).Pairwise (· > ·) :=
  (List.pairwise_reverse.2 List.pairwise_lt_range).filter _

theorem scan_longest {data : Array UInt8} {pos : Nat} (hsize : pos + minMatch ≤ data.size) :
    Longest data pos
      (scan data pos (reach data pos) (0, 0) ((earlier data pos).take maxCandidates)) := by
  have hroom : minMatch ≤ reach data pos := by
    simp only [reach, maxLength, minMatch] at hsize ⊢
    omega
  have hagree : ∀ p ∈ (earlier data pos).take maxCandidates, Agree data p pos minMatch :=
    fun p hp => by simpa using (List.mem_filter.1 (List.mem_of_mem_take hp)).2
  have hcandidate : ∀ q ∈ candidates data pos, Agree data q pos minMatch := fun q hq =>
    hagree q (List.mem_filter.1 hq).1
  rcases scan_cases (earlier_sorted data pos).take hagree hroom (0, 0) with
    ⟨hscan, hnone⟩ | ⟨p, hp, hscan, -⟩
  · refine ⟨fun _ => hscan, fun _ hne => ?_⟩
    -- A candidate would have a run of three bytes at least.
    obtain ⟨q, hq⟩ := List.exists_mem_of_ne_nil _ hne
    have hlow := (runLength_spec hroom (hcandidate q hq)).1
    have := hnone q hq
    simp only [minMatch] at hlow this
    omega
  · have hbest : Best (commonRun data · pos) (candidates data pos) p :=
      Best.congr hp fun q hq => runLength_eq hroom (hcandidate q hq)
    refine ⟨fun hnone => ?_, fun _ _ => ⟨p, hbest, ?_⟩⟩
    · rcases hnone with hshort | hnil
      · omega
      · have hmem := hbest.mem
        rw [hnil] at hmem
        cases hmem
    · rw [← runLength_eq hroom (hcandidate p hbest.mem)]
      exact hscan

theorem findMatch_longest {data : Array UInt8} {pos : Nat} {index : Index}
    (h : Index.Recent data pos index) : Longest data pos (findMatch data index pos) := by
  unfold findMatch
  split
  · next hk =>
    have := size_of_key?_none hk
    exact ⟨fun _ => rfl, fun hroom => by omega⟩
  · next k hk =>
    rw [h.take k, listed_eq_earlier hk]
    exact scan_longest (size_of_key? hk)

/-- What is found does not depend on which old positions are missing. -/
theorem findMatch_congr {data : Array UInt8} {pos : Nat} {index index' : Index}
    (h : Index.Recent data pos index) (h' : Index.Recent data pos index') :
    findMatch data index pos = findMatch data index' pos :=
  (findMatch_longest h).unique (findMatch_longest h')

/-! ## The searches of a compression -/

def insertRun (insert : Index → Nat → Index) (index : Index) (pos : Nat) : Nat → Index
  | 0 => index
  | count + 1 => insertRun insert (insert index pos) (pos + 1) count

def advance (found : Nat × Nat) : Nat := max 1 (if found.1 < minMatch then 1 else found.1)

theorem advance_pos (found : Nat × Nat) : 0 < advance found :=
  Nat.lt_of_lt_of_le Nat.zero_lt_one (Nat.le_max_left _ _)

/-- The searches from a position on, where positions are added to the index in some way: the
index that each one looks into, and the position searched for. -/
def searches (insert : Index → Nat → Index) (data : Array UInt8) (index : Index) (pos : Nat) :
    List (Index × Nat) :=
  if pos < data.size then
    let count := advance (findMatch data index pos)
    (index, pos) :: searches insert data (insertRun insert index pos count) (pos + count)
  else []
termination_by data.size - pos
decreasing_by
  have := advance_pos (findMatch data index pos)
  omega

section

variable {insert : Index → Nat → Index} {data : Array UInt8} {index : Index} {pos : Nat}

theorem searches_next (h : pos < data.size) :
    searches insert data index pos = (index, pos) ::
      searches insert data (insertRun insert index pos (advance (findMatch data index pos)))
        (pos + advance (findMatch data index pos)) := by
  rw [searches, if_pos h]

theorem searches_end (h : ¬pos < data.size) : searches insert data index pos = [] := by
  rw [searches, if_neg h]

end

def tokenOf (data : Array UInt8) (search : Index × Nat) : Token :=
  let found := findMatch data search.1 search.2
  chooseToken data search.2 found.1 found.2

theorem recordRun_eq (data : Array UInt8) (index : Index) (pos count : Nat) :
    recordRun data index pos count = insertRun (record data) index pos count := by
  induction count generalizing index pos with
  | zero => rfl
  | succ count ih => exact ih _ _

theorem tokensFrom_eq (data : Array UInt8) (index : Index) (pos : Nat) (before : Array Token) :
    (tokensFrom data index pos before).toList =
      before.toList ++ (searches (record data) data index pos).map (tokenOf data) := by
  fun_induction tokensFrom data index pos before with
  | case1 index pos before hlt found length ih =>
    rw [ih, searches_next hlt, recordRun_eq, Array.toList_push, List.append_assoc]
    rfl
  | case2 index pos before hge =>
    rw [searches_end hge, List.map_nil, List.append_nil]

theorem tokens_eq_searches (data : Bytes) :
    tokens data =
      (searches (record data.toArray) data.toArray ∅ 0).map (tokenOf data.toArray) :=
  tokensFrom_eq data.toArray ∅ 0 #[]

theorem Keeps.insertRun {data : Array UInt8} {insert : Index → Nat → Index}
    (hkeeps : Keeps data insert) {count pos : Nat} {index : Index}
    (h : Index.Recent data pos index) :
    Index.Recent data (pos + count) (insertRun insert index pos count) := by
  induction count generalizing pos index with
  | zero => exact h
  | succ count ih =>
    have := ih (hkeeps pos index h)
    rwa [Nat.add_right_comm] at this

theorem recent_of_mem_searches {data : Array UInt8} {insert : Index → Nat → Index}
    (hkeeps : Keeps data insert) {index : Index} {pos : Nat} (h : Index.Recent data pos index) :
    ∀ s ∈ searches insert data index pos, Index.Recent data s.2 s.1 := by
  fun_induction searches insert data index pos with
  | case1 index pos hlt count ih => exact List.forall_mem_cons.2 ⟨h, ih (hkeeps.insertRun h)⟩
  | case2 index pos hge => simp

theorem map_tokenOf_searches {data : Array UInt8} {insert insert' : Index → Nat → Index}
    (hkeeps : Keeps data insert) (hkeeps' : Keeps data insert') {index index' : Index} {pos : Nat}
    (h : Index.Recent data pos index) (h' : Index.Recent data pos index') :
    (searches insert data index pos).map (tokenOf data) =
      (searches insert' data index' pos).map (tokenOf data) := by
  revert index'
  fun_induction searches insert data index pos with
  | case1 index pos hlt count ih =>
    intro index' h'
    have hfound := findMatch_congr h h'
    have hrest := ih (hkeeps.insertRun h) (hkeeps'.insertRun h')
    simp only [searches_next hlt, List.map_cons, tokenOf, ← hfound]
    exact congrArg (List.cons _) hrest
  | case2 index pos hge =>
    intro index' h'
    rw [searches_end hge]

/-- Compression chooses one token after each of its searches.  Every search finds the longest
repeat among the newest candidates, the nearest one if several are as long.  With an index from
which nothing is ever dropped the compressed form is the same. -/
theorem searches_longest (data : Bytes) :
    tokens data =
        (searches (record data.toArray) data.toArray ∅ 0).map (tokenOf data.toArray) ∧
      (∀ s ∈ searches (record data.toArray) data.toArray ∅ 0,
        Longest data.toArray s.2 (findMatch data.toArray s.1 s.2)) ∧
      compress data = encode
        ((searches (recordAll data.toArray) data.toArray ∅ 0).map (tokenOf data.toArray)) := by
  have hempty := Index.recent_empty data.toArray
  refine ⟨tokens_eq_searches data, fun s hs => ?_, ?_⟩
  · exact findMatch_longest (recent_of_mem_searches (keeps_record data.toArray) hempty s hs)
  · unfold compress
    rw [tokens_eq_searches, map_tokenOf_searches (keeps_record data.toArray)
      (keeps_recordAll data.toArray) hempty hempty]

end Prs
end QuestArchive
