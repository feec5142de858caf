import QuestArchive.Proofs.ObjectCode.Following

/-!
# Filling the gaps between segments

The ranges that nothing was read from, cut at the starts, lie between the segments that
were read and together with them cover the code.  So the segments in the order of their
offsets tile it.
-/

namespace QuestArchive
namespace ObjectCode

/-! ## Ranges -/

/-- Some ranges lie apart from each other and from those that are covered, and leave
nothing uncovered between two bounds. -/
structure Completes (low high : Int) (covered missing : List (Int × Int)) : Prop where
  bounds : ∀ g ∈ missing, low ≤ g.1 ∧ g.1 < g.2 ∧ g.2 ≤ high
  apart : ∀ g ∈ missing, ∀ c ∈ covered, g.2 ≤ c.1 ∨ c.2 ≤ g.1
  cover : ∀ x, low ≤ x → x < high →
    (∃ c ∈ covered, c.1 ≤ x ∧ x < c.2) ∨ ∃ g ∈ missing, g.1 ≤ x ∧ x < g.2
  ordered : missing.Pairwise (·.2 ≤ ·.1)
  stops : ∀ g ∈ missing, g.2 = high ∨ ∃ c ∈ covered, c.1 = g.2

theorem completes_nil (low high : Int) :
    Completes low high [] (if low < high then [(low, high)] else []) := by
  by_cases hlt : low < high
  · rw [if_pos hlt]
    refine ⟨?_, ?_, ?_, List.pairwise_singleton _ _, ?_⟩
    · intro g hg
      rw [List.mem_singleton.1 hg]
      exact ⟨Int.le_refl _, hlt, Int.le_refl _⟩
    · exact fun _ _ c hc => absurd hc List.not_mem_nil
    · exact fun x hl hh => Or.inr ⟨(low, high), List.mem_singleton_self _, hl, hh⟩
    · intro g hg
      rw [List.mem_singleton.1 hg]
      exact Or.inl rfl
  · rw [if_neg hlt]
    exact ⟨fun g hg => absurd hg List.not_mem_nil, fun g hg => absurd hg List.not_mem_nil,
      fun x hl hh => by omega, List.Pairwise.nil, fun g hg => absurd hg List.not_mem_nil⟩

theorem Completes.cons {low high start stop : Int} {covered missing : List (Int × Int)}
    (h : Completes (max low stop) high covered missing) (hle : start ≤ stop)
    (hc : ∀ c ∈ covered, start ≤ c.1) (hh : start ≤ high) :
    Completes low high ((start, stop) :: covered)
      ((if low < start then [(low, start)] else []) ++ missing) := by
  have hfirst : ∀ g ∈ (if low < start then [(low, start)] else []), g = (low, start) ∧
      low < start := by
    intro g hg
    split at hg
    · next hlt => exact ⟨List.mem_singleton.1 hg, hlt⟩
    · exact absurd hg List.not_mem_nil
  constructor
  · intro g hg
    rcases List.mem_append.1 hg with hg | hg
    · obtain ⟨rfl, hlt⟩ := hfirst g hg
      exact ⟨Int.le_refl _, hlt, hh⟩
    · obtain ⟨hl, hlt, hr⟩ := h.bounds g hg
      exact ⟨by omega, hlt, hr⟩
  · intro g hg c hcov
    rcases List.mem_append.1 hg with hg | hg
    · obtain ⟨rfl, hlt⟩ := hfirst g hg
      rcases List.mem_cons.1 hcov with rfl | hcov
      · exact Or.inl (Int.le_refl _)
      · exact Or.inl (hc c hcov)
    · rcases List.mem_cons.1 hcov with rfl | hcov
      · have hb := (h.bounds g hg).1
        exact Or.inr (by dsimp only; omega)
      · exact h.apart g hg c hcov
  · intro x hl hr
    by_cases hx : x < start
    · refine Or.inr ⟨(low, start), List.mem_append_left _ ?_, hl, hx⟩
      rw [if_pos (by omega)]
      exact List.mem_singleton_self _
    · by_cases hx' : x < stop
      · exact Or.inl ⟨(start, stop), List.mem_cons_self, Int.not_lt.1 hx, hx'⟩
      · rcases h.cover x (by omega) hr with ⟨c, hcov, hcx⟩ | ⟨g, hg, hgx⟩
        · exact Or.inl ⟨c, List.mem_cons_of_mem _ hcov, hcx⟩
        · exact Or.inr ⟨g, List.mem_append_right _ hg, hgx⟩
  · refine List.pairwise_append.2 ⟨?_, h.ordered, ?_⟩
    · split
      · exact List.pairwise_singleton _ _
      · exact List.Pairwise.nil
    · intro g hg g' hg'
      obtain ⟨rfl, -⟩ := hfirst g hg
      have hb := (h.bounds g' hg').1
      dsimp only
      omega
  · intro g hg
    rcases List.mem_append.1 hg with hg | hg
    · obtain ⟨rfl, -⟩ := hfirst g hg
      exact Or.inr ⟨(start, stop), List.mem_cons_self, rfl⟩
    · exact (h.stops g hg).imp_right fun ⟨c, hcov, he⟩ => ⟨c, List.mem_cons_of_mem _ hcov, he⟩

/-- Ranges in the order of their starts leave the gaps between them, also where some of them
overlap or lie below the bound. -/
theorem completes_gaps {high : Int} {covered : List (Int × Int)}
    (ho : covered.Pairwise (·.1 ≤ ·.1)) (low : Int) (hc : ∀ c ∈ covered, c.1 ≤ c.2 ∧ c.1 ≤ high) :
    Completes low high covered (gaps high low covered) := by
  induction covered generalizing low with
  | nil => exact completes_nil low high
  | cons c covered ih =>
    obtain ⟨start, stop⟩ := c
    obtain ⟨hfirst, hrest⟩ := List.pairwise_cons.1 ho
    obtain ⟨hle, hh⟩ := hc (start, stop) List.mem_cons_self
    exact (ih hrest _ fun c hcov => hc c (List.mem_cons_of_mem _ hcov)).cons hle hfirst hh

/-- Cutting at points is completing what ranges without extent cover. -/
theorem completes_zip {high : Int} {inside : List Int} (ho : inside.Pairwise (· < ·)) {low : Int}
    (hl : low < high) (hi : ∀ q ∈ inside, low < q ∧ q < high) :
    Completes low high (inside.map fun q => (q, q))
      ((low :: inside).zip (inside ++ [high])) := by
  induction inside generalizing low with
  | nil =>
    have h := completes_nil low high
    rw [if_pos hl] at h
    exact h
  | cons q inside ih =>
    obtain ⟨hfirst, hrest⟩ := List.pairwise_cons.1 ho
    obtain ⟨h1, h2⟩ := hi q List.mem_cons_self
    have h := ih hrest h2 fun r hr => ⟨hfirst r hr, (hi r (List.mem_cons_of_mem _ hr)).2⟩
    rw [← Int.max_eq_right (Int.le_of_lt h1)] at h
    have h := h.cons (Int.le_refl q) (by
      intro c hc
      obtain ⟨r, hr, rfl⟩ := List.mem_map.1 hc
      exact Int.le_of_lt (hfirst r hr)) (Int.le_of_lt h2)
    rw [if_pos h1, Int.max_eq_right (Int.le_of_lt h1)] at h
    exact h

theorem completes_cut {points : List Int} (ho : points.Pairwise (· < ·)) {range : Int × Int}
    (hr : range.1 < range.2) :
    Completes range.1 range.2 (points.map fun q => (q, q)) (cut points range) := by
  have hinside : ∀ q, q ∈ points.filter (fun b => range.1 < b && b < range.2) ↔
      q ∈ points ∧ range.1 < q ∧ q < range.2 := by
    intro q
    rw [List.mem_filter, Bool.and_eq_true, decide_eq_true_eq, decide_eq_true_eq]
  have h := completes_zip (ho.filter fun b => range.1 < b && b < range.2) hr
    fun q hq => ((hinside q).1 hq).2
  refine ⟨h.bounds, ?_, ?_, h.ordered, ?_⟩
  · intro g hg c hc
    obtain ⟨q, hq, rfl⟩ := List.mem_map.1 hc
    have hb := h.bounds g hg
    by_cases hin : range.1 < q ∧ q < range.2
    · exact h.apart g hg (q, q) (List.mem_map.2 ⟨q, (hinside q).2 ⟨hq, hin⟩, rfl⟩)
    · dsimp only
      omega
  · intro x hl hh
    rcases h.cover x hl hh with ⟨c, hc, hx⟩ | hg
    · obtain ⟨q, -, rfl⟩ := List.mem_map.1 hc
      exact absurd hx.2 (Int.not_lt.2 hx.1)
    · exact Or.inr hg
  · intro g hg
    refine (h.stops g hg).imp_right fun ⟨c, hc, he⟩ => ?_
    obtain ⟨q, hq, rfl⟩ := List.mem_map.1 hc
    exact ⟨(q, q), List.mem_map.2 ⟨q, ((hinside q).1 hq).1, rfl⟩, he⟩

theorem Completes.flatMap_cut {low high : Int} {covered missing : List (Int × Int)}
    (h : Completes low high covered missing) {points : List Int}
    (ho : points.Pairwise (· < ·)) :
    Completes low high (covered ++ points.map fun q => (q, q)) (missing.flatMap (cut points)) := by
  have hcut : ∀ g ∈ missing, Completes g.1 g.2 (points.map fun q => (q, q)) (cut points g) :=
    fun g hg => completes_cut ho (h.bounds g hg).2.1
  constructor
  · intro p hp
    obtain ⟨g, hg, hp⟩ := List.mem_flatMap.1 hp
    have hb := h.bounds g hg
    have hb' := (hcut g hg).bounds p hp
    omega
  · intro p hp c hc
    obtain ⟨g, hg, hp⟩ := List.mem_flatMap.1 hp
    have hb := (hcut g hg).bounds p hp
    rcases List.mem_append.1 hc with hc | hc
    · have ha := h.apart g hg c hc
      omega
    · exact (hcut g hg).apart p hp c hc
  · intro x hl hh
    rcases h.cover x hl hh with ⟨c, hc, hx⟩ | ⟨g, hg, hx⟩
    · exact Or.inl ⟨c, List.mem_append_left _ hc, hx⟩
    · rcases (hcut g hg).cover x hx.1 hx.2 with ⟨c, hc, hx⟩ | ⟨p, hp, hx⟩
      · exact Or.inl ⟨c, List.mem_append_right _ hc, hx⟩
      · exact Or.inr ⟨p, List.mem_flatMap.2 ⟨g, hg, hp⟩, hx⟩
  · refine List.pairwise_flatMap.2 ⟨fun g hg => (hcut g hg).ordered, ?_⟩
    refine h.ordered.imp_of_mem ?_
    intro g g' hg hg' hle p hp p' hp'
    have hb := (hcut g hg).bounds p hp
    have hb' := (hcut g' hg').bounds p' hp'
    omega
  · intro p hp
    obtain ⟨g, hg, hp⟩ := List.mem_flatMap.1 hp
    rcases (hcut g hg).stops p hp with he | ⟨c, hc, he⟩
    · rcases h.stops g hg with hs | ⟨c, hc, hs⟩
      · exact Or.inl (he.trans hs)
      · exact Or.inr ⟨c, List.mem_append_left _ hc, hs.trans he.symm⟩
    · exact Or.inr ⟨c, List.mem_append_right _ hc, he⟩

end ObjectCode
end QuestArchive
