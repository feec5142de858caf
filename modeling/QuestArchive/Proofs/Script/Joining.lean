import QuestArchive.Proofs.Script.Drafting

/-!
# Segments that are read as one

Nothing in a listing ends a segment but a change of section and a label behind content.  What
is assembled from the listing of a script has those segments joined that neither keeps apart,
and is the script itself if there are none.
-/

namespace QuestArchive

namespace Segment

def join : Segment → Segment → Segment
  | .code ls is, .code ms js => .code (ls ++ ms) (is ++ js)
  | .data ls bs, .data ms cs => .data (ls ++ ms) (bs ++ cs)
  | .text ls t, .text ms u => .text (ls ++ ms) (t ++ u)
  | s, _ => s

/-- Something ends the one segment where the other one starts. -/
def Apart (s t : Segment) : Prop := t.kind = s.kind → t.labels ≠ [] ∧ ¬s.Hollow

instance (s t : Segment) : Decidable (s.Apart t) :=
  inferInstanceAs (Decidable (t.kind = s.kind → t.labels ≠ [] ∧ ¬s.Hollow))

end Segment

namespace Script

/-- A segment joined with those behind it, as far as nothing keeps them apart. -/
def joinFrom (s : Segment) : List Segment → List Segment
  | [] => [s]
  | t :: rest => if s.Apart t then s :: joinFrom t rest else joinFrom (s.join t) rest

def joined : List Segment → List Segment
  | [] => []
  | s :: rest => joinFrom s rest

theorem length_joinFrom_le (s : Segment) (rest : List Segment) :
    (joinFrom s rest).length ≤ rest.length + 1 := by
  induction rest generalizing s with
  | nil => exact Nat.le_refl 1
  | cons t rest ih =>
    rw [joinFrom]
    split
    · exact Nat.succ_le_succ (ih t)
    · exact Nat.le_succ_of_le (ih (s.join t))

theorem joinFrom_eq_iff {s : Segment} {rest : List Segment} :
    joinFrom s rest = s :: rest ↔ (s :: rest).IsChain Segment.Apart := by
  induction rest generalizing s with
  | nil => exact ⟨fun _ => List.isChain_singleton s, fun _ => rfl⟩
  | cons t rest ih =>
    rw [List.isChain_cons_cons, joinFrom]
    by_cases ha : s.Apart t
    · rw [if_pos ha, List.cons.injEq, ih]
      simp [ha]
    · rw [if_neg ha]
      constructor
      · intro h
        have hlen := length_joinFrom_le (s.join t) rest
        rw [h] at hlen
        exact absurd hlen (Nat.not_succ_le_self _)
      · exact fun h => absurd h.1 ha

/-- Segments are read as they are just if they are kept apart. -/
theorem joined_eq_iff {segments : List Segment} :
    joined segments = segments ↔ segments.IsChain Segment.Apart := by
  cases segments with
  | nil => exact ⟨fun _ => List.isChain_nil, fun _ => rfl⟩
  | cons s rest => exact joinFrom_eq_iff

/-! ## Drafts of joined segments -/

/-- A draft that is a segment in the end, and has content just if the segment has. -/
structure Draft.Shows (d : Draft) (s : Segment) : Prop where
  segment : d.segment = s
  hollow : d.content.isEmpty = true ↔ s.Hollow

theorem shows_draft {s : Segment} (h : ∀ n ∈ s.labels, 0 ≤ n) : s.draft.Shows s := by
  refine ⟨Segment.segment_draft h, ?_⟩
  cases s with
  | code ls is => exact List.isEmpty_iff
  | data ls bytes => exact List.isEmpty_iff
  | text ls value => exact Iff.intro (fun h => nomatch h) False.elim

theorem shows_join {d : Draft} {s t : Segment} (h : d.Shows s) (hk : t.kind = s.kind)
    (ht : ∀ n ∈ t.labels, 0 ≤ n) :
    Draft.Shows ⟨d.labels ++ t.labels.map Int.toNat, d.content.append t.content⟩ (s.join t) := by
  obtain ⟨labels, content⟩ := d
  obtain ⟨rfl, -⟩ := h
  have hlabels : (labels ++ t.labels.map Int.toNat).map (fun n : Nat => (n : Int)) =
      labels.map (fun n : Nat => (n : Int)) ++ t.labels := by
    rw [List.map_append, Segment.map_toNat ht]
  cases content with
  | code is =>
    cases t with
    | code ms js => exact ⟨congrArg (Segment.code · (is ++ js)) hlabels, List.isEmpty_iff⟩
    | data ms cs => cases hk
    | text ms u => cases hk
  | data bs =>
    cases t with
    | code ms js => cases hk
    | data ms cs => exact ⟨congrArg (Segment.data · (bs ++ cs)) hlabels, List.isEmpty_iff⟩
    | text ms u => cases hk
  | text pieces =>
    cases t with
    | code ms js => cases hk
    | data ms cs => cases hk
    | text ms u =>
      refine ⟨?_, fun h => ?_, False.elim⟩
      · show Segment.text _ (pieces ++ [u]).flatten = Segment.text _ (pieces.flatten ++ u)
        rw [List.flatten_append, List.flatten_singleton]
        exact congrArg (Segment.text · (pieces.flatten ++ u)) hlabels
      · have hne : (pieces ++ [u]).isEmpty = false :=
          List.isEmpty_eq_false_iff.2 (List.append_ne_nil_of_right_ne_nil _ (List.cons_ne_nil _ _))
        exact absurd (hne.symm.trans h) Bool.false_ne_true

/-! ## Content piece by piece -/

namespace Content

def kind : Content → SegmentKind
  | .code _ => .code
  | .data _ => .data
  | .text _ => .text

theorem kind_empty (k : SegmentKind) : (empty k).kind = k := by
  cases k
  all_goals rfl

theorem kind_append (p q : Content) : (p.append q).kind = p.kind := by
  cases p
  all_goals
    cases q
    all_goals rfl

theorem append_empty {p : Content} {k : SegmentKind} (h : p.kind = k) : p.append (empty k) = p := by
  subst h
  cases p with
  | code is => exact congrArg code (List.append_nil is)
  | data bs => exact congrArg data (List.append_nil bs)
  | text ts => exact congrArg text (List.append_nil ts)

theorem append_assoc {p q : Content} (h : q.kind = p.kind) (r : Content) :
    (p.append q).append r = p.append (q.append r) := by
  cases p with
  | code is =>
    cases q with
    | code js =>
      cases r with
      | code ks => exact congrArg code (List.append_assoc is js ks)
      | data ds => rfl
      | text us => rfl
    | data cs => cases h
    | text us => cases h
  | data bs =>
    cases q with
    | data cs =>
      cases r with
      | data ds => exact congrArg data (List.append_assoc bs cs ds)
      | code ks => rfl
      | text us => rfl
    | code js => cases h
    | text us => cases h
  | text ts =>
    cases q with
    | text us =>
      cases r with
      | text vs => exact congrArg text (List.append_assoc ts us vs)
      | code ks => rfl
      | data ds => rfl
    | code js => cases h
    | data cs => cases h

theorem foldl_append {k : SegmentKind} {pieces : List Content}
    (h : ∀ p ∈ pieces, (empty k).append p = p) {front : Content} (hf : front.kind = k) :
    pieces.foldl append front = front.append (pieces.foldl append (empty k)) := by
  induction pieces generalizing front with
  | nil => exact (append_empty hf).symm
  | cons p pieces ih =>
    obtain ⟨hp, hpieces⟩ := List.forall_mem_cons.1 h
    have hkind : p.kind = k := by rw [← hp, kind_append, kind_empty]
    rw [List.foldl_cons, List.foldl_cons, hp, ih hpieces ((kind_append front p).trans hf),
      ih hpieces hkind, append_assoc (hkind.trans hf.symm)]

end Content

/-! ## Events of segments -/

theorem Draft.kind_content {d : Draft} {s : Segment} (h : d.Shows s) : d.content.kind = s.kind := by
  obtain ⟨labels, content⟩ := d
  obtain ⟨rfl, -⟩ := h
  cases content
  all_goals rfl

/-- The events of a segment that nothing keeps apart from the draft go into the draft. -/
theorem segments_not_apart {d : Draft} {s t : Segment} {pieces : List Content}
    {events : List Event} (hd : d.Shows s) (hf : Fills t pieces) (ha : ¬s.Apart t) :
    segments s.kind (some d) ((if t.kind = s.kind then [] else [.enter t.kind]) ++
        ((t.labels.map Int.toNat).map .label ++ (pieces.map .content ++ events))) =
      segments t.kind (some ⟨d.labels ++ t.labels.map Int.toNat, d.content.append t.content⟩)
        events := by
  have hk : t.kind = s.kind := by
    by_contra hk
    exact ha fun he => absurd he hk
  have hsum : pieces.foldl .append d.content = d.content.append t.content := by
    rw [← hf.sum]
    exact Content.foldl_append hf.kind ((Draft.kind_content hd).trans hk.symm)
  rw [if_pos hk, List.nil_append, hk]
  by_cases hl : t.labels = []
  · rw [hl, List.map_nil, List.map_nil, List.nil_append, List.append_nil, segments_contents, hsum]
  · have hempty : d.content.isEmpty = true := by
      rw [hd.hollow]
      by_contra hh
      exact ha fun _ => ⟨hl, hh⟩
    rw [segments_labels_behind hempty, segments_contents, hsum]

/-- The events of a segment that is kept apart from the draft end the draft. -/
theorem segments_apart {d : Draft} {s t : Segment} {pieces : List Content} {events : List Event}
    (hd : d.Shows s) (hf : Fills t pieces) (hu : t.labels = [] → ¬t.Hollow) (ha : s.Apart t) :
    segments s.kind (some d) ((if t.kind = s.kind then [] else [.enter t.kind]) ++
        ((t.labels.map Int.toNat).map .label ++ (pieces.map .content ++ events))) =
      s :: segments t.kind (some t.draft) events := by
  -- some label is in use, and it does not matter which
  have hready : Ready ⟨s.kind, [0]⟩ (some d) t := by
    refine ⟨fun hk => ⟨(ha hk).1, fun d' hd' => ?_⟩, fun hl => ⟨List.cons_ne_nil _ _, hu hl⟩⟩
    cases hd'
    exact Bool.eq_false_iff.2 (mt hd.hollow.1 (ha hk).2)
  exact (segments_block hf hready).trans (congrArg (· :: _) hd.segment)

/-- The events of segments give these segments behind a draft, joined where nothing keeps them
apart. -/
theorem segments_joinFrom {d : Draft} {s : Segment} {rest : List Segment} {events : List Event}
    (hd : d.Shows s) (h : Blocks s.kind rest events)
    (hs : ∀ t ∈ rest, (∀ n ∈ t.labels, 0 ≤ n) ∧ (t.labels = [] → ¬t.Hollow)) :
    segments s.kind (some d) events = joinFrom s rest := by
  induction rest generalizing d s events with
  | nil =>
    cases h
    exact congrArg ([·]) hd.segment
  | cons t rest ih =>
    obtain ⟨⟨hlow, hu⟩, hrest⟩ := List.forall_mem_cons.1 hs
    cases h with
    | cons hf hbehind =>
      rw [joinFrom]
      by_cases ha : s.Apart t
      · rw [if_pos ha, segments_apart hd hf hu ha, ih (shows_draft hlow) hbehind hrest]
      · have hk : t.kind = s.kind := by
          by_contra hk
          exact ha fun he => absurd he hk
        have hjoin : (s.join t).kind = t.kind := by
          cases s
          all_goals
            cases t
            all_goals first | rfl | cases hk
        rw [if_neg ha, segments_not_apart hd hf ha, ← hjoin]
        exact ih (shows_join hd hk hlow) (hjoin ▸ hbehind) hrest

/-- Assembling the listing of a script gives its segments joined where nothing keeps them
apart. -/
theorem exists_assemble_listing {segments : List Segment} (hw : ∀ s ∈ segments, s.Writable)
    (hu : ∀ s ∈ segments, s.labels = [] → ¬s.Hollow)
    (hfirst : ∀ s ∈ segments.head?, s.labels ≠ [])
    (hd : (segments.flatMap Segment.labels).Nodup) :
    ∃ lines, listing segments = .ok lines ∧
      assemble lines = .ok { segments := joined segments, diagnostics := [] } := by
  obtain ⟨lines, events, c, hlines, hreads, hblocks⟩ :=
    @exists_blocks segments hw hd {} (fun _ => hfirst) (fun n hn => absurd hn List.not_mem_nil)
      false
  have hjoined : Script.segments .code none events = joined segments := by
    cases segments with
    | nil =>
      cases hblocks
      rfl
    | cons s rest =>
      obtain ⟨hws, hwr⟩ := List.forall_mem_cons.1 hw
      have hready : Ready {} none s :=
        ⟨fun _ => ⟨hfirst s rfl, fun d hd => by cases hd⟩, fun hl => absurd hl (hfirst s rfl)⟩
      cases hblocks with
      | cons hf hbehind =>
        rw [segments_block (c := {}) hf hready]
        exact segments_joinFrom (shows_draft fun n hn => (hws.labels n hn).1) hbehind fun t ht =>
          ⟨fun n hn => ((hwr t ht).labels n hn).1, hu t (List.mem_cons_of_mem s ht)⟩
  refine ⟨lines, hlines, ?_⟩
  unfold assemble
  rw [hreads.run 1]
  show Except.ok (⟨Script.segments .code none events, []⟩ : Assembly) = _
  rw [hjoined]

end Script
end QuestArchive
