import QuestArchive.Proofs.Script.Reading

/-!
# Listings assembled

The lines of a segment start a draft with the labels of the segment and fill it with what the
segment holds, so that the lines of a whole script are assembled into the script.
-/

namespace QuestArchive

namespace Segment

/-- Code or data that holds nothing.  A text has a line of its own even if it is empty. -/
def Hollow : Segment → Prop
  | .code _ instructions => instructions = []
  | .data _ bytes => bytes = []
  | .text .. => False

instance (s : Segment) : Decidable s.Hollow :=
  match s with
  | .code _ instructions => inferInstanceAs (Decidable (instructions = []))
  | .data _ bytes => inferInstanceAs (Decidable (bytes = []))
  | .text .. => inferInstanceAs (Decidable False)

structure Writable (s : Segment) : Prop where
  labels : ∀ n ∈ s.labels, 0 ≤ n ∧ n ≤ 0xFFFF
  instructions : ∀ ls is, s = .code ls is → ∀ i ∈ is, i.Writable

/-- What is asked of a segment that stands behind another: without labels it starts a section
and holds something, and it starts a section where the one before it holds nothing. -/
structure Follows (s t : Segment) : Prop where
  unlabelled : t.labels = [] → t.kind ≠ s.kind ∧ ¬t.Hollow
  hollow : s.Hollow → t.kind ≠ s.kind

open Script

def content : Segment → Content
  | .code _ instructions => .code instructions
  | .data _ bytes => .data bytes
  | .text _ value => .text [value]

def draft (s : Segment) : Draft := ⟨s.labels.map Int.toNat, s.content⟩

theorem map_toNat {labels : List Int} (h : ∀ n ∈ labels, 0 ≤ n) :
    (labels.map Int.toNat).map (fun n : Nat => (n : Int)) = labels := by
  rw [List.map_map]
  exact (List.map_congr_left fun n hn => Int.toNat_of_nonneg (h n hn)).trans (List.map_id _)

theorem segment_draft {s : Segment} (h : ∀ n ∈ s.labels, 0 ≤ n) : s.draft.segment = s := by
  cases s with
  | code labels is => exact congrArg (Segment.code · is) (map_toNat h)
  | data labels bytes => exact congrArg (Segment.data · bytes) (map_toNat h)
  | text labels value =>
    show Segment.text _ [value].flatten = _
    rw [List.flatten_singleton]
    exact congrArg (Segment.text · value) (map_toNat h)

theorem isEmpty_content {s : Segment} (h : ¬s.Hollow) : s.content.isEmpty = false := by
  cases s with
  | code labels is => exact List.isEmpty_eq_false_iff.2 h
  | data labels bytes => exact List.isEmpty_eq_false_iff.2 h
  | text labels value => rfl

end Segment

namespace Script

/-! ## What a run of events adds to -/

variable {kind : SegmentKind} {draft : Option Draft} {events : List Event}

theorem segments_contents (d : Draft) (pieces : List Content) :
    segments kind (some d) (pieces.map .content ++ events) =
      segments kind (some { d with content := pieces.foldl .append d.content }) events := by
  induction pieces generalizing d with
  | nil => rfl
  | cons p pieces ih => exact ih _

theorem segments_labels_behind {content : Content} (h : content.isEmpty = true)
    (labels more : List Nat) :
    segments kind (some ⟨labels, content⟩) (more.map .label ++ events) =
      segments kind (some ⟨labels ++ more, content⟩) events := by
  induction more generalizing labels with
  | nil => rw [List.append_nil]; rfl
  | cons n more ih =>
    rw [List.append_cons, ← ih]
    show segments kind (some ⟨labels, content⟩) (.label n :: (more.map .label ++ events)) = _
    rw [segments, if_pos h]

theorem segments_labels {labels : List Nat} (hne : labels ≠ [])
    (h : ∀ d ∈ draft, d.content.isEmpty = false) :
    segments kind draft (labels.map .label ++ events) =
      draft.toList.map (·.segment) ++ segments kind (some ⟨labels, .empty kind⟩) events := by
  obtain ⟨n, labels, rfl⟩ := List.exists_cons_of_ne_nil hne
  have hempty : (Content.empty kind).isEmpty = true := by
    cases kind
    all_goals rfl
  have hmore := @segments_labels_behind kind events _ hempty [n] labels
  show segments kind draft (.label n :: (labels.map .label ++ events)) = _
  cases draft with
  | none =>
    rw [segments, hmore]
    rfl
  | some d =>
    rw [segments, if_neg (by rw [h d rfl]; decide), hmore]
    rfl

structure Fills (s : Segment) (pieces : List Content) : Prop where
  kind : ∀ p ∈ pieces, (Content.empty s.kind).append p = p
  sum : pieces.foldl .append (.empty s.kind) = s.content

variable {s : Segment} {pieces : List Content}

theorem Fills.ne_nil (h : Fills s pieces) (hs : ¬s.Hollow) : pieces ≠ [] := by
  rintro rfl
  have hsum := h.sum
  cases s with
  | code labels is => exact hs (Content.code.inj hsum).symm
  | data labels bytes => exact hs (Content.data.inj hsum).symm
  | text labels value => cases hsum

theorem segments_body (h : Fills s pieces) (hu : s.labels = [] → draft = none ∧ pieces ≠ [])
    (hd : ∀ d ∈ draft, d.content.isEmpty = false) :
    segments s.kind draft
        ((s.labels.map Int.toNat).map .label ++ (pieces.map .content ++ events)) =
      draft.toList.map (·.segment) ++ segments s.kind (some s.draft) events := by
  by_cases hl : s.labels = []
  · obtain ⟨rfl, hne⟩ := hu hl
    obtain ⟨p, pieces, rfl⟩ := List.exists_cons_of_ne_nil hne
    have hsum := h.sum
    rw [List.foldl_cons, h.kind p List.mem_cons_self] at hsum
    have hcontents := @segments_contents s.kind events ⟨[], p⟩ pieces
    simp only [hsum] at hcontents
    rw [Segment.draft, hl]
    exact hcontents
  · rw [segments_labels (mt List.map_eq_nil_iff.1 hl) hd, segments_contents]
    simp only [h.sum]
    rfl

structure Ready (c : Context) (draft : Option Draft) (s : Segment) : Prop where
  same : s.kind = c.kind → s.labels ≠ [] ∧ ∀ d ∈ draft, d.content.isEmpty = false
  unlabelled : s.labels = [] → c.labels ≠ [] ∧ ¬s.Hollow

theorem labels_ne_nil {c : Context} (h : Ready c draft s) :
    (s.labels.map Int.toNat).reverse ++ c.labels ≠ [] := by
  by_cases hl : s.labels = []
  · exact List.append_ne_nil_of_right_ne_nil _ (h.unlabelled hl).1
  · refine List.append_ne_nil_of_left_ne_nil ?_ _
    rwa [ne_eq, List.reverse_eq_nil_iff, List.map_eq_nil_iff]

theorem segments_block {c : Context} (h : Fills s pieces) (hr : Ready c draft s) :
    segments c.kind draft ((if s.kind = c.kind then [] else [.enter s.kind]) ++
        ((s.labels.map Int.toNat).map .label ++ (pieces.map .content ++ events))) =
      draft.toList.map (·.segment) ++ segments s.kind (some s.draft) events := by
  by_cases hk : s.kind = c.kind
  · obtain ⟨hl, hd⟩ := hr.same hk
    rw [if_pos hk, List.nil_append, ← hk]
    exact segments_body h (fun hnil => absurd hnil hl) hd
  · rw [if_neg hk]
    show draft.toList.map (·.segment) ++ segments s.kind none
      ((s.labels.map Int.toNat).map .label ++ (pieces.map .content ++ events)) = _
    rw [segments_body h (fun hnil => ⟨rfl, h.ne_nil (hr.unlabelled hnil).2⟩)
      fun d hd => by cases hd]
    rfl

/-! ## Reading the lines of a segment -/

variable {c : Context}

theorem reads_labels {labels : List Int} (h : ∀ n ∈ labels, 0 ≤ n ∧ n ≤ 0xFFFF)
    (hd : labels.Nodup) (hc : ∀ n ∈ c.labels, (n : Int) ∉ labels) :
    Reads c (labels.map labelLine) ((labels.map Int.toNat).map .label)
      ⟨c.kind, (labels.map Int.toNat).reverse ++ c.labels⟩ := by
  induction labels generalizing c with
  | nil => exact .nil c
  | cons n labels ih =>
    obtain ⟨low, high⟩ := h n List.mem_cons_self
    obtain ⟨n, rfl⟩ := Int.eq_ofNat_of_zero_le low
    obtain ⟨hn, hd⟩ := List.nodup_cons.1 hd
    have hread : c.read (labelLine n) =
        { events := [.label n], context := ⟨c.kind, n :: c.labels⟩ } :=
      read_labelLine (by omega) fun hm => hc n hm List.mem_cons_self
    have hrest := @ih ⟨c.kind, n :: c.labels⟩ (fun m hm => h m (List.mem_cons_of_mem _ hm)) hd ?_
    · rw [List.map_cons, List.map_cons, List.map_cons, Int.toNat_natCast, List.reverse_cons,
        List.append_assoc]
      exact .cons hread hrest
    · intro m hm hmem
      rcases List.mem_cons.1 hm with rfl | hm
      · exact hn hmem
      · exact hc m hm (List.mem_cons_of_mem _ hmem)

theorem reads_calls {lines : List Text} {is : List Instruction} (h : Spells lines is)
    (hf : ∀ i ∈ is, i.Finite) (hk : c.kind = .code) (hl : c.labels ≠ []) :
    ∃ pieces : List Content, Reads c (lines.map indented) (pieces.map .content) c ∧
      (∀ p ∈ pieces, (Content.code []).append p = p) ∧
      ∀ front, pieces.foldl Content.append (.code front) = .code (front ++ is) := by
  induction h with
  | nil =>
    refine ⟨[], .nil c, fun _ hp => absurd hp List.not_mem_nil, ?_⟩
    intro front
    rw [List.append_nil]
    rfl
  | @cons op values lines is js opcode printable finite expand _ ih =>
    obtain ⟨hfirst, hrest⟩ := List.forall_mem_append.1 hf
    have spellable : ∀ value ∈ values, value.Spellable := fun value hv =>
      (printable value hv).spellable_of_finite fun x hx => finite.1 hfirst x (hx ▸ hv)
    obtain ⟨pieces, hreads, hkind, hsum⟩ := ih hrest
    refine ⟨.code is :: pieces, .cons (read_call hk hl opcode spellable expand) hreads, ?_, ?_⟩
    · intro p hp
      rcases List.mem_cons.1 hp with rfl | hp
      · rfl
      · exact hkind p hp
    · intro front
      rw [← List.append_assoc]
      exact hsum (front ++ is)

theorem reads_bytes {groups : List Bytes} (h : ∀ bytes ∈ groups, bytes ≠ [])
    (hk : c.kind = .data) (hl : c.labels ≠ []) :
    Reads c ((groups.map fun bytes => Text.join [.char ' '] (bytes.map spellByte)).map indented)
      ((groups.map Content.data).map .content) c := by
  induction groups with
  | nil => exact .nil c
  | cons bytes groups ih =>
    exact .cons (read_bytes hk hl (h bytes List.mem_cons_self))
      (ih fun bs hbs => h bs (List.mem_cons_of_mem bytes hbs))

theorem foldl_data (groups : List Bytes) (front : Bytes) :
    (groups.map Content.data).foldl Content.append (.data front) =
      .data (front ++ groups.flatten) := by
  induction groups generalizing front with
  | nil =>
    rw [List.flatten_nil, List.append_nil]
    rfl
  | cons bytes groups ih =>
    rw [List.flatten_cons, ← List.append_assoc]
    exact ih (front ++ bytes)

theorem flatten_groups {width count : Nat} {bytes : Bytes} (h : bytes.length ≤ width * count) :
    (Read.groups width count bytes).flatten = bytes := by
  induction count generalizing bytes with
  | zero => exact (List.eq_nil_of_length_eq_zero (Nat.le_zero.1 h)).symm
  | succ count ih =>
    rw [Nat.mul_succ] at h
    rw [Read.groups, List.flatten_cons, ih (by rw [List.length_drop]; omega),
      List.take_append_drop]

theorem groups_ne_nil {width count : Nat} {bytes : Bytes} (hw : 0 < width)
    (h : width * count < bytes.length + width) :
    ∀ group ∈ Read.groups width count bytes, group ≠ [] := by
  induction count generalizing bytes with
  | zero => exact fun group hg => absurd hg List.not_mem_nil
  | succ count ih =>
    rw [Nat.mul_succ] at h
    intro group hg
    rcases List.mem_cons.1 hg with rfl | hg
    · apply List.ne_nil_of_length_pos
      rw [List.length_take]
      omega
    · by_cases hcount : count = 0
      · rw [hcount] at hg
        cases hg
      · refine ih ?_ group hg
        have hpos : width ≤ width * count := Nat.le_mul_of_pos_right width (by omega)
        rw [List.length_drop]
        omega

theorem exists_calls {is : List Instruction} (labels : List Int) (h : ∀ i ∈ is, i.WellFormed) :
    ∃ calls, contentLines (.code labels is) = .ok (calls.map indented) ∧ Spells calls is := by
  obtain ⟨calls, hcalls, hspells⟩ := @exists_codeLines [] is h fun j hj => by cases hj
  refine ⟨calls, ?_, hspells⟩
  show (codeLines [] is >>= _) = _
  rw [hcalls]
  rfl

/-- The lines of what a segment holds are written, and add up to it. -/
theorem exists_contentLines (hs : s.Writable) (hk : c.kind = s.kind) (hl : c.labels ≠ []) :
    ∃ lines pieces, contentLines s = .ok lines ∧ Reads c lines (pieces.map .content) c ∧
      Fills s pieces := by
  cases s with
  | code ls is =>
    obtain ⟨lines, hlines, hspells⟩ :=
      exists_calls ls fun i hi => (hs.instructions ls is rfl i hi).wellFormed
    obtain ⟨pieces, hreads, hkind, hsum⟩ :=
      reads_calls hspells (fun i hi => (hs.instructions ls is rfl i hi).finite) hk hl
    exact ⟨lines.map indented, pieces, hlines, hreads, hkind, hsum []⟩
  | data ls bytes =>
    have low : bytes.length ≤ 16 * ((bytes.length + 16 - 1) / 16) := by omega
    have high : 16 * ((bytes.length + 16 - 1) / 16) < bytes.length + 16 := by omega
    have hsum := foldl_data (Read.groups 16 ((bytes.length + 16 - 1) / 16) bytes) []
    rw [flatten_groups low] at hsum
    refine ⟨_, _, rfl, reads_bytes (groups_ne_nil (by decide) high) hk hl, ?_, hsum⟩
    intro p hp
    obtain ⟨bs, -, rfl⟩ := List.mem_map.1 hp
    rfl
  | text ls value =>
    refine ⟨_, [.text [value]], rfl, .single (read_literal hk hl), ?_, rfl⟩
    intro p hp
    rw [List.mem_singleton.1 hp]
    rfl

/-! ## Scripts -/

theorem listingFrom_cons {kind : SegmentKind} {started : Bool} {rest : List Segment}
    {content : List Text} (h : contentLines s = .ok content) :
    ∃ started', listingFrom kind started (s :: rest) =
      (listingFrom s.kind started' rest >>= fun lines =>
        .ok (((if started then [[]] else []) ++
          (if s.kind = kind then [] else [Text.ofString s.kind.marker]) ++
          s.labels.map labelLine ++ content) ++ lines)) := by
  rw [listingFrom, h]
  exact ⟨_, rfl⟩

/-- The events of some segments, written behind a section of some kind. -/
inductive Blocks : SegmentKind → List Segment → List Event → Prop where
  | nil (kind : SegmentKind) : Blocks kind [] []
  | cons {kind : SegmentKind} {s : Segment} {rest : List Segment} {pieces : List Content}
      {events : List Event} (fills : Fills s pieces) (behind : Blocks s.kind rest events) :
      Blocks kind (s :: rest) ((if s.kind = kind then [] else [.enter s.kind]) ++
        ((s.labels.map Int.toNat).map .label ++ (pieces.map .content ++ events)))

theorem reads_heading {c : Context} {s : Segment} (hs : ∀ n ∈ s.labels, 0 ≤ n ∧ n ≤ 0xFFFF)
    (hd : s.labels.Nodup) (hc : ∀ n ∈ c.labels, (n : Int) ∉ s.labels) (started : Bool) :
    Reads c ((if started then [[]] else []) ++
        (if s.kind = c.kind then [] else [Text.ofString s.kind.marker]) ++ s.labels.map labelLine)
      ((if s.kind = c.kind then [] else [.enter s.kind]) ++
        (s.labels.map Int.toNat).map .label)
      ⟨s.kind, (s.labels.map Int.toNat).reverse ++ c.labels⟩ := by
  have hgap : Reads c (if started then [[]] else []) [] c := by
    cases started with
    | false => exact .nil c
    | true => exact .single (read_blank c)
  have hmarker : Reads c (if s.kind = c.kind then [] else [Text.ofString s.kind.marker])
      (if s.kind = c.kind then [] else [.enter s.kind]) { c with kind := s.kind } := by
    by_cases hk : s.kind = c.kind
    · rw [if_pos hk, if_pos hk, hk]
      exact .nil c
    · rw [if_neg hk, if_neg hk]
      exact .single (read_marker hk)
  exact (hgap.append hmarker).append (reads_labels hs hd (c := { c with kind := s.kind }) hc)

theorem reads_block {c : Context} {s : Segment} (hs : s.Writable)
    (hl : (s.labels.map Int.toNat).reverse ++ c.labels ≠ []) (hd : s.labels.Nodup)
    (hc : ∀ n ∈ c.labels, (n : Int) ∉ s.labels) (started : Bool) :
    ∃ content pieces, contentLines s = .ok content ∧ Fills s pieces ∧
      Reads c ((if started then [[]] else []) ++
        (if s.kind = c.kind then [] else [Text.ofString s.kind.marker]) ++
        s.labels.map labelLine ++ content)
        ((if s.kind = c.kind then [] else [.enter s.kind]) ++
          ((s.labels.map Int.toNat).map .label ++ pieces.map .content))
        ⟨s.kind, (s.labels.map Int.toNat).reverse ++ c.labels⟩ := by
  obtain ⟨content, pieces, hcontent, hreads, hfills⟩ :=
    @exists_contentLines s ⟨s.kind, (s.labels.map Int.toNat).reverse ++ c.labels⟩ hs rfl hl
  refine ⟨content, pieces, hcontent, hfills, ?_⟩
  rw [← List.append_assoc]
  exact (reads_heading hs.labels hd hc started).append hreads

section

variable {rest : List Segment}

theorem labels_in_use (hl : c.labels = [] → ∀ t ∈ (s :: rest).head?, t.labels ≠ []) :
    (s.labels.map Int.toNat).reverse ++ c.labels ≠ [] := by
  by_cases hnil : c.labels = []
  · refine List.append_ne_nil_of_left_ne_nil ?_ _
    rw [ne_eq, List.reverse_eq_nil_iff, List.map_eq_nil_iff]
    exact hl hnil s rfl
  · exact List.append_ne_nil_of_right_ne_nil _ hnil

theorem labels_apart (h0 : ∀ l ∈ s.labels, 0 ≤ l)
    (hd : ∀ l ∈ s.labels, ∀ m ∈ rest.flatMap Segment.labels, l ≠ m)
    (hc : ∀ n ∈ c.labels, (n : Int) ∉ s.labels ++ rest.flatMap Segment.labels) :
    ∀ n ∈ (s.labels.map Int.toNat).reverse ++ c.labels,
      (n : Int) ∉ rest.flatMap Segment.labels := by
  intro n hn hm
  rcases List.mem_append.1 hn with hn | hn
  · obtain ⟨l, hl, rfl⟩ := List.mem_map.1 (List.mem_reverse.1 hn)
    rw [Int.toNat_of_nonneg (h0 l hl)] at hm
    exact hd l hl l hm rfl
  · exact hc n hn (List.mem_append_right _ hm)

end

/-- Segments are written behind others and read as their events, if no content comes before the
first label. -/
theorem exists_blocks {segments : List Segment} (hs : ∀ s ∈ segments, s.Writable)
    (hd : (segments.flatMap Segment.labels).Nodup) {c : Context}
    (hl : c.labels = [] → ∀ s ∈ segments.head?, s.labels ≠ [])
    (hc : ∀ n ∈ c.labels, (n : Int) ∉ segments.flatMap Segment.labels) (started : Bool) :
    ∃ lines events c', listingFrom c.kind started segments = .ok lines ∧
      Reads c lines events c' ∧ Blocks c.kind segments events := by
  induction segments generalizing c started with
  | nil => exact ⟨[], [], c, rfl, .nil c, .nil c.kind⟩
  | cons s rest ih =>
    have hw := hs s List.mem_cons_self
    rw [List.flatMap_cons] at hd hc
    obtain ⟨hds, hdr, hapart⟩ := List.nodup_append.1 hd
    have hin : (s.labels.map Int.toNat).reverse ++ c.labels ≠ [] := labels_in_use hl
    obtain ⟨content, pieces, hcontent, hfills, hreads⟩ :=
      reads_block hw hin hds (fun n hn hm => hc n hn (List.mem_append_left _ hm)) started
    obtain ⟨started', hlisting⟩ := @listingFrom_cons s c.kind started rest content hcontent
    have hc' := labels_apart (fun l hl => (hw.labels l hl).1) hapart hc
    obtain ⟨lines, events, c', hlines, hreads', hblocks⟩ :=
      @ih (fun t ht => hs t (List.mem_cons_of_mem s ht)) hdr
        ⟨s.kind, (s.labels.map Int.toNat).reverse ++ c.labels⟩ (fun hnil => absurd hnil hin) hc'
        started'
    refine ⟨_, _, c', ?_, hreads.append hreads', ?_⟩
    · rw [hlisting, hlines]
      rfl
    · rw [List.append_assoc, List.append_assoc]
      exact .cons hfills hblocks

/-- The events of segments that can follow one another give these segments. -/
theorem segments_blocks {segments : List Segment} {kind : SegmentKind} {events : List Event}
    (h : Blocks kind segments events) (hs : ∀ s ∈ segments, ∀ n ∈ s.labels, 0 ≤ n)
    (hf : segments.IsChain Segment.Follows) {c : Context} (hk : c.kind = kind)
    {draft : Option Draft} (hr : ∀ s ∈ segments.head?, Ready c draft s) :
    Script.segments kind draft events = draft.toList.map (·.segment) ++ segments := by
  induction h generalizing c draft with
  | nil kind =>
    rw [List.append_nil]
    rfl
  | @cons kind s rest pieces events hfills hbehind ih =>
    subst hk
    have hready := hr s rfl
    obtain ⟨hnext, hf⟩ := List.isChain_cons.1 hf
    obtain ⟨hlow, hs⟩ := List.forall_mem_cons.1 hs
    have hready' : ∀ t ∈ rest.head?,
        Ready ⟨s.kind, (s.labels.map Int.toNat).reverse ++ c.labels⟩ (some s.draft) t := by
      intro t ht
      have hfollows := hnext t ht
      constructor
      · intro hk
        refine ⟨fun hl => (hfollows.unlabelled hl).1 hk, ?_⟩
        intro d hd
        cases hd
        exact Segment.isEmpty_content fun hh => hfollows.hollow hh hk
      · intro hl
        exact ⟨labels_ne_nil hready, (hfollows.unlabelled hl).2⟩
    rw [segments_block hfills hready, ih hs hf rfl hready']
    show _ ++ (s.draft.segment :: rest) = _
    rw [Segment.segment_draft hlow]

/-- Segments are written behind others and read as they were. -/
theorem exists_listingFrom {segments : List Segment} (hs : ∀ s ∈ segments, s.Writable)
    (hf : segments.IsChain Segment.Follows) (hd : (segments.flatMap Segment.labels).Nodup)
    {c : Context} {draft : Option Draft} (hr : ∀ s ∈ segments.head?, Ready c draft s)
    (hc : ∀ n ∈ c.labels, (n : Int) ∉ segments.flatMap Segment.labels) (started : Bool) :
    ∃ lines events c', listingFrom c.kind started segments = .ok lines ∧
      Reads c lines events c' ∧
      Script.segments c.kind draft events = draft.toList.map (·.segment) ++ segments := by
  have hl : c.labels = [] → ∀ s ∈ segments.head?, s.labels ≠ [] :=
    fun hnil s hs hl => ((hr s hs).unlabelled hl).1 hnil
  obtain ⟨lines, events, c', hlines, hreads, hblocks⟩ := exists_blocks hs hd hl hc started
  refine ⟨lines, events, c', hlines, hreads, ?_⟩
  exact segments_blocks hblocks (fun s hm n hn => ((hs s hm).labels n hn).1) hf rfl hr

/-- A script whose first segment is labelled and whose segments can follow one another. -/
structure Listable (segments : List Segment) : Prop where
  first : ∀ s ∈ segments.head?, s.labels ≠ []
  writable : ∀ s ∈ segments, s.Writable
  distinct : (segments.flatMap Segment.labels).Nodup
  follows : segments.IsChain Segment.Follows

/-- Assembling the listing of a script gives the script, without a word. -/
theorem assemble_listing {segments : List Segment} (h : Listable segments) :
    ∃ lines, listing segments = .ok lines ∧
      assemble lines = .ok { segments := segments, diagnostics := [] } := by
  have hready : ∀ s ∈ segments.head?, Ready {} none s := by
    intro s hs
    refine ⟨fun _ => ⟨h.first s hs, fun d hd => by cases hd⟩, fun hl => ?_⟩
    exact absurd hl (h.first s hs)
  obtain ⟨lines, events, c, hlines, hreads, hsegments⟩ :=
    @exists_listingFrom segments h.writable h.follows h.distinct {} none hready
      (fun n hn => absurd hn List.not_mem_nil) false
  refine ⟨lines, hlines, ?_⟩
  have hrun := hreads.run 1
  have hs : Script.segments .code none events = segments := hsegments
  unfold assemble
  rw [hrun]
  show Except.ok (⟨Script.segments .code none events, []⟩ : Assembly) = _
  rw [hs]

/-- Quoted marks, a call with its push and a push that is left over, a number, a list, sections
with and without a label, and segments that hold nothing. -/
def sampler : List Segment :=
  [.code [2, 0]
    [⟨.pushString, [⟨.text [.char '"', .char ',', .char '/', .char '/', .char '\n'], 12⟩]⟩,
      ⟨.pops 0x5A "window_msg" [.string], []⟩,
      ⟨.pushInt, [⟨.int (-7), 4⟩]⟩,
      ⟨.plain 0xF904 "fleti" [.registerTuple, .float],
        [⟨.int 5, 1⟩, ⟨.float ⟨0x3FF8000000000000⟩, 4⟩]⟩,
      ⟨.plain 0x40 "switch_jmp" [.register, .codeLabels], [⟨.int 1, 1⟩, ⟨.list [0, 2], 5⟩]⟩],
    .data [] (List.replicate 17 0xAB),
    .text [9] [.char 'a'],
    .text [7] [],
    .code [4] []]

theorem writable_sampler : ∀ ls is, .code ls is ∈ sampler → ∀ i ∈ is, i.Writable := by
  have known {i : Instruction} (h : i.opcode ∈ Opcode.known) : i.opcode ∈ Opcode.table :=
    List.mem_append_left _ h
  intro ls is hs i hi
  simp only [sampler, List.mem_cons, List.not_mem_nil, or_false, Segment.code.injEq,
    reduceCtorEq, false_or] at hs
  rcases hs with ⟨-, rfl⟩ | ⟨-, rfl⟩
  · simp only [List.mem_cons, List.not_mem_nil, or_false] at hi
    rcases hi with rfl | rfl | rfl | rfl | rfl
    · refine ⟨⟨known (by decide +kernel), ?_⟩, ?_⟩
      · rw [if_neg (by decide)]
        refine .cons ⟨⟨_, rfl, ?_⟩, rfl⟩ .nil
        intro n hn
        simp at hn
      · intro a ha x hx
        rw [List.mem_singleton.1 ha] at hx
        cases hx
    · refine ⟨⟨known (by decide +kernel), ?_⟩, fun a ha => absurd ha List.not_mem_nil⟩
      rw [if_pos (by decide)]
    · refine ⟨⟨known (by decide +kernel), ?_⟩, ?_⟩
      · rw [if_neg (by decide)]
        exact .cons ⟨⟨-7, (-0x80000000, 0x7FFFFFFF), rfl, rfl, by decide, by decide⟩, rfl⟩ .nil
      · intro a ha x hx
        rw [List.mem_singleton.1 ha] at hx
        cases hx
    · refine ⟨⟨known (by decide +kernel), ?_⟩, ?_⟩
      · rw [if_neg (by decide)]
        exact .cons ⟨⟨5, rfl, by decide, by decide⟩, rfl⟩ (.cons ⟨⟨_, rfl⟩, rfl⟩ .nil)
      · intro a ha x hx
        simp only [List.mem_cons, List.not_mem_nil, or_false] at ha
        rcases ha with rfl | rfl
        · cases hx
        · cases hx
          decide
    · refine ⟨⟨known (by decide +kernel), ?_⟩, ?_⟩
      · rw [if_neg (by decide)]
        exact .cons ⟨⟨1, rfl, by decide, by decide⟩, rfl⟩
          (.cons ⟨⟨[0, 2], rfl, by decide⟩, rfl⟩ .nil)
      · intro a ha x hx
        simp only [List.mem_cons, List.not_mem_nil, or_false] at ha
        rcases ha with rfl | rfl
        · cases hx
        · cases hx
  · cases hi

theorem listable_sampler : Listable sampler := by
  constructor
  · decide
  · intro s hs
    refine ⟨?_, fun ls is he i hi => writable_sampler ls is (by rw [← he]; exact hs) i hi⟩
    revert s
    decide +kernel
  · decide +kernel
  · simp only [sampler, List.isChain_cons_cons, List.isChain_singleton, and_true]
    refine ⟨⟨?_, ?_⟩, ⟨?_, ?_⟩, ⟨?_, ?_⟩, ⟨?_, ?_⟩⟩
    all_goals decide +kernel

theorem assemble_listing_sampler : Listable sampler ∧ ∃ lines, listing sampler = .ok lines ∧
    assemble lines = .ok { segments := sampler, diagnostics := [] } :=
  ⟨listable_sampler, assemble_listing listable_sampler⟩

end Script
end QuestArchive
