import QuestArchive.Entity.Section
import QuestArchive.Proofs.Bytes.Field

/-!
# Sections one behind the other

`Sections` says which bytes are a sequence of sections: nothing, an end mark with anything
behind it, or a section in front of more.  Reading finds just the sections that are there.
-/

namespace QuestArchive

namespace Read

theorem describes_slice (n : Nat) (f : Bytes → α) :
    Describes (slice n >>= fun c => Pure.pure (f c.view)) fun bs x =>
      bs.length = n ∧ x = f bs where
  accepts := by
    rintro c bs rest x hc hv ⟨rfl, rfl⟩
    have hl := Cursor.length_of_view hc hv
    have hs : slice bs.length c =
        .ok (.window c.data c.pos (c.pos + bs.length)) (c.advance bs.length) := by
      unfold slice
      rw [if_neg (by omega)]
      rfl
    rw [bind_of_ok hs]
    show EStateM.Result.ok (f (Cursor.span c.data c.pos (c.pos + bs.length))) _ = _
    rw [(Cursor.span_of_view hc hv).1]
  yields := by
    intro c c' x hc h
    obtain ⟨window, s, hs, h⟩ := ok_of_bind h
    unfold slice at hs
    by_cases hn : (n : Int) < 0 ∨ c.stop < c.pos + n
    · rw [if_pos hn] at hs
      cases hs
    · rw [if_neg hn] at hs
      cases hs
      cases h
      obtain ⟨hview, hlen⟩ := Cursor.view_next hc (show c.pos + n ≤ c.stop by omega)
      refine ⟨_, _, hview, ⟨hlen, rfl⟩, ?_⟩
      rw [hlen]
      rfl

end Read

namespace Entity

open Read (Describes)

/-- Some bytes are a section: a header whose sizes fit the body, and the body. -/
def Section.Stored (bs : Bytes) (s : Section) : Prop :=
  ∃ kind total area size : Bytes,
    (kind.length = 4 ∧ total.length = 4 ∧ area.length = 4 ∧ size.length = 4) ∧
      bs = kind ++ (total ++ (area ++ (size ++ s.body))) ∧ s.kind = Word.decode kind ∧
      s.kind ≠ 0 ∧ Word.decode total = s.body.length + sectionHeaderSize ∧
      s.area = Word.decode area ∧ Word.decode size = s.body.length

/-- A zero word in place of a header. -/
def EndMark (bs : Bytes) : Prop := bs.length = 4 ∧ Word.decode bs = 0

/-- Some bytes are sections up to an end mark or to the end. -/
inductive Sections : Bytes → List Section → Prop where
  | nil : Sections [] []
  | stop {mark rest : Bytes} (h : EndMark mark) : Sections (mark ++ rest) []
  | cons {bs rest : Bytes} {s : Section} {more : List Section} (h : s.Stored bs)
      (hs : Sections rest more) : Sections (bs ++ rest) (s :: more)

namespace Section

theorem describes_read : Describes read fun bs r =>
    (r = none ∧ EndMark bs) ∨ ∃ s, r = some s ∧ s.Stored bs := by
  have body : ∀ kind total area size : Nat, Describes
      (if (size : Int) = total - sectionHeaderSize then
        (Read.slice size >>= fun c => Pure.pure (some { kind, area, body := c.view }))
      else throw (.sectionSizes (total - sectionHeaderSize) size) : Read (Option Section))
      fun bs r => total = bs.length + sectionHeaderSize ∧ size = bs.length ∧
        r = some { kind, area, body := bs } := by
    intro kind total area size
    have hsize : sectionHeaderSize = 16 := rfl
    split
    · next hsizes =>
      refine (Read.describes_slice size fun bs => some (⟨kind, area, bs⟩ : Section)).congr
        fun bs r => ?_
      constructor
      · rintro ⟨rfl, rfl⟩
        exact ⟨by omega, rfl, rfl⟩
      · rintro ⟨-, rfl, rfl⟩
        exact ⟨rfl, rfl⟩
    · next hsizes =>
      refine (Describes.throw _).congr fun bs r => ⟨False.elim, ?_⟩
      rintro ⟨rfl, rfl, -⟩
      exact hsizes (by omega)
  have rest : ∀ bs (kind : Nat), (bs.length = 4 ∧ kind = Word.decode bs) → Describes
      (if kind = 0 then Pure.pure none
      else Read.u32 >>= fun total => Read.u32 >>= fun area => Read.u32 >>= fun size =>
        if (size : Int) = total - sectionHeaderSize then
          (Read.slice size >>= fun c => Pure.pure (some { kind, area, body := c.view }))
        else throw (.sectionSizes (total - sectionHeaderSize) size) : Read (Option Section))
      fun bs r => (kind = 0 ∧ bs = [] ∧ r = none) ∨ kind ≠ 0 ∧ ∃ total area size body : Bytes,
        bs = total ++ (area ++ (size ++ body)) ∧
          (total.length = 4 ∧ area.length = 4 ∧ size.length = 4) ∧
          Word.decode total = body.length + sectionHeaderSize ∧ Word.decode size = body.length ∧
          r = some { kind, area := Word.decode area, body } := by
    intro _ kind _
    by_cases hk : kind = 0
    · rw [if_pos hk]
      refine (Describes.pure none).congr fun bs r => ?_
      constructor
      · exact fun h => Or.inl ⟨hk, h⟩
      · rintro (⟨-, h⟩ | ⟨hne, -⟩)
        · exact h
        · exact absurd hk hne
    · rw [if_neg hk]
      refine (Read.describes_u32.bind fun _ total _ => Read.describes_u32.bind fun _ area _ =>
        Read.describes_u32.bind fun _ size _ => body kind total area size).congr fun bs r => ?_
      constructor
      · rintro ⟨total, _, _, rfl, ⟨l1, rfl⟩, area, _, _, rfl, ⟨l2, rfl⟩, size, content, _, rfl,
          ⟨l3, rfl⟩, ht, hs, rfl⟩
        exact Or.inr ⟨hk, total, area, size, content, rfl, ⟨l1, l2, l3⟩, ht, hs, rfl⟩
      · rintro (⟨h0, -⟩ | ⟨-, total, area, size, content, rfl, ⟨l1, l2, l3⟩, ht, hs, rfl⟩)
        · exact absurd h0 hk
        · exact ⟨total, _, _, rfl, ⟨l1, rfl⟩, area, _, _, rfl, ⟨l2, rfl⟩, size, content, _, rfl,
            ⟨l3, rfl⟩, ht, hs, rfl⟩
  unfold read
  refine (Read.describes_u32.bind rest).congr fun bs r => ?_
  constructor
  · rintro ⟨kind, _, _, rfl, ⟨l0, rfl⟩, ⟨h0, rfl, rfl⟩ |
      ⟨hne, total, area, size, content, rfl, ⟨l1, l2, l3⟩, ht, hs, rfl⟩⟩
    · exact Or.inl ⟨rfl, by rwa [List.append_nil], by rwa [List.append_nil]⟩
    · exact Or.inr ⟨_, rfl, kind, total, area, size, ⟨l0, l1, l2, l3⟩, rfl, rfl, hne, ht, rfl, hs⟩
  · rintro (⟨rfl, l0, h0⟩ | ⟨⟨k, a, content⟩, rfl, kind, total, area, size, ⟨l0, l1, l2, l3⟩, rfl,
      rfl, hne, ht, rfl, hs⟩)
    · exact ⟨bs, [], _, (List.append_nil bs).symm, ⟨l0, rfl⟩, Or.inl ⟨h0, rfl, rfl⟩⟩
    · exact ⟨kind, _, _, rfl, ⟨l0, rfl⟩, Or.inr ⟨hne, total, area, size, content, rfl,
        ⟨l1, l2, l3⟩, ht, hs, rfl⟩⟩

theorem length_of_stored {bs : Bytes} {s : Section} (h : s.Stored bs) :
    bs.length = sectionHeaderSize + s.body.length := by
  obtain ⟨kind, total, area, size, ⟨l1, l2, l3, l4⟩, rfl, -⟩ := h
  simp only [List.length_append, l1, l2, l3, l4]
  show _ = 16 + s.body.length
  omega

theorem length_pos_of_stored {bs : Bytes} {s : Section} (h : s.Stored bs) : 0 < bs.length := by
  rw [length_of_stored h]
  exact Nat.add_pos_left (by decide) _

section

variable {c c' : Cursor} {found : Array Section}

theorem readAll_end (h : c.remaining = 0) : readAll c found = .ok found.toList := by
  rw [readAll]
  exact if_pos h

theorem readAll_error {e : Fault} (h0 : c.remaining ≠ 0) (h : read c = .error e c') :
    readAll c found = .error e := by
  rw [readAll, if_neg h0]
  split
  · next he =>
    rw [h] at he
    cases he
    rfl
  · next hn =>
    rw [h] at hn
    cases hn
  · next hs =>
    rw [h] at hs
    cases hs

theorem readAll_mark (h0 : c.remaining ≠ 0) (h : read c = .ok none c') :
    readAll c found = .ok found.toList := by
  rw [readAll, if_neg h0]
  split
  · next he =>
    rw [h] at he
    cases he
  · rfl
  · next hs =>
    rw [h] at hs
    cases hs

theorem readAll_section {s : Section} (h0 : c.remaining ≠ 0) (h : read c = .ok (some s) c') :
    readAll c found = readAll c' (found.push s) := by
  rw [readAll, if_neg h0]
  split
  · next he =>
    rw [h] at he
    cases he
  · next hn =>
    rw [h] at hn
    cases hn
  · next hs =>
    rw [h] at hs
    cases hs
    rfl

end

/-- What is read are the sections that are there. -/
theorem sections_of_readAll {c : Cursor} {found : Array Section} {ss : List Section}
    (hc : c.Inside) (h : readAll c found = .ok ss) :
    ∃ more, ss = found.toList ++ more ∧ Sections c.view more := by
  induction c, found using readAll.induct with
  | case1 c found h0 =>
    rw [readAll_end h0] at h
    cases h
    have hlen := Cursor.length_view hc
    rw [List.length_eq_zero_iff.1 (show c.view.length = 0 by omega)]
    exact ⟨[], (List.append_nil _).symm, .nil⟩
  | case2 c found h0 e c' he =>
    rw [readAll_error h0 he] at h
    cases h
  | case3 c found h0 c' hn =>
    rw [readAll_mark h0 hn] at h
    cases h
    obtain ⟨bs, rest, hv, hr, -⟩ := describes_read.yields hc hn
    rcases hr with ⟨-, hr⟩ | ⟨s, hs, -⟩
    · rw [hv]
      exact ⟨[], (List.append_nil _).symm, .stop hr⟩
    · cases hs
  | case4 c found h0 s c' hs ih =>
    rw [readAll_section h0 hs] at h
    obtain ⟨bs, rest, hv, hr, rfl⟩ := describes_read.yields hc hs
    rcases hr with ⟨hr, -⟩ | ⟨s', hs', hr⟩
    · cases hr
    · cases hs'
      obtain ⟨more, rfl, hm⟩ := ih (Cursor.inside_advance hc hv) h
      rw [Cursor.view_advance hc hv] at hm
      refine ⟨s :: more, ?_, hv ▸ .cons hr hm⟩
      rw [Array.toList_push, List.append_assoc]
      rfl

/-- Sections that are there are read. -/
theorem readAll_of_sections {bs : Bytes} {more : List Section} (h : Sections bs more)
    {c : Cursor} (hc : c.Inside) (hv : c.view = bs) (found : Array Section) :
    readAll c found = .ok (found.toList ++ more) := by
  induction h generalizing c found with
  | nil =>
    have hlen := Cursor.length_view hc
    rw [hv, List.length_nil] at hlen
    rw [readAll_end (by omega), List.append_nil]
  | stop hm =>
    have hlen := Cursor.length_view hc
    have h4 := hm.1
    rw [hv, List.length_append] at hlen
    rw [readAll_mark (by omega) (describes_read.accepts hc hv (Or.inl ⟨rfl, hm⟩)), List.append_nil]
  | cons hs _ ih =>
    have hlen := Cursor.length_view hc
    have hpos := length_pos_of_stored hs
    rw [hv, List.length_append] at hlen
    rw [readAll_section (by omega) (describes_read.accepts hc hv (Or.inr ⟨_, rfl, hs⟩)),
      ih (Cursor.inside_advance hc hv) (Cursor.view_advance hc hv), Array.toList_push,
      List.append_assoc]
    rfl

end Section
end Entity
end QuestArchive
