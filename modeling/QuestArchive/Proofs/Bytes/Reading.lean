import QuestArchive.Proofs.Bytes.Results
import QuestArchive.Proofs.Text.Units

/-!
# What a read consumes

Inside its window a cursor is the list of the bytes left.  `Describes` says of a read
which bytes it takes off the front of that list and what it makes of them, in both
directions: given such bytes it succeeds, whatever follows, and when it succeeds it has
found such bytes.  Descriptions compose along `bind`.
-/

namespace QuestArchive

namespace Cursor

/-- The cursor stands inside its window, and the window inside the data. -/
structure Inside (c : Cursor) : Prop where
  low : 0 ≤ c.pos
  order : c.pos ≤ c.stop
  high : c.stop ≤ c.data.size

def advance (c : Cursor) (n : Nat) : Cursor := { c with pos := c.pos + n }

theorem advance_zero (c : Cursor) : c.advance 0 = c := by
  simp [advance]

theorem advance_advance (c : Cursor) (m n : Nat) :
    (c.advance m).advance n = c.advance (m + n) := by
  simp [advance, Int.add_assoc]

theorem length_span {data : Array UInt8} {i j : Int} (hi : 0 ≤ i) (hij : i ≤ j)
    (hj : j ≤ data.size) : ((span data i j).length : Int) = j - i := by
  rw [span_of_le hi hij hj]
  simp only [List.length_drop, List.length_take, Array.length_toList]
  omega

theorem span_append {data : Array UInt8} {i j k : Int} (hi : 0 ≤ i) (hij : i ≤ j) (hjk : j ≤ k)
    (hk : k ≤ data.size) : span data i j ++ span data j k = span data i k := by
  rw [span_of_le hi hij (by omega), span_of_le (by omega) hjk hk, span_of_le hi (by omega) hk]
  have h : (data.toList.take j.toNat).drop i.toNat =
      ((data.toList.take k.toNat).drop i.toNat).take (j.toNat - i.toNat) := by
    rw [List.take_drop, List.take_take]
    congr 2
    omega
  have h' : (data.toList.take k.toNat).drop j.toNat =
      ((data.toList.take k.toNat).drop i.toNat).drop (j.toNat - i.toNat) := by
    rw [List.drop_drop]
    congr 1
    omega
  rw [h, h', List.take_append_drop]

theorem span_self {data : Array UInt8} {i : Int} (hi : 0 ≤ i) (h : i ≤ data.size) :
    span data i i = [] := by
  apply List.length_eq_zero_iff.1
  have := length_span hi (Int.le_refl i) h
  omega

theorem span_whole (data : Array UInt8) : span data 0 data.size = data.toList := by
  rw [span_of_le (Int.le_refl 0) (by omega) (Int.le_refl _)]
  show (data.toList.take data.size).drop 0 = data.toList
  rw [List.drop_zero, ← Array.length_toList, List.take_length]

theorem span_middle (front bs back : Bytes) :
    span (front ++ (bs ++ back)).toArray front.length (front.length + bs.length) = bs := by
  have hsize : (front ++ (bs ++ back)).toArray.size = front.length + bs.length + back.length := by
    simp [Nat.add_assoc]
  rw [span_of_le (by omega) (by omega) (by omega), Int.toNat_natCast, ← Int.natCast_add,
    Int.toNat_natCast, ← List.length_append, ← List.append_assoc]
  show ((front ++ bs ++ back).take (front ++ bs).length).drop front.length = bs
  rw [List.take_left, List.drop_left]

theorem inside_whole (data : Array UInt8) : (whole data).Inside :=
  ⟨Int.le_refl 0, Int.natCast_nonneg _, Int.le_refl _⟩

theorem view_whole (bs : Bytes) : (whole bs.toArray).view = bs := span_whole bs.toArray

theorem length_view {c : Cursor} (h : c.Inside) : (c.view.length : Int) = c.remaining :=
  length_span h.low h.order h.high

theorem view_next {c : Cursor} (h : c.Inside) {n : Nat} (hn : c.pos + n ≤ c.stop) :
    c.view = span c.data c.pos (c.pos + n) ++ (c.advance n).view ∧
      (span c.data c.pos (c.pos + n)).length = n := by
  have hlow := h.low
  have hhigh := h.high
  have hlen := @length_span c.data c.pos (c.pos + n) hlow (by omega) (by omega)
  exact ⟨(span_append hlow (by omega) hn hhigh).symm, by omega⟩

theorem inside_window {data : Array UInt8} {i j : Int} (hi : 0 ≤ i) (hij : i ≤ j)
    (hj : j ≤ data.size) : (window data i j).Inside := ⟨hi, hij, hj⟩

section

variable {c : Cursor} {bs rest : Bytes}

theorem length_of_view (h : c.Inside) (hv : c.view = bs ++ rest) :
    c.pos + bs.length + rest.length = c.stop := by
  have hl := length_view h
  rw [hv, List.length_append] at hl
  unfold remaining at hl
  omega

theorem inside_advance (h : c.Inside) (hv : c.view = bs ++ rest) :
    (c.advance bs.length).Inside := by
  have hl := length_of_view h hv
  obtain ⟨low, order, high⟩ := h
  refine ⟨?_, ?_, high⟩
  · show 0 ≤ c.pos + (bs.length : Int)
    omega
  · show c.pos + (bs.length : Int) ≤ c.stop
    omega

/-- The bytes before a position in the window are the first ones of the view. -/
theorem span_of_view (h : c.Inside) (hv : c.view = bs ++ rest) :
    span c.data c.pos (c.pos + bs.length) = bs ∧
      span c.data (c.pos + bs.length) c.stop = rest := by
  have hl := length_of_view h hv
  have hlow := h.low
  have hhigh := h.high
  have hcut : span c.data c.pos (c.pos + bs.length) ++ span c.data (c.pos + bs.length) c.stop =
      bs ++ rest := (span_append hlow (by omega) (by omega) hhigh).trans hv
  refine List.append_inj hcut ?_
  have := @length_span c.data c.pos (c.pos + bs.length) hlow (by omega)
    (by omega)
  omega

theorem view_advance (h : c.Inside) (hv : c.view = bs ++ rest) :
    (c.advance bs.length).view = rest := (span_of_view h hv).2

end

theorem byteAt?_of_span {data : Array UInt8} {i j : Int} {a : UInt8} {rest : Bytes} (hi : 0 ≤ i)
    (hij : i ≤ j) (hj : j ≤ data.size) (h : span data i j = a :: rest) :
    i < j ∧ byteAt? data i = some a ∧ span data (i + 1) j = rest := by
  have hlen := length_span hi hij hj
  rw [h, List.length_cons] at hlen
  have hlt : i < j := by omega
  rw [span_of_le hi hij hj] at h
  refine ⟨hlt, ?_, ?_⟩
  · have hget : ((data.toList.take j.toNat).drop i.toNat)[0]? = some a := by
      rw [h]
      rfl
    rw [List.getElem?_drop, Nat.add_zero, List.getElem?_take_of_lt (by omega)] at hget
    rw [byteAt?, if_neg (by omega)]
    simpa using hget
  · rw [span_of_le (by omega) (by omega) hj]
    have hnat : (i + 1).toNat = i.toNat + 1 := by omega
    rw [hnat, ← List.drop_drop, h]
    rfl

end Cursor

namespace Read

open Cursor

/-- An action takes bytes off the front of what the cursor stands before, and gives what
stands in the given relation to them. -/
structure Describes (a : Read α) (R : Bytes → α → Prop) : Prop where
  accepts : ∀ {c : Cursor} {bs rest : Bytes} {x : α}, c.Inside → c.view = bs ++ rest → R bs x →
    a c = .ok x (c.advance bs.length)
  yields : ∀ {c c' : Cursor} {x : α}, c.Inside → a c = .ok x c' →
    ∃ bs rest, c.view = bs ++ rest ∧ R bs x ∧ c' = c.advance bs.length

namespace Describes

theorem congr {a : Read α} {P Q : Bytes → α → Prop} (h : Describes a P)
    (e : ∀ bs x, P bs x ↔ Q bs x) : Describes a Q where
  accepts hc hv hr := h.accepts hc hv ((e _ _).2 hr)
  yields hc ha := by
    obtain ⟨bs, rest, hv, hr, he⟩ := h.yields hc ha
    exact ⟨bs, rest, hv, (e _ _).1 hr, he⟩

theorem pure (x : α) : Describes (Pure.pure x : Read α) fun bs y => bs = [] ∧ y = x where
  accepts := by
    rintro c bs rest y - - ⟨rfl, rfl⟩
    rw [List.length_nil, advance_zero]
    rfl
  yields := by
    intro c c' y _ h
    cases h
    exact ⟨[], c.view, rfl, ⟨rfl, rfl⟩, (advance_zero c).symm⟩

theorem throw (e : Fault) : Describes (MonadExcept.throw e : Read α) fun _ _ => False where
  accepts _ _ h := h.elim
  yields _ h := by cases h

theorem bind {a : Read α} {f : α → Read β} {P : Bytes → α → Prop} {Q : α → Bytes → β → Prop}
    (ha : Describes a P) (hf : ∀ bs x, P bs x → Describes (f x) (Q x)) :
    Describes (a >>= f) fun bs y =>
      ∃ front back x, bs = front ++ back ∧ P front x ∧ Q x back y where
  accepts := by
    rintro c bs rest y hc hv ⟨front, back, x, rfl, hp, hq⟩
    rw [List.append_assoc] at hv
    have h1 := ha.accepts hc hv hp
    have h2 := (hf front x hp).accepts (inside_advance hc hv) (view_advance hc hv) hq
    rw [bind_of_ok h1, h2, advance_advance, List.length_append]
  yields := by
    intro c c'' y hc h
    obtain ⟨x, c', hx, h⟩ := ok_of_bind h
    obtain ⟨front, rest, hv, hp, rfl⟩ := ha.yields hc hx
    obtain ⟨back, rest', hv', hq, rfl⟩ := (hf front x hp).yields (inside_advance hc hv) h
    refine ⟨front ++ back, rest', ?_, ⟨front, back, x, rfl, hp, hq⟩, ?_⟩
    · rw [hv, ← view_advance hc hv, hv', List.append_assoc]
    · rw [advance_advance, List.length_append]

theorem map {a : Read α} {P : Bytes → α → Prop} (f : α → β) (ha : Describes a P) :
    Describes (a >>= fun x => Pure.pure (f x)) fun bs y => ∃ x, P bs x ∧ y = f x :=
  (ha.bind fun _ x _ => pure (f x)).congr fun bs y => by
    constructor
    · rintro ⟨front, back, x, rfl, hp, rfl, rfl⟩
      exact ⟨x, by rwa [List.append_nil], rfl⟩
    · rintro ⟨x, hp, rfl⟩
      exact ⟨bs, [], x, (List.append_nil bs).symm, hp, rfl, rfl⟩

end Describes

theorem describes_ofExcept (e : Except Fault α) :
    Describes (Read.ofExcept e) fun bs x => bs = [] ∧ e = .ok x := by
  cases e with
  | ok a =>
    refine (Describes.pure a).congr fun bs x => and_congr_right fun _ => ?_
    rw [Except.ok.injEq]
    exact eq_comm
  | error e => exact (Describes.throw e).congr fun bs x => ⟨False.elim, fun h => nomatch h.2⟩

theorem describes_bytes (n : Nat) : Describes (bytes n) fun bs x => bs.length = n ∧ x = bs where
  accepts := by
    rintro c bs rest x hc hv ⟨rfl, rfl⟩
    have hl := length_of_view hc hv
    unfold bytes
    rw [if_neg (by omega), (span_of_view hc hv).1]
    rfl
  yields := by
    intro c c' x hc h
    unfold bytes at h
    split at h
    · cases h
    · next hn =>
      cases h
      obtain ⟨hview, hlen⟩ := view_next hc (show c.pos + n ≤ c.stop by omega)
      refine ⟨_, _, hview, ⟨hlen, rfl⟩, ?_⟩
      rw [hlen]
      rfl

theorem describes_field (width : Nat) :
    Describes (field width) fun bs x => bs.length = width ∧ x = bs := by
  have whole : ∀ bs x : Bytes, bs.length = width ∧ x = bs →
      Describes (if x.length < width then MonadExcept.throw .cutField else Pure.pure x : Read Bytes)
        fun bs y => bs = [] ∧ y = x := by
    rintro bs x ⟨rfl, rfl⟩
    rw [if_neg (Nat.lt_irrefl _)]
    exact Describes.pure x
  refine ((describes_bytes width).bind whole).congr fun bs x => ?_
  constructor
  · rintro ⟨front, back, y, rfl, ⟨hl, rfl⟩, rfl, rfl⟩
    rw [List.append_nil]
    exact ⟨hl, rfl⟩
  · rintro ⟨hl, rfl⟩
    exact ⟨x, [], x, (List.append_nil x).symm, ⟨hl, rfl⟩, rfl, rfl⟩

theorem describes_map_field (width : Nat) (f : Bytes → α) :
    Describes (field width >>= fun bs => Pure.pure (f bs))
      fun bs x => bs.length = width ∧ x = f bs :=
  ((describes_field width).map f).congr fun bs x => by
    constructor
    · rintro ⟨y, ⟨hl, rfl⟩, rfl⟩
      exact ⟨hl, rfl⟩
    · rintro ⟨hl, rfl⟩
      exact ⟨bs, ⟨hl, rfl⟩, rfl⟩

theorem describes_u8 : Describes u8 fun bs n => ∃ b : UInt8, bs = [b] ∧ n = b.toNat := by
  refine ((describes_bytes 1).bind
    (Q := fun x bs n => bs = [] ∧ ∃ b : UInt8, x = [b] ∧ n = b.toNat) ?_).congr fun bs n => ?_
  · rintro bs x ⟨hl, rfl⟩
    obtain ⟨b, rfl⟩ := List.length_eq_one_iff.1 hl
    refine (Describes.pure b.toNat).congr fun bs n => ?_
    constructor
    · rintro ⟨hbs, rfl⟩
      exact ⟨hbs, b, rfl, rfl⟩
    · rintro ⟨hbs, b', hb, rfl⟩
      cases hb
      exact ⟨hbs, rfl⟩
  · constructor
    · rintro ⟨front, back, y, rfl, ⟨hl, rfl⟩, rfl, b, rfl, rfl⟩
      exact ⟨b, rfl, rfl⟩
    · rintro ⟨b, rfl, rfl⟩
      exact ⟨[b], [], [b], rfl, ⟨rfl, rfl⟩, rfl, b, rfl, rfl⟩

theorem describes_u16 : Describes u16 fun bs n => bs.length = 2 ∧ n = Word.decode bs :=
  describes_map_field 2 Word.decode

theorem describes_u32 : Describes u32 fun bs n => bs.length = 4 ∧ n = Word.decode bs :=
  describes_map_field 4 Word.decode

theorem describes_i32 :
    Describes i32 fun bs n => bs.length = 4 ∧ n = Word.signed 4 (Word.decode bs) :=
  describes_map_field 4 fun bs => Word.signed 4 (Word.decode bs)

theorem describes_single : Describes single fun bs x => bs.length = 4 ∧ x = singleOf bs :=
  describes_map_field 4 singleOf

theorem Describes.map_value {read : Read α} {n : Nat} {value : Bytes → α}
    (h : Describes read fun bs x => bs.length = n ∧ x = value bs) (f : α → β) :
    Describes (read >>= fun x => Pure.pure (f x)) fun bs y => bs.length = n ∧ y = f (value bs) :=
  (h.map f).congr fun bs y => by
    constructor
    · rintro ⟨x, ⟨hl, rfl⟩, rfl⟩
      exact ⟨hl, rfl⟩
    · rintro ⟨hl, rfl⟩
      exact ⟨_, ⟨hl, rfl⟩, rfl⟩

theorem describes_array (width count : Nat) :
    Describes (array width count) fun bs gs =>
      bs.length = width * count ∧ gs = groups width count bs := by
  have whole : ∀ bs x : Bytes, bs.length = width * count ∧ x = bs →
      Describes
        (if (x.length : Int) < (width : Int) * (count : Int) then MonadExcept.throw .cutField
          else Pure.pure (groups width (count : Int).toNat x) : Read (List Bytes))
        fun bs y => bs = [] ∧ y = groups width count x := by
    rintro bs x ⟨hl, rfl⟩
    rw [if_neg (by rw [hl]; push_cast; omega)]
    exact Describes.pure _
  have hb := describes_bytes (width * count)
  rw [Int.natCast_mul] at hb
  refine (hb.bind whole).congr fun bs gs => ?_
  constructor
  · rintro ⟨front, back, x, rfl, ⟨hl, rfl⟩, rfl, rfl⟩
    rw [List.append_nil]
    exact ⟨hl, rfl⟩
  · rintro ⟨hl, rfl⟩
    exact ⟨bs, [], bs, (List.append_nil bs).symm, ⟨hl, rfl⟩, rfl, rfl⟩

theorem describes_u16Array (count : Nat) :
    Describes (u16Array count) fun bs ns =>
      bs.length = 2 * count ∧ ns = (groups 2 count bs).map Word.decode :=
  (describes_array 2 count).map_value (List.map Word.decode)

theorem describes_u32Array (count : Nat) :
    Describes (u32Array count) fun bs ns =>
      bs.length = 4 * count ∧ ns = (groups 4 count bs).map Word.decode :=
  (describes_array 4 count).map_value (List.map Word.decode)

theorem describes_i32Array (count : Nat) :
    Describes (i32Array count) fun bs ns => bs.length = 4 * count ∧
      ns = (groups 4 count bs).map fun word => Word.signed 4 (Word.decode word) :=
  (describes_array 4 count).map_value (List.map fun word => Word.signed 4 (Word.decode word))

theorem describes_vec3 :
    Describes vec3 fun bs v => bs.length = 12 ∧
      v = ⟨singleOf (bs.take 4), singleOf ((bs.drop 4).take 4), singleOf (bs.drop 8)⟩ :=
  describes_map_field 12 fun bs =>
    (⟨singleOf (bs.take 4), singleOf ((bs.drop 4).take 4), singleOf (bs.drop 8)⟩ : Vec3)

theorem describes_fieldText (size : Nat) :
    Describes (text size) fun bs t =>
      bs.length = size ∧ t = Text.decode16 (Text.beforeNull bs) :=
  (describes_bytes size).map_value fun bs => Text.decode16 (Text.beforeNull bs)

theorem describes_skip (n : Nat) : Describes (skip n) fun bs _ => bs.length = n where
  accepts := by
    rintro c bs rest x hc hv rfl
    have hl := length_of_view hc hv
    unfold skip
    rw [if_neg (by omega)]
    rfl
  yields := by
    intro c c' x hc h
    unfold skip at h
    split at h
    · cases h
    · next hn =>
      cases h
      obtain ⟨hview, hlen⟩ := view_next hc (show c.pos + n ≤ c.stop by omega)
      refine ⟨_, _, hview, hlen, ?_⟩
      rw [hlen]
      rfl

/-- Read on their own, bytes of the right number are what the read makes of them. -/
theorem within_eq_ok_iff {a : Read α} {R : Bytes → α → Prop} (h : Describes a R) {bs : Bytes}
    (hs : ∀ {front : Bytes} {x : α}, R front x → front.length = bs.length) {x : α} :
    within (.whole bs.toArray) a = .ok x ↔ R bs x := by
  have hin := Cursor.inside_whole bs.toArray
  have hview := Cursor.view_whole bs
  unfold within
  constructor
  · intro hw
    split at hw
    · next y c' hrun =>
      cases hw
      obtain ⟨front, rest, hv, hr, -⟩ := h.yields hin hrun
      rw [hview] at hv
      have hlen := congrArg List.length hv
      rw [List.length_append, hs hr] at hlen
      rw [List.length_eq_zero_iff.1 (show rest.length = 0 by omega), List.append_nil] at hv
      rwa [hv]
    · cases hw
  · intro hr
    have hrun : EStateM.run a (Cursor.whole bs.toArray) = .ok x _ :=
      h.accepts hin (hview.trans (List.append_nil bs).symm) hr
    rw [hrun]

/-! ## Terminated texts -/

theorem nullUnit?_of_noNull {data : Array UInt8} {limit : Int} (hl : limit ≤ data.size)
    {units rest : Bytes} (hn : Text.NoNull units) : ∀ {i : Int}, 0 ≤ i → i ≤ limit →
      span data i limit = units ++ 0 :: 0 :: rest →
      nullUnit? data limit i = .ok (some (i + units.length)) := by
  fun_induction Text.NoNull units with
  | case1 =>
    intro i hi hil hs
    obtain ⟨h1, b1, s1⟩ := byteAt?_of_span hi hil hl hs
    obtain ⟨h2, b2, -⟩ := byteAt?_of_span (by omega) (by omega) hl s1
    rw [nullUnit?, if_pos h2, b1]
    simp [b2]
  | case2 => exact hn.elim
  | case3 a b units ih =>
    intro i hi hil hs
    obtain ⟨h1, b1, s1⟩ := byteAt?_of_span hi hil hl hs
    obtain ⟨h2, b2, s2⟩ := byteAt?_of_span (by omega) (by omega) hl s1
    have hi2 : i + 1 + 1 = i + 2 := by omega
    rw [hi2] at s2
    have hrec := ih hn.2 (i := i + 2) (by omega) (by omega) s2
    have hlen : i + 2 + (units.length : Int) = i + ((a :: b :: units).length : Nat) := by
      simp only [List.length_cons]
      omega
    rw [nullUnit?, if_pos h2, b1]
    simp only [b2, hrec, hlen]
    by_cases ha : a = 0
    · have hb : b ≠ 0 := fun hb => hn.1 ⟨ha, hb⟩
      rw [if_pos ha, if_neg hb]
    · rw [if_neg ha]

theorem noNull_of_nullUnit? {data : Array UInt8} {limit i j : Int} (hl : limit ≤ data.size)
    (hi : 0 ≤ i) (hil : i ≤ limit) (h : nullUnit? data limit i = .ok (some j)) :
    ∃ units rest, span data i limit = units ++ 0 :: 0 :: rest ∧ Text.NoNull units ∧
      j = i + units.length := by
  -- Two bytes at the front of a span, as the search meets them.
  have front : ∀ {i : Int} {a b : UInt8}, 0 ≤ i → i + 1 < limit → byteAt? data i = some a →
      byteAt? data (i + 1) = some b → span data i limit = a :: b :: span data (i + 2) limit := by
    intro i a b hi hlt ha hb
    have hcons : ∀ k : Int, 0 ≤ k → k < limit → ∃ x rest, span data k limit = x :: rest := by
      intro k hk hkl
      have hlen := length_span hk (Int.le_of_lt hkl) hl
      cases hs : span data k limit with
      | nil =>
        rw [hs, List.length_nil] at hlen
        omega
      | cons x rest => exact ⟨x, rest, rfl⟩
    obtain ⟨x, r, hs⟩ := hcons i hi (by omega)
    obtain ⟨-, hx, hs1⟩ := byteAt?_of_span hi (by omega) hl hs
    obtain ⟨y, r', hs'⟩ := hcons (i + 1) (by omega) hlt
    obtain ⟨-, hy, hs2⟩ := byteAt?_of_span (by omega) (by omega) hl hs'
    rw [ha] at hx
    rw [hb] at hy
    cases hx
    cases hy
    have hi2 : i + 1 + 1 = i + 2 := by omega
    rw [hi2] at hs2
    rw [hs, ← hs1, hs', hs2]
  fun_induction nullUnit? data limit i with
  | case1 | case2 => cases h
  | case3 i hlt ha hb =>
    cases h
    exact ⟨[], _, front hi hlt ha hb, trivial, by simp⟩
  | case4 i hlt b hb hne ha ih =>
    obtain ⟨units, rest, hs, hn, rfl⟩ := ih (by omega) (by omega) h
    refine ⟨0 :: b :: units, rest, ?_, ⟨fun h0 => hne h0.2, hn⟩, ?_⟩
    · rw [front hi hlt ha hb, hs]
      rfl
    · simp only [List.length_cons]
      omega
  | case5 i hlt a ha hne ih =>
    obtain ⟨units, rest, hs, hn, rfl⟩ := ih (by omega) (by omega) h
    have hlen := @length_span data (i + 1) limit (by omega) (by omega) hl
    obtain ⟨b, r, hb⟩ : ∃ b r, span data (i + 1) limit = b :: r := by
      cases hs' : span data (i + 1) limit with
      | nil =>
        rw [hs', List.length_nil] at hlen
        omega
      | cons b r => exact ⟨b, r, rfl⟩
    obtain ⟨-, hb, -⟩ := byteAt?_of_span (by omega) (by omega) hl hb
    refine ⟨a :: b :: units, rest, ?_, ⟨fun h0 => hne h0.1, hn⟩, ?_⟩
    · rw [front hi hlt ha hb, hs]
      rfl
    · simp only [List.length_cons]
      omega
  | case6 => cases h

end Read
end QuestArchive
