import QuestArchive.Proofs.Bytes.Sessions
import QuestArchive.Proofs.Entity.Record

/-!
# Writing and reading as mirrors

A field that has room for its value is written as bytes that the matching read takes for this
value, so that fields written one behind the other are read back in their order.  Wherever a
writer stands and whatever it is told, it stays in its buffer, and a write touches no byte but
those that it passes over.
-/

namespace QuestArchive

/-! ## Fields and the reads that match them -/

inductive Datum where
  | u8 (n : Int)
  | i8 (n : Int)
  | u16 (n : Int)
  | i16 (n : Int)
  | u32 (n : Int)
  | i32 (n : Int)
  | single (x : Double)
  | vec3 (v : Vec3)
  | bytes (bs : Bytes)
  | zeros (count : Int)
  | ascii (name : String) (size : Int)
  | text (t : Text) (size : Int)
  deriving DecidableEq, Repr

namespace Datum

def field : Datum → Except Fault Bytes
  | u8 n => Field.u8 n
  | i8 n => Field.signed 1 n
  | u16 n => Field.u16 n
  | i16 n => Field.signed 2 n
  | u32 n => Field.u32 n
  | i32 n => Field.i32 n
  | single x => Field.single x
  | vec3 v => Field.vec3 v
  | bytes bs => .ok bs
  | zeros count => .ok (Field.zeros count)
  | ascii name size => Field.ascii name size
  | text t size => Field.text t size

def fetch : Datum → Fetch
  | u8 _ => .u8
  | i8 _ => .i8
  | u16 _ => .u16
  | i16 _ => .i16
  | u32 _ => .u32
  | i32 _ => .i32
  | single _ => .single
  | vec3 _ => .vec3
  | bytes bs => .bytes bs.length
  | zeros count => .bytes count
  | ascii _ size => .ascii size
  | text _ size => .text size

def value : Datum → Reply
  | u8 n | i8 n | u16 n | i16 n | u32 n | i32 n => .integer n
  | single x => .number x
  | vec3 v => .vector v
  | bytes bs => .bytes bs
  | zeros count => .bytes (List.replicate count.toNat 0)
  | ascii name _ => .name name
  | text t _ => .text t

def Fits : Datum → Prop
  | u8 n => 0 ≤ n ∧ n < 2 ^ 8
  | i8 n => -2 ^ 7 ≤ n ∧ n < 2 ^ 7
  | u16 n => 0 ≤ n ∧ n < 2 ^ 16
  | i16 n => -2 ^ 15 ≤ n ∧ n < 2 ^ 15
  | u32 n => 0 ≤ n ∧ n < 2 ^ 32
  | i32 n => -2 ^ 31 ≤ n ∧ n < 2 ^ 31
  | single x => x.IsSingle
  | vec3 v => v.IsSingle
  | bytes _ => True
  | zeros count => 0 ≤ count
  | ascii name size => Field.IsName name ∧ name.length ≤ size
  | text t size => 0 ≤ size ∧ t.Fits size.toNat

/-- Some bytes are written for the value, and the matching read takes them for it. -/
structure Spelled (d : Datum) (bs : Bytes) : Prop where
  field : d.field = .ok bs
  size : d.fetch.size = bs.length
  meaning : d.fetch.meaning bs = d.value

theorem spelled_unsigned {d : Datum} {width : Nat} {n : Int} (hn : 0 ≤ n ∧ n < Word.bound width)
    (hfield : d.field = Field.unsigned width n) (hsize : d.fetch.size = width)
    (hmeaning : ∀ bs, d.fetch.meaning bs = .integer (Word.decode bs))
    (hvalue : d.value = .integer n) : ∃ bs, d.Spelled bs := by
  obtain ⟨bs, hlen, hdecode, hw⟩ := Field.exists_unsigned hn
  exact ⟨bs, hfield.trans hw, by rw [hsize, hlen], by rw [hmeaning, hvalue, hdecode]⟩

theorem spelled_signed {d : Datum} {width : Nat} {n : Int}
    (hl : -(Word.bound width : Int) ≤ 2 * n) (hh : 2 * n < Word.bound width)
    (hfield : d.field = Field.signed width n) (hsize : d.fetch.size = width)
    (hmeaning : ∀ bs, d.fetch.meaning bs = .integer (Word.signed width (Word.decode bs)))
    (hvalue : d.value = .integer n) : ∃ bs, d.Spelled bs := by
  obtain ⟨bs, hlen, hdecode, hw⟩ := Field.exists_signed hl hh
  exact ⟨bs, hfield.trans hw, by rw [hsize, hlen], by rw [hmeaning, hvalue, ← hdecode]⟩

theorem exists_spelled {d : Datum} (h : d.Fits) : ∃ bs, d.Spelled bs := by
  have b1 : Word.bound 1 = 2 ^ 8 := rfl
  have b2 : Word.bound 2 = 2 ^ 16 := rfl
  have b4 : Word.bound 4 = 2 ^ 32 := rfl
  cases d with
  | u8 n =>
    obtain ⟨hl, hh⟩ : 0 ≤ n ∧ n < 2 ^ 8 := h
    exact spelled_unsigned ⟨hl, by omega⟩ rfl rfl (fun _ => rfl) rfl
  | u16 n =>
    obtain ⟨hl, hh⟩ : 0 ≤ n ∧ n < 2 ^ 16 := h
    exact spelled_unsigned ⟨hl, by omega⟩ rfl rfl (fun _ => rfl) rfl
  | u32 n =>
    obtain ⟨hl, hh⟩ : 0 ≤ n ∧ n < 2 ^ 32 := h
    exact spelled_unsigned ⟨hl, by omega⟩ rfl rfl (fun _ => rfl) rfl
  | i8 n =>
    obtain ⟨hl, hh⟩ : -2 ^ 7 ≤ n ∧ n < 2 ^ 7 := h
    exact spelled_signed (by omega) (by omega) rfl rfl (fun _ => rfl) rfl
  | i16 n =>
    obtain ⟨hl, hh⟩ : -2 ^ 15 ≤ n ∧ n < 2 ^ 15 := h
    exact spelled_signed (by omega) (by omega) rfl rfl (fun _ => rfl) rfl
  | i32 n =>
    obtain ⟨hl, hh⟩ : -2 ^ 31 ≤ n ∧ n < 2 ^ 31 := h
    exact spelled_signed (by omega) (by omega) rfl rfl (fun _ => rfl) rfl
  | single x =>
    obtain ⟨bs, hlen, hx, hw⟩ := Double.exists_single_field h
    exact ⟨bs, hw, by rw [hlen]; rfl, by rw [value, hx]; rfl⟩
  | vec3 v =>
    obtain ⟨bs, hs, hw⟩ := Entity.exists_singles h
    obtain ⟨hlen, hv⟩ := Entity.singles_iff.1 hs
    exact ⟨bs, hw, by rw [hlen]; rfl, by rw [value, hv]; rfl⟩
  | bytes bs => exact ⟨bs, rfl, rfl, rfl⟩
  | zeros count =>
    have hcount : 0 ≤ count := h
    refine ⟨Field.zeros count, rfl, ?_, rfl⟩
    show count = ((Field.zeros count).length : Int)
    rw [Field.zeros, List.length_replicate]
    omega
  | ascii name size =>
    obtain ⟨hname, hlen⟩ := h
    obtain ⟨k, rfl⟩ := Int.eq_ofNat_of_zero_le (by omega : 0 ≤ size)
    obtain ⟨bs, hw, hbs, hread⟩ := Field.exists_ascii hname (by omega : name.length ≤ k)
    exact ⟨bs, hw, by rw [hbs]; rfl, by rw [value, ← hread]; rfl⟩
  | text t size =>
    obtain ⟨hsize, ht⟩ := h
    obtain ⟨k, rfl⟩ := Int.eq_ofNat_of_zero_le hsize
    obtain ⟨bs, hw, hbs, hread⟩ := Field.exists_text ht
    exact ⟨bs, hw, by rw [hbs]; rfl, by rw [value, ← hread]; rfl⟩

end Datum

/-! ## Writers -/

inductive Order where
  | write (d : Datum)
  | seek (offset : Int)
  deriving DecidableEq, Repr

namespace Writer

def act (w : Writer) : Order → Except Fault Writer
  | .write d => w.write d.field
  | .seek offset => w.seek offset

/-- The fault of an order, if it fails, and the writer behind it. -/
def step (w : Writer) (order : Order) : Option Fault × Writer :=
  match w.act order with
  | .ok w' => (none, w')
  | .error e => (some e, w)

def run (w : Writer) : List Order → List (Option Fault) × Writer
  | [] => ([], w)
  | order :: orders =>
    let (fault, next) := w.step order
    let (faults, last) := run next orders
    (fault :: faults, last)

/-- The writer stands in its buffer or at its end. -/
def Sound (w : Writer) : Prop := w.pos ≤ w.bytes.length

variable {w : Writer} {bs : Bytes}

/-! ### One write -/

theorem length_put (hw : w.Sound) (bs : Bytes) :
    (w.put bs).bytes.length = max w.bytes.length (w.pos + bs.length) := by
  have hw : w.pos ≤ w.bytes.length := hw
  simp only [put, List.length_append, List.length_take, List.length_drop]
  omega

theorem sound_put (hw : w.Sound) (bs : Bytes) : (w.put bs).Sound := by
  have hlen := length_put hw bs
  show w.pos + bs.length ≤ (w.put bs).bytes.length
  omega

/-- A byte that the writer does not pass over stays as it was. -/
theorem getElem?_put (hw : w.Sound) (bs : Bytes) {k : Nat}
    (hk : k < w.pos ∨ (w.put bs).pos ≤ k) : (w.put bs).bytes[k]? = w.bytes[k]? := by
  have hw : w.pos ≤ w.bytes.length := hw
  have htake : (w.bytes.take w.pos).length = w.pos := by
    rw [List.length_take, Nat.min_eq_left hw]
  rw [put, List.append_assoc]
  rcases hk with hk | hk
  · rw [List.getElem?_append_left (by omega), List.getElem?_take_of_lt hk]
  · have hk : w.pos + bs.length ≤ k := hk
    rw [List.getElem?_append_right (by omega), List.getElem?_append_right (by omega), htake,
      List.getElem?_drop]
    congr 1
    omega

theorem put_at_end (hw : w.pos = w.bytes.length) (bs : Bytes) :
    w.put bs = ⟨w.bytes ++ bs, (w.bytes ++ bs).length⟩ := by
  rw [put, hw, List.take_length, List.drop_eq_nil_of_le (by omega), List.append_nil,
    List.length_append]

/-! ### One order -/

/-- What an order can do: a write of the bytes of a field, a move inside the buffer, or nothing. -/
theorem step_cases (w : Writer) (order : Order) :
    (∃ d bs, order = .write d ∧ d.field = .ok bs ∧ w.step order = (none, w.put bs)) ∨
      (∃ offset : Nat, order = .seek offset ∧ offset ≤ w.bytes.length ∧
        w.step order = (none, { w with pos := offset })) ∨
      ∃ e, w.step order = (some e, w) := by
  cases order with
  | write d =>
    unfold step act write
    dsimp only
    cases hf : d.field with
    | ok bs => exact .inl ⟨d, bs, rfl, hf, rfl⟩
    | error e => exact .inr (.inr ⟨e, rfl⟩)
  | seek offset =>
    unfold step act seek
    dsimp only
    by_cases ho : offset < 0 ∨ (w.bytes.length : Int) < offset
    · rw [if_pos ho]
      exact .inr (.inr ⟨_, rfl⟩)
    · rw [if_neg ho]
      refine .inr (.inl ⟨offset.toNat, ?_, by omega, rfl⟩)
      rw [Int.toNat_of_nonneg (by omega)]

theorem step_sound (hw : w.Sound) (order : Order) :
    (w.step order).2.Sound ∧ w.bytes.length ≤ (w.step order).2.bytes.length := by
  rcases step_cases w order with ⟨d, bs, -, -, hs⟩ | ⟨offset, -, ho, hs⟩ | ⟨e, hs⟩
  · rw [hs]
    have hlen := length_put hw bs
    exact ⟨sound_put hw bs, by dsimp only; omega⟩
  · rw [hs]
    exact ⟨ho, Nat.le_refl _⟩
  · rw [hs]
    exact ⟨hw, Nat.le_refl _⟩

theorem step_of_fault {order : Order} {e : Fault} (h : (w.step order).1 = some e) :
    (w.step order).2 = w := by
  rcases step_cases w order with ⟨d, bs, -, -, hs⟩ | ⟨offset, -, -, hs⟩ | ⟨e', hs⟩
  · rw [hs] at h
    cases h
  · rw [hs] at h
    cases h
  · rw [hs]

/-- A write goes forward, and only the bytes on its way change. -/
theorem step_write (hw : w.Sound) (d : Datum) :
    w.pos ≤ (w.step (.write d)).2.pos ∧
      ∀ k, k < w.pos ∨ (w.step (.write d)).2.pos ≤ k →
        (w.step (.write d)).2.bytes[k]? = w.bytes[k]? := by
  rcases step_cases w (.write d) with ⟨_, bs, -, -, hs⟩ | ⟨_, h, -⟩ | ⟨e, hs⟩
  · rw [hs]
    exact ⟨Nat.le_add_right _ _, fun k hk => getElem?_put hw bs hk⟩
  · cases h
  · rw [hs]
    exact ⟨Nat.le_refl _, fun _ _ => rfl⟩

theorem step_seek (w : Writer) (offset : Int) : (w.step (.seek offset)).2.bytes = w.bytes := by
  rcases step_cases w (.seek offset) with ⟨d, bs, h, -⟩ | ⟨_, -, -, hs⟩ | ⟨e, hs⟩
  · cases h
  · rw [hs]
  · rw [hs]

theorem run_sound (hw : w.Sound) (orders : List Order) : (w.run orders).2.Sound := by
  induction orders generalizing w with
  | nil => exact hw
  | cons order orders ih => exact ih (step_sound hw order).1

end Writer

/-! ## There and back -/

open Datum (Spelled)

theorem Writer.run_writes {data : List Datum} {pieces : List Bytes}
    (h : List.Forall₂ Spelled data pieces) {w : Writer} (hw : w.pos = w.bytes.length) :
    w.run (data.map .write) =
      (data.map fun _ => none,
        ⟨w.bytes ++ pieces.flatten, (w.bytes ++ pieces.flatten).length⟩) := by
  induction h generalizing w with
  | nil =>
    rw [List.flatten_nil, List.append_nil, ← hw]
    rfl
  | @cons d bs data pieces hd _ ih =>
    have hstep : w.step (.write d) = (none, ⟨w.bytes ++ bs, (w.bytes ++ bs).length⟩) := by
      unfold step act write
      dsimp only
      rw [hd.field, ← put_at_end hw]
      rfl
    rw [List.map_cons, List.map_cons, run, hstep, List.flatten_cons, ← List.append_assoc]
    dsimp only
    rw [ih rfl]

theorem Datum.Spelled.outcome {d : Datum} {bs : Bytes} (h : d.Spelled bs) (front back : Bytes) :
    (Request.fetch d.fetch).outcome (front ++ bs ++ back) front.length =
      .ok (.reply d.value, (front ++ bs).length) := by
  have hreach : reach (front ++ bs ++ back) front.length .read d.fetch.size =
      .ok (front ++ bs).length := by
    rw [h.size]
    unfold reach
    rw [if_neg (by simp only [List.length_append]; omega), Int.toNat_natCast, List.length_append]
  rw [Request.outcome, hreach, ok_bind, List.take_left, List.drop_left, h.meaning]
  rfl

/-- Fields that stand one behind the other are read by the reads that match. -/
theorem Session.run_fetches {data : List Datum} {pieces : List Bytes}
    (h : List.Forall₂ Spelled data pieces) {r : Reader} {front : Bytes}
    (hr : r.cursor.Shows (front ++ pieces.flatten) front.length) :
    run [r] (data.map fun d => ⟨0, .fetch d.fetch⟩) =
      (data.map fun d => some (.ok d.value), [r.moved (front ++ pieces.flatten).length]) := by
  induction h generalizing r front with
  | nil =>
    rw [List.flatten_nil, List.append_nil] at hr ⊢
    rw [Reader.moved, hr.moved_self]
    rfl
  | @cons d bs data pieces hd _ ih =>
    rw [List.flatten_cons, ← List.append_assoc] at hr ⊢
    have hstep : step [r] ⟨0, .fetch d.fetch⟩ =
        (some (.ok d.value), [r.moved (front ++ bs).length]) := by
      have hget : [r][(Call.mk 0 (.fetch d.fetch)).reader]? = some r := rfl
      rw [step_eq hget hr trivial, hd.outcome]
      rfl
    have hnext : (r.moved (front ++ bs).length).cursor.Shows (front ++ bs ++ pieces.flatten)
        (front ++ bs).length := hr.moved (List.prefix_append _ _).length_le
    rw [List.map_cons, List.map_cons, run, hstep]
    dsimp only
    rw [ih hnext]
    rfl

/-- Values that fit their fields, written in order by a new writer, are read back in order by the
matching reads, which leave nothing over.  And after whatever orders, a writer stands in its
buffer or at its end; a further order never makes the buffer smaller, a write changes only bytes
from its old to its new position, a seek changes none, and an order that fails changes nothing. -/
theorem Writer.run_mirrored {data : List Datum} (h : ∀ d ∈ data, d.Fits) (orders : List Order) :
    (let written := ({} : Writer).run (data.map .write)
      let buffer := written.2.bytes.toArray
      let reading := Session.run (Session.start buffer 0 buffer.size)
        (data.map fun d => ⟨0, .fetch d.fetch⟩)
      written.1 = data.map (fun _ => none) ∧
        reading.1 = data.map (fun d => some (.ok d.value)) ∧
        reading.2.map (fun r => r.cursor.remaining) = [0]) ∧
      let w := (({} : Writer).run orders).2
      w.pos ≤ w.bytes.length ∧
        ∀ order, w.bytes.length ≤ (w.step order).2.bytes.length ∧
          (∀ d, order = .write d → w.pos ≤ (w.step order).2.pos ∧
            ∀ k, k < w.pos ∨ (w.step order).2.pos ≤ k →
              (w.step order).2.bytes[k]? = w.bytes[k]?) ∧
          (∀ offset, order = .seek offset → (w.step order).2.bytes = w.bytes) ∧
          ∀ e, (w.step order).1 = some e → (w.step order).2 = w := by
  constructor
  · obtain ⟨pieces, hpieces⟩ := exists_forall₂ fun d hd => Datum.exists_spelled (h d hd)
    have hwrites := @Writer.run_writes _ _ hpieces {} rfl
    have hshows := Cursor.shows_window (Int.le_refl 0) (Int.natCast_nonneg _)
      (Int.le_refl (pieces.flatten.toArray.size : Int))
    rw [Cursor.span_whole] at hshows
    have hreads := @Session.run_fetches _ _ hpieces ⟨_, none⟩ [] hshows
    intro written buffer reading
    have hbuffer : buffer = pieces.flatten.toArray := by
      show (({} : Writer).run (data.map .write)).2.bytes.toArray = _
      rw [hwrites]
      rfl
    have hreading : reading = (data.map (fun d => some (.ok d.value)),
        [⟨(Cursor.whole pieces.flatten.toArray).moved pieces.flatten.length, none⟩]) := by
      show Session.run (Session.start buffer 0 buffer.size) _ = _
      rw [hbuffer]
      exact hreads
    refine ⟨congrArg Prod.fst hwrites, congrArg Prod.fst hreading, ?_⟩
    rw [hreading]
    show [((pieces.flatten.toArray.size : Int) - (0 + (pieces.flatten.length : Int)))] = [0]
    rw [List.size_toArray, Int.zero_add, Int.sub_self]
  · intro w
    have hempty : Sound {} := Nat.le_refl 0
    have hw : w.Sound := run_sound hempty orders
    refine ⟨hw, fun order => ⟨(step_sound hw order).2, ?_, ?_, fun e he => step_of_fault he⟩⟩
    · rintro d rfl
      exact step_write hw d
    · rintro offset rfl
      exact step_seek w offset

/-- Fields of several kinds, one of them of an odd size; and orders of which one overwrites the end
of the buffer and goes past it, and the last fails. -/
theorem Writer.run_mirrored_mixed :
    let data : List Datum := [.u16 513, .i8 (-2), .single ⟨0x3FF8000000000000⟩, .ascii "ab" 4,
      .text [.char 'é'] 5, .zeros 3]
    let orders : List Order := [.write (.u32 7), .seek 2, .write (.bytes [1, 2, 3]), .seek 9]
    let buffer := (({} : Writer).run (data.map .write)).2.bytes.toArray
    let w := (({} : Writer).run orders).2
    (∀ d ∈ data, d.Fits) ∧
      (Session.run (Session.start buffer 0 buffer.size)
        (data.map fun d => ⟨0, .fetch d.fetch⟩)).1 =
          [some (.ok (.integer 513)), some (.ok (.integer (-2))),
            some (.ok (.number ⟨0x3FF8000000000000⟩)), some (.ok (.name "ab")),
            some (.ok (.text [.char 'é'])), some (.ok (.bytes [0, 0, 0]))] ∧
      w.pos ≤ w.bytes.length ∧ w.bytes.length ≤ (w.step (.seek 0)).2.bytes.length := by
  intro data orders buffer w
  have htext : Text.Fits 5 [.char 'é'] := ⟨fun n hn => by simp at hn, by decide, by decide⟩
  have hfits : ∀ d ∈ data, d.Fits := by
    intro d hd
    simp only [data, List.mem_cons, List.not_mem_nil, or_false] at hd
    rcases hd with rfl | rfl | rfl | rfl | rfl | rfl
    · exact ⟨by decide, by decide⟩
    · exact ⟨by decide, by decide⟩
    · exact ⟨0x3FC00000, by decide +kernel⟩
    · exact ⟨by decide, by decide⟩
    · exact ⟨by decide, htext⟩
    · exact (by decide : (0 : Int) ≤ 3)
  obtain ⟨⟨-, hreplies, -⟩, hpos, hsteps⟩ := run_mirrored hfits orders
  exact ⟨hfits, hreplies, hpos, (hsteps (.seek 0)).1⟩

end QuestArchive
