import Mathlib.Algebra.GroupWithZero.Nat
import Mathlib.Data.List.Induction
import QuestArchive.Proofs.Prs.Repeats

/-!
# What tokens stand for

A copy repeats the bytes in front of it, over and over where it is longer than its distance.
`expansion` says this in closed form, without regard to how tokens are stored or read.  Tokens
that have a stored form, chosen in whatever way, are decompressed to their expansion if every
copy starts inside the output.  Otherwise the first one that does not is what fails.
-/

namespace QuestArchive
namespace Prs

namespace Token

def distance : Token → Nat
  | literal _ => 0
  | short distance _ | long distance _ => distance

def block (out : Bytes) : Token → Bytes
  | literal b => [b]
  | short distance length | long distance length =>
    (List.range length).map fun k => out.getD (out.length - distance + k % distance) 0

theorem length_block (out : Bytes) (t : Token) : (t.block out).length = t.extent := by
  cases t <;> simp [block, extent]

end Token

/-- What tokens stand for, each behind the output of those before it. -/
def expansion (ts : List Token) : Bytes := ts.foldl (fun out t => out ++ t.block out) []

def produced (ts : List Token) : Nat := (ts.map Token.extent).sum

/-- No copy starts before the output does. -/
def Reaching (ts : List Token) : Prop :=
  ∀ before t after, ts = before ++ t :: after → t.distance ≤ produced before

instance : DecidablePred Token.Storable
  | .literal _ => inferInstanceAs (Decidable True)
  | .short distance length =>
    inferInstanceAs (Decidable ((1 ≤ distance ∧ distance ≤ 256) ∧ 2 ≤ length ∧ length ≤ 5))
  | .long distance length => inferInstanceAs (Decidable
      ((1 ≤ distance ∧ distance ≤ 8192 ∧ 3 ≤ length ∧ length ≤ 9) ∨
        (1 ≤ distance ∧ distance ≤ 8191 ∧ 10 ≤ length ∧ length ≤ 256)))

instance : DecidablePred Reaching := fun ts =>
  decidable_of_iff (∀ n (h : n < ts.length), ts[n].distance ≤ produced (ts.take n)) <| by
    constructor
    · rintro h before t after rfl
      simpa using h before.length (by simp)
    · intro h n hn
      refine h _ _ (ts.drop (n + 1)) ?_
      rw [← List.drop_eq_getElem_cons, List.take_append_drop]

theorem expansion_concat (ts : List Token) (t : Token) :
    expansion (ts ++ [t]) = expansion ts ++ t.block (expansion ts) := by
  unfold expansion
  rw [List.foldl_append]
  rfl

theorem produced_concat (ts : List Token) (t : Token) :
    produced (ts ++ [t]) = produced ts + t.extent := by
  simp [produced]

theorem length_expansion (ts : List Token) : (expansion ts).length = produced ts := by
  induction ts using List.reverseRecOn with
  | nil => rfl
  | append_singleton ts t ih =>
    rw [expansion_concat, List.length_append, ih, Token.length_block, produced_concat]

theorem reaching_concat {ts : List Token} {t : Token} :
    Reaching (ts ++ [t]) ↔ Reaching ts ∧ t.distance ≤ produced ts := by
  constructor
  · intro h
    refine ⟨fun before t' after he => h before t' (after ++ [t]) ?_, h ts t [] rfl⟩
    rw [he, List.append_assoc, List.cons_append]
  · rintro ⟨hts, ht⟩ before t' after he
    rcases List.eq_nil_or_concat after with rfl | ⟨after, t'', rfl⟩
    · obtain ⟨rfl, hlast⟩ := List.append_inj' he rfl
      obtain rfl := (List.cons.inj hlast).1
      exact ht
    · rw [List.concat_eq_append, ← List.cons_append, ← List.append_assoc] at he
      exact hts before t' after (List.append_inj' he rfl).1

theorem exists_of_not_reaching {ts : List Token} (h : ¬Reaching ts) :
    ∃ before t after, ts = before ++ t :: after ∧ Reaching before ∧
      produced before < t.distance := by
  induction ts using List.reverseRecOn with
  | nil =>
    refine absurd (fun before t after he => ?_) h
    cases List.append_ne_nil_of_right_ne_nil before (List.cons_ne_nil t after) he.symm
  | append_singleton ts t ih =>
    by_cases hts : Reaching ts
    · have ht : ¬t.distance ≤ produced ts := fun ht => h (reaching_concat.2 ⟨hts, ht⟩)
      exact ⟨ts, t, [], rfl, hts, Nat.lt_of_not_le ht⟩
    · obtain ⟨before, t', after, rfl, hbefore, hlt⟩ := ih hts
      exact ⟨before, t', after ++ [t], by simp, hbefore, hlt⟩

/-! ## Copies -/

/-- The last byte of a copy stands `distance` behind the byte that it repeats, which may be one
of the copy. -/
theorem copy_succ (out : Array UInt8) (distance length : Nat) :
    copy out distance (length + 1) = (copy out distance length).push
      ((copy out distance length).getD ((copy out distance length).size - distance) 0) := by
  induction length generalizing out with
  | zero => rfl
  | succ length ih => exact ih _

theorem toList_copy {out : Array UInt8} {distance : Nat} (h0 : 1 ≤ distance)
    (h : distance ≤ out.size) (length : Nat) :
    (copy out distance length).toList = out.toList ++
      (List.range length).map fun k => out.toList.getD (out.size - distance + k % distance) 0 := by
  induction length with
  | zero => simp [copy]
  | succ length ih =>
    have hsize : (copy out distance length).size = out.size + length := by
      rw [← Array.length_toList, ih]
      simp
    have hbyte : (copy out distance length).getD ((copy out distance length).size - distance) 0 =
        out.toList.getD (out.size - distance + length % distance) 0 := by
      rw [hsize, Array.getD_eq_getD_getElem?, ← Array.getElem?_toList, ih]
      by_cases hlt : length < distance
      · rw [List.getElem?_append_left (by simp; omega), Nat.mod_eq_of_lt hlt]
        have he : out.size + length - distance = out.size - distance + length := by omega
        rw [he, List.getD_eq_getElem?_getD]
      · -- the byte repeated is one of the copy, a whole turn before
        have hback : (length - distance) % distance = length % distance :=
          (Nat.mod_eq_sub_mod (Nat.le_of_not_lt hlt)).symm
        rw [List.getElem?_append_right (by simp; omega)]
        have he : out.size + length - distance - out.toList.length = length - distance := by
          rw [Array.length_toList]
          omega
        rw [he, List.getElem?_map, List.getElem?_range (by omega)]
        simp [hback]
    rw [copy_succ, Array.toList_push, hbyte, ih, List.range_succ, List.map_append,
      List.append_assoc]
    rfl

theorem extend_eq_ok {out : Bytes} {t : Token} (hs : t.Storable) (h : t.distance ≤ out.length) :
    t.extend out.toArray = .ok (out ++ t.block out).toArray := by
  have copied {distance length : Nat} (h0 : 1 ≤ distance) (h : distance ≤ out.length) :
      (if distance ≤ out.toArray.size then .ok (copy out.toArray distance length)
        else .error (.copyBeforeStart distance out.toArray.size) : Except Fault (Array UInt8)) =
        .ok (out ++ Token.block out (.long distance length)).toArray := by
    rw [if_pos (by simpa using h)]
    refine congrArg Except.ok (Array.toList_inj.1 ?_)
    rw [toList_copy h0 (by simpa using h)]
    simp [Token.block]
  cases t with
  | literal b =>
    show Except.ok (out.toArray.push b) = _
    rw [List.push_toArray]
    rfl
  | short distance length => exact copied hs.1.1 h
  | long distance length =>
    have h0 : 1 ≤ distance := hs.elim (·.1) (·.1)
    exact copied h0 h

theorem extend_eq_error {out : Bytes} {t : Token} (h : out.length < t.distance) :
    t.extend out.toArray = .error (.copyBeforeStart t.distance out.length) := by
  cases t with
  | literal b => cases h
  | short distance length | long distance length =>
    have hfar : out.toArray.size < distance := h
    exact if_neg (Nat.not_le.2 hfar)

/-! ## Streams -/

theorem expand_append (out : Array UInt8) (ts more : List Token) :
    expand out (ts ++ more) = expand out ts >>= fun out => expand out more :=
  List.foldlM_append

theorem expand_singleton (out : Array UInt8) (t : Token) : expand out [t] = t.extend out :=
  bind_pure (t.extend out)

theorem expand_of_reaching {ts : List Token} (hs : ∀ t ∈ ts, t.Storable) (h : Reaching ts) :
    expand #[] ts = .ok (expansion ts).toArray := by
  induction ts using List.reverseRecOn with
  | nil => rfl
  | append_singleton ts t ih =>
    rw [List.forall_mem_append, List.forall_mem_singleton] at hs
    obtain ⟨hts, ht⟩ := reaching_concat.1 h
    rw [← length_expansion] at ht
    rw [expand_append, ih hs.1 hts]
    show expand (expansion ts).toArray [t] = _
    rw [expand_singleton, extend_eq_ok hs.2 ht, expansion_concat]

/-- Tokens with a stored form are decompressed to what they stand for, if no copy starts before
the output does.  If one does, the first such copy is the fault. -/
theorem decompress_expands {ts : List Token} (hs : ∀ t ∈ ts, t.Storable) :
    (Reaching ts → decompress (encode ts) = .ok (expansion ts)) ∧
      (¬Reaching ts → ∃ before t after, ts = before ++ t :: after ∧ Reaching before ∧
        produced before < t.distance ∧
        decompress (encode ts) = .error (.copyBeforeStart t.distance (produced before))) := by
  obtain ⟨s, hspells, -⟩ := spells_encode hs []
  rw [List.append_nil] at hspells
  rw [decompress_of_spells hspells]
  constructor
  · intro h
    rw [expand_of_reaching hs h]
    rfl
  · intro h
    obtain ⟨before, t, after, rfl, hbefore, hlt⟩ := exists_of_not_reaching h
    refine ⟨before, t, after, rfl, hbefore, hlt, ?_⟩
    have hb : ∀ t ∈ before, t.Storable := fun t ht => hs t (List.mem_append_left _ ht)
    have hfault : expand (expansion before).toArray (t :: after) =
        t.extend (expansion before).toArray >>= fun out => expand out after := rfl
    rw [expand_append, expand_of_reaching hb hbefore]
    show (expand (expansion before).toArray (t :: after)).map Array.toList = _
    rw [hfault, extend_eq_error (by rwa [length_expansion]), length_expansion]
    rfl

example : decompress (encode [.literal 7, .short 2 3]) = .error (.copyBeforeStart 2 1) := by cbv

/-- Copies over themselves, and copies from as far as either form of them can reach. -/
def distant : List Token :=
  [.literal 7, .literal 8] ++ List.replicate 32 (.long 2 256) ++
    [.long 8192 9, .long 8191 10, .short 256 5]

theorem decompress_expands_distant : (∀ t ∈ distant, t.Storable) ∧ Reaching distant ∧
    decompress (encode distant) = .ok (expansion distant) := by
  have hs : ∀ t ∈ distant, t.Storable := by decide +kernel
  have hr : Reaching distant := by decide +kernel
  exact ⟨hs, hr, (decompress_expands hs).1 hr⟩

end Prs
end QuestArchive
