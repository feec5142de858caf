import Mathlib.Data.List.Forall2
import Mathlib.Data.List.Induction
import Mathlib.Order.MinMax

/-!
# Lists worked off step by step

A list is worked off without a fault just if each of its elements is.  The results stand in
the order of the elements, which `List.Forall₂` says.
-/

namespace QuestArchive

theorem bind_eq_ok_iff {α β ε : Type} {x : Except ε α} {f : α → Except ε β} {b : β} :
    x >>= f = .ok b ↔ ∃ a, x = .ok a ∧ f a = .ok b := by
  cases x with
  | error e =>
    constructor
    · intro h
      cases h
    · intro h
      obtain ⟨a, h, -⟩ := h
      cases h
  | ok a =>
    constructor
    · exact fun h => ⟨a, rfl, h⟩
    · intro h
      obtain ⟨a', ha, h⟩ := h
      cases ha
      exact h

theorem bind_eq_error_iff {α β ε : Type} {x : Except ε α} {f : α → Except ε β} {e : ε} :
    x >>= f = .error e ↔ x = .error e ∨ ∃ a, x = .ok a ∧ f a = .error e := by
  cases x with
  | error e' =>
    constructor
    · intro h
      cases h
      exact Or.inl rfl
    · intro h
      rcases h with h | ⟨a, h, -⟩
      all_goals cases h
      rfl
  | ok a =>
    constructor
    · exact fun h => Or.inr ⟨a, rfl, h⟩
    · intro h
      rcases h with h | ⟨a', ha, h⟩
      · cases h
      · cases ha
        exact h

theorem ok_bind {α β ε : Type} (a : α) (f : α → Except ε β) : (Except.ok a >>= f) = f a :=
  pure_bind a f

theorem exists_forall₂ {α β : Type} {R : α → β → Prop} {xs : List α} (h : ∀ x ∈ xs, ∃ y, R x y) :
    ∃ ys, List.Forall₂ R xs ys := by
  induction xs with
  | nil => exact ⟨[], .nil⟩
  | cons x xs ih =>
    obtain ⟨y, hy⟩ := h x List.mem_cons_self
    obtain ⟨ys, hys⟩ := ih fun x hx => h x (List.mem_cons_of_mem _ hx)
    exact ⟨y :: ys, .cons hy hys⟩

theorem exists_of_forall₂ {α β : Type} {R : α → β → Prop} {xs : List α} {ys : List β}
    (h : List.Forall₂ R xs ys) : ∀ x ∈ xs, ∃ y ∈ ys, R x y := by
  induction h with
  | nil => exact fun x hx => absurd hx List.not_mem_nil
  | @cons x y xs ys hr _ ih =>
    intro x' hx
    rcases List.mem_cons.1 hx with rfl | hx
    · exact ⟨y, List.mem_cons_self, hr⟩
    · obtain ⟨y', hy, hr'⟩ := ih x' hx
      exact ⟨y', List.mem_cons_of_mem _ hy, hr'⟩

theorem exists_split_of_forall₂ {α β : Type} {R : α → β → Prop} {before after : List α} {x : α}
    {ys : List β} (h : List.Forall₂ R (before ++ x :: after) ys) :
    ∃ front y back, ys = front ++ y :: back ∧ List.Forall₂ R before front ∧ R x y ∧
      List.Forall₂ R after back := by
  induction before generalizing ys with
  | nil =>
    obtain ⟨y, back, hy, hback, rfl⟩ := List.forall₂_cons_left_iff.1 h
    exact ⟨[], y, back, rfl, .nil, hy, hback⟩
  | cons z before ih =>
    obtain ⟨y, ys, hy, hys, rfl⟩ := List.forall₂_cons_left_iff.1 h
    obtain ⟨front, w, back, rfl, hfront, hw, hback⟩ := ih hys
    exact ⟨y :: front, w, back, rfl, .cons hy hfront, hw, hback⟩

/-- An element and what stands before it is the first one with nothing before it, or is found in
the rest. -/
theorem exists_split_cons_iff {α : Type} {P : List α → α → Prop} {x : α} {xs : List α} :
    (∃ before y after, x :: xs = before ++ y :: after ∧ P before y) ↔
      P [] x ∨ ∃ before y after, xs = before ++ y :: after ∧ P (x :: before) y := by
  constructor
  · rintro ⟨before, y, after, he, hp⟩
    cases before with
    | nil =>
      cases he
      exact Or.inl hp
    | cons z before =>
      cases he
      exact Or.inr ⟨before, y, after, rfl, hp⟩
  · rintro (hp | ⟨before, y, after, rfl, hp⟩)
    · exact ⟨[], x, xs, rfl, hp⟩
    · exact ⟨x :: before, y, after, rfl, hp⟩

theorem exists_between {α β γ : Type} {R : α → β → Prop} {S : β → γ → Prop} {T : γ → α → Prop}
    {xs : List α} {ys : List β} (h : List.Forall₂ R xs ys)
    (hb : ∀ x ∈ xs, ∀ y, R x y → ∃ z, S y z ∧ T z x) :
    ∃ zs, List.Forall₂ S ys zs ∧ List.Forall₂ T zs xs := by
  induction h with
  | nil => exact ⟨[], .nil, .nil⟩
  | cons hr _ ih =>
    obtain ⟨z, hs, ht⟩ := hb _ List.mem_cons_self _ hr
    obtain ⟨zs, hss, hts⟩ := ih fun x hx => hb x (List.mem_cons_of_mem _ hx)
    exact ⟨z :: zs, .cons hs hss, .cons ht hts⟩

/-- What relates the elements of two lists may use where they come from. -/
theorem forall₂_imp_mem {α β : Type} {R S : α → β → Prop} {xs : List α} {ys : List β}
    (h : List.Forall₂ R xs ys) (hi : ∀ x ∈ xs, ∀ y ∈ ys, R x y → S x y) :
    List.Forall₂ S xs ys := by
  induction h with
  | nil => exact .nil
  | cons hr _ ih =>
    exact .cons (hi _ List.mem_cons_self _ List.mem_cons_self hr) (ih fun x hx y hy =>
      hi x (List.mem_cons_of_mem _ hx) y (List.mem_cons_of_mem _ hy))

theorem map_eq_map_of_forall₂ {α β γ : Type} {f : α → γ} {g : β → γ} {xs : List α} {ys : List β}
    (h : List.Forall₂ (fun x y => f x = g y) xs ys) : xs.map f = ys.map g := by
  induction h with
  | nil => rfl
  | cons hr _ ih => rw [List.map_cons, List.map_cons, hr, ih]

/-- A list is worked off without a fault if each of its elements is. -/
theorem mapM_eq_ok_iff {α β ε : Type} {f : α → Except ε β} {xs : List α} {ys : List β} :
    xs.mapM f = .ok ys ↔ List.Forall₂ (fun x y => f x = .ok y) xs ys := by
  induction xs generalizing ys with
  | nil =>
    rw [List.forall₂_nil_left_iff]
    exact ⟨fun h => (Except.ok.inj h).symm, fun h => h ▸ rfl⟩
  | cons x xs ih =>
    rw [List.mapM_cons, List.forall₂_cons_left_iff]
    cases hx : f x with
    | error e =>
      constructor
      · intro h
        cases h
      · intro h
        obtain ⟨y, zs, hy, -⟩ := h
        cases hy
    | ok y =>
      show (xs.mapM f >>= fun zs => .ok (y :: zs)) = _ ↔ _
      cases hm : xs.mapM f with
      | error e =>
        constructor
        · intro h
          cases h
        · intro h
          obtain ⟨_, zs, _, hzs, _⟩ := h
          rw [← ih, hm] at hzs
          cases hzs
      | ok zs =>
        constructor
        · intro h
          cases h
          exact ⟨y, zs, rfl, ih.1 hm, rfl⟩
        · intro h
          obtain ⟨_, zs', hy, hzs, rfl⟩ := h
          cases hy
          rw [← ih, hm] at hzs
          cases hzs
          rfl

/-- Of two lists worked off side by side, an element of the second one is found again where the
results tell what they were made of. -/
theorem exists_mem_mapM_zip_iff {α β γ ε : Type} {f : α × β → Except ε γ} {P : γ → Prop}
    {xs : List α} {ys : List β} {zs : List γ} {y : β} (hlen : xs.length = ys.length)
    (h : (xs.zip ys).mapM f = .ok zs)
    (hf : ∀ x ∈ xs, ∀ y' ∈ ys, ∀ z, f (x, y') = .ok z → (P z ↔ y' = y)) :
    (∃ z ∈ zs, P z) ↔ y ∈ ys := by
  have hall := mapM_eq_ok_iff.1 h
  constructor
  · rintro ⟨z, hz, hp⟩
    obtain ⟨⟨x, y'⟩, hpair, hmade⟩ := exists_of_forall₂ hall.flip z hz
    obtain ⟨hx, hy⟩ := List.of_mem_zip hpair
    exact (hf x hx y' hy z hmade).1 hp ▸ hy
  · intro hy
    rw [← List.map_snd_zip hlen.ge] at hy
    obtain ⟨⟨x, y'⟩, hpair, rfl⟩ := List.mem_map.1 hy
    obtain ⟨z, hz, hmade⟩ := exists_of_forall₂ hall _ hpair
    obtain ⟨hx, hy⟩ := List.of_mem_zip hpair
    exact ⟨z, hz, (hf x hx y' hy z hmade).2 rfl⟩

theorem exists_mapM {α β ε : Type} {f : α → Except ε β} {xs : List α}
    (h : ∀ x ∈ xs, ∃ y, f x = .ok y) : ∃ ys, xs.mapM f = .ok ys := by
  obtain ⟨ys, hys⟩ := exists_forall₂ h
  exact ⟨ys, mapM_eq_ok_iff.2 hys⟩

/-- What goes wrong with a list goes wrong with one of its elements. -/
theorem exists_of_mapM_eq_error {α β ε : Type} {f : α → Except ε β} {e : ε} {xs : List α}
    (h : xs.mapM f = .error e) : ∃ x ∈ xs, f x = .error e := by
  induction xs with
  | nil => cases h
  | cons x xs ih =>
    rw [List.mapM_cons] at h
    rcases bind_eq_error_iff.1 h with hx | ⟨y, -, h⟩
    · exact ⟨x, List.mem_cons_self, hx⟩
    · rcases bind_eq_error_iff.1 h with hxs | ⟨ys, -, h⟩
      · obtain ⟨x', hm, hx'⟩ := ih hxs
        exact ⟨x', List.mem_cons_of_mem _ hm, hx'⟩
      · cases h

/-- If no element has any fault but one, that one is the fault of the list. -/
theorem mapM_eq_error {α β ε : Type} {f : α → Except ε β} {e : ε} {xs : List α}
    (h : ∀ x ∈ xs, (∃ y, f x = .ok y) ∨ f x = .error e) (hx : ∃ x ∈ xs, f x = .error e) :
    xs.mapM f = .error e := by
  induction xs with
  | nil =>
    obtain ⟨x, hx, -⟩ := hx
    exact absurd hx List.not_mem_nil
  | cons x xs ih =>
    rw [List.mapM_cons]
    rcases h x List.mem_cons_self with ⟨y, hy⟩ | he
    · obtain ⟨x', hm, he⟩ := hx
      have hm : x' ∈ xs := (List.mem_cons.1 hm).resolve_left fun heq => by
        rw [heq, hy] at he
        cases he
      rw [hy, ok_bind, ih (fun x hx => h x (List.mem_cons_of_mem _ hx)) ⟨x', hm, he⟩]
      rfl
    · rw [he]
      rfl

theorem foldl_max_le_iff {α : Type} [LinearOrder α] {xs : List α} {low bound : α} :
    xs.foldl max low ≤ bound ↔ low ≤ bound ∧ ∀ x ∈ xs, x ≤ bound := by
  induction xs generalizing low with
  | nil => simp
  | cons x xs ih => rw [List.foldl_cons, ih, max_le_iff, and_assoc, List.forall_mem_cons]

theorem le_foldl_max {α : Type} [LinearOrder α] {xs : List α} {low : α} :
    low ≤ xs.foldl max low ∧ ∀ x ∈ xs, x ≤ xs.foldl max low :=
  foldl_max_le_iff.1 (le_refl _)

theorem of_foldlM {α σ ε : Type} {f : σ → α → Except ε σ} {P : σ → Prop} {xs : List α} {s t : σ}
    (hs : P s) (hf : ∀ x ∈ xs, ∀ s t, P s → f s x = .ok t → P t) (h : xs.foldlM f s = .ok t) :
    P t := by
  induction xs generalizing s with
  | nil =>
    cases h
    exact hs
  | cons x xs ih =>
    rw [List.foldlM_cons] at h
    obtain ⟨u, hu, h⟩ := bind_eq_ok_iff.1 h
    exact ih (hf x List.mem_cons_self s u hs hu) (fun y hy => hf y (List.mem_cons_of_mem _ hy)) h

/-! ## Parts of one length -/

theorem length_flatten_of_forall {α : Type} {size : Nat} {pieces : List (List α)}
    (h : ∀ p ∈ pieces, p.length = size) : pieces.flatten.length = pieces.length * size := by
  rw [List.length_flatten, List.map_congr_left h, List.map_const', List.sum_replicate_nat]

section Parts

variable {α : Type} {f : Nat → List α} {width : Nat}

theorem length_flatMap_range (hf : ∀ n, (f n).length = width) (k : Nat) :
    ((List.range k).flatMap f).length = k * width := by
  rw [List.length_flatMap, List.map_congr_left fun n _ => hf n]
  simp

/-- In a list of parts of one length, a place is a place in one of the parts. -/
theorem getElem?_flatMap_range (hf : ∀ n, (f n).length = width) {k i : Nat} (h : i < k * width) :
    ((List.range k).flatMap f)[i]? = (f (i / width))[i % width]? := by
  induction k with
  | zero => omega
  | succ k ih =>
    have hlen := length_flatMap_range hf k
    rw [List.range_succ, List.flatMap_append, List.flatMap_singleton, List.getElem?_append, hlen]
    by_cases hlt : i < k * width
    · rw [if_pos hlt, ih hlt]
    · rw [Nat.succ_mul] at h
      have hdiv : i / width = k := Nat.div_eq_of_lt_le (by omega) (by rw [Nat.succ_mul]; exact h)
      have hmod : i % width = i - k * width := by rw [Nat.mod_eq_sub_div_mul, hdiv]
      rw [if_neg hlt, hdiv, hmod]

end Parts

/-! ## Lists without repeats -/

/-- Without repeats, the elements stand in the order in which they come up first. -/
theorem pairwise_idxOf_eraseDups {α : Type} [DecidableEq α] (xs : List α) :
    xs.eraseDups.Pairwise fun a b => xs.idxOf a < xs.idxOf b := by
  induction xs using List.reverseRecOn with
  | nil => exact .nil
  | append_singleton xs x ih =>
    have hold : ∀ a ∈ xs.eraseDups, (xs ++ [x]).idxOf a = xs.idxOf a :=
      fun a ha => List.idxOf_append_of_mem (List.mem_eraseDups.1 ha)
    have hkept : xs.eraseDups.Pairwise fun a b => (xs ++ [x]).idxOf a < (xs ++ [x]).idxOf b :=
      ih.imp_of_mem fun {a b} ha hb hlt => by rw [hold a ha, hold b hb]; exact hlt
    rw [List.eraseDups_append]
    by_cases hx : x ∈ xs
    · simpa [List.removeAll, hx] using hkept
    · have hnew : ∀ a ∈ xs.eraseDups, (xs ++ [x]).idxOf a < (xs ++ [x]).idxOf x := by
        intro a ha
        have hlt := List.idxOf_lt_length_iff.2 (List.mem_eraseDups.1 ha)
        rw [hold a ha, List.idxOf_append_of_notMem hx]
        omega
      have hone : ([x].removeAll xs).eraseDups = [x] := by
        simp [List.removeAll, List.eraseDups_cons, hx]
      rw [hone, List.pairwise_append]
      exact ⟨hkept, List.pairwise_singleton _ _, by simpa using hnew⟩

theorem nodup_eraseDups {α : Type} [DecidableEq α] (xs : List α) : xs.eraseDups.Nodup :=
  (pairwise_idxOf_eraseDups xs).imp fun hlt => ne_of_apply_ne xs.idxOf (Nat.ne_of_lt hlt)

theorem eq_of_perm_of_length_le_one {α : Type} {xs ys : List α} (hp : xs.Perm ys)
    (h : xs.length ≤ 1) : xs = ys := by
  match xs, h with
  | [], _ => exact hp.nil_eq
  | [x], _ => exact (List.perm_singleton.1 hp.symm).symm

theorem eraseDups_eq_self {α : Type} [DecidableEq α] {xs : List α} (h : xs.Nodup) :
    xs.eraseDups = xs := by
  induction xs with
  | nil => rfl
  | cons x xs ih =>
    rw [List.nodup_cons] at h
    rw [List.eraseDups_cons, List.filter_eq_self.2, ih h.2]
    intro y hy
    rw [Bool.not_eq_true', beq_eq_false_iff_ne]
    exact fun he => h.1 (he ▸ hy)

end QuestArchive
