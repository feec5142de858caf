import QuestArchive.Proofs.Text.Quoted
import QuestArchive.Script.Scan

/-!
# Pieces of a line

A value is written as an atom: a literal, or runes that neither separate nor quote.  A scan
passes over an atom without a cut and stands outside of literals behind it, so that values
joined by commas are cut into just these values.
-/

namespace QuestArchive

/-! ## Blanks at the ends -/

namespace Text

def Starts (t : Text) : Prop := ∃ r rest, t = r :: rest ∧ r.isBlank = false

structure Trimmed (t : Text) : Prop where
  first : Starts t
  last : Starts t.reverse

theorem Starts.append {t : Text} (h : Starts t) (u : Text) : Starts (t ++ u) := by
  obtain ⟨r, rest, rfl, hr⟩ := h
  exact ⟨r, rest ++ u, rfl, hr⟩

theorem Starts.dropWhile {t : Text} (h : Starts t) : t.dropWhile Rune.isBlank = t := by
  obtain ⟨r, rest, rfl, hr⟩ := h
  rw [List.dropWhile_cons_of_neg (by rw [hr]; decide)]

theorem Trimmed.append {t u : Text} (ht : Starts t) (hu : Starts u.reverse) : Trimmed (t ++ u) := by
  refine ⟨ht.append u, ?_⟩
  rw [List.reverse_append]
  exact hu.append _

theorem Trimmed.ne_nil {t : Text} (h : Trimmed t) : t ≠ [] := by
  obtain ⟨r, rest, rfl, -⟩ := h.first
  exact List.cons_ne_nil _ _

theorem trim_blanks {blanks : Text} (hb : ∀ r ∈ blanks, r.isBlank = true) (t : Text) :
    trim (blanks ++ t) = trim t := by
  rw [trim, trimLeft, List.dropWhile_append_of_pos hb]
  rfl

theorem trim_between {blanks t tail : Text} (h : Trimmed t) (hb : ∀ r ∈ blanks, r.isBlank = true)
    (ht : ∀ r ∈ tail, r.isBlank = true) : trim (blanks ++ (t ++ tail)) = t := by
  rw [trim_blanks hb, trim, trimLeft, (h.first.append tail).dropWhile, trimRight,
    List.reverse_append,
    List.dropWhile_append_of_pos fun r hr => ht r (List.mem_reverse.1 hr), h.last.dropWhile,
    List.reverse_reverse]

theorem trim_append {t blanks : Text} (h : Trimmed t) (hb : ∀ r ∈ blanks, r.isBlank = true) :
    trim (blanks ++ t) = t := by
  have ht := @trim_between blanks t [] h hb fun r hr => absurd hr List.not_mem_nil
  rwa [List.append_nil] at ht

theorem trim_self {t : Text} (h : Trimmed t) : trim t = t :=
  @trim_append t [] h fun _ hr => absurd hr List.not_mem_nil

theorem trimmed_of_forall {t : Text} (hne : t ≠ []) (h : ∀ r ∈ t, r.isBlank = false) :
    Trimmed t := by
  constructor
  · obtain ⟨r, rest, rfl⟩ := List.exists_cons_of_ne_nil hne
    exact ⟨r, rest, rfl, h r List.mem_cons_self⟩
  · obtain ⟨r, rest, hr⟩ := List.exists_cons_of_ne_nil (mt List.reverse_eq_nil_iff.1 hne)
    refine ⟨r, rest, hr, h r (List.mem_reverse.1 ?_)⟩
    rw [hr]
    exact List.mem_cons_self

theorem trimmed_encode (t : Text) : Trimmed (Quoted.encode t) := by
  refine Trimmed.append (t := [.char '"']) ⟨.char '"', [], rfl, by decide⟩ ?_
  show Starts (t.flatMap Quoted.encodeRune ++ [Rune.char '"']).reverse
  rw [List.reverse_append]
  exact ⟨.char '"', _, rfl, by decide⟩

theorem trimmed_join {ts : List Text} {separator : Text} (hne : ts ≠ [])
    (h : ∀ t ∈ ts, Trimmed t) : Trimmed (join separator ts) := by
  induction ts with
  | nil => exact absurd rfl hne
  | cons t ts ih =>
    have ht := h t List.mem_cons_self
    cases ts with
    | nil => exact ht
    | cons u ts =>
      have hu := ih (List.cons_ne_nil _ _) fun v hv => h v (List.mem_cons_of_mem t hv)
      exact Trimmed.append (ht.first.append separator) hu.last

theorem mem_join {r : Rune} {separator : Text} {ts : List Text}
    (h : r ∈ join separator ts) : r ∈ separator ∨ ∃ t ∈ ts, r ∈ t := by
  induction ts with
  | nil => cases h
  | cons t ts ih =>
    cases ts with
    | nil => exact Or.inr ⟨t, List.mem_cons_self, h⟩
    | cons u ts =>
      rcases List.mem_append.1 h with h | h
      · rcases List.mem_append.1 h with h | h
        · exact Or.inr ⟨t, List.mem_cons_self, h⟩
        · exact Or.inl h
      · rcases ih h with h | ⟨v, hv, hr⟩
        · exact Or.inl h
        · exact Or.inr ⟨v, List.mem_cons_of_mem t hv, hr⟩

/-! ## Words -/

theorem wordsFrom_append {t : Text} (h : ∀ r ∈ t, r.isBlank = false) (word rest : Text) :
    wordsFrom word (t ++ rest) = wordsFrom (t.reverse ++ word) rest := by
  induction t generalizing word with
  | nil => rfl
  | cons r t ih =>
    rw [List.cons_append, wordsFrom, if_neg (by rw [h r List.mem_cons_self]; decide),
      ih fun s hs => h s (List.mem_cons_of_mem r hs), List.reverse_cons, List.append_assoc]
    rfl

theorem words_join {ts : List Text} (hne : ∀ t ∈ ts, t ≠ [])
    (h : ∀ t ∈ ts, ∀ r ∈ t, r.isBlank = false) : words (join [.char ' '] ts) = ts := by
  induction ts with
  | nil => rfl
  | cons t ts ih =>
    have ht := h t List.mem_cons_self
    have hrev : t.reverse.isEmpty = false := by
      rw [List.isEmpty_reverse, List.isEmpty_eq_false_iff]
      exact hne t List.mem_cons_self
    cases ts with
    | nil =>
      have hw := wordsFrom_append ht [] []
      rw [List.append_nil, List.append_nil] at hw
      show wordsFrom [] t = [t]
      rw [hw, wordsFrom, hrev, if_neg Bool.false_ne_true, List.reverse_reverse]
    | cons u ts =>
      have hw := wordsFrom_append ht [] (.char ' ' :: join [.char ' '] (u :: ts))
      rw [List.append_nil] at hw
      have ih' := ih (fun v hv => hne v (List.mem_cons_of_mem t hv))
        fun v hv => h v (List.mem_cons_of_mem t hv)
      show wordsFrom [] (t ++ [.char ' '] ++ join [.char ' '] (u :: ts)) = _
      rw [List.append_assoc, List.singleton_append, hw, wordsFrom, if_pos (by decide), hrev,
        if_neg Bool.false_ne_true, List.reverse_reverse]
      exact congrArg (t :: ·) ih'

end Text

/-! ## Scans -/

/-- A rune that neither separates nor quotes. -/
structure Rune.Bare (r : Rune) : Prop where
  blank : r.isBlank = false
  quote : r ≠ .char '"'
  comma : r ≠ .char ','
  slash : r ≠ .char '/'

namespace Script

/-- A scan goes from one place to another over a text, and cuts nothing there. -/
inductive Passes : Quoting → Text → Quoting → Prop where
  | nil (q : Quoting) : Passes q [] q
  | cons {q q' : Quoting} {r : Rune} {t : Text}
      (keep : q = .outside → r ≠ .char ',' ∧ r ≠ .char '/') (rest : Passes (q.next r) t q') :
      Passes q (r :: t) q'

/-- A scan goes from one place to another over a text, and cuts nothing there unless a slash
stands right behind it. -/
inductive Crosses : Quoting → Text → Quoting → Prop where
  | nil (q : Quoting) : Crosses q [] q
  | cons {q q' : Quoting} {r : Rune} {t : Text} (comma : q = .outside → r ≠ .char ',')
      (slash : q = .outside → r = .char '/' → t.head? ≠ some (.char '/'))
      (rest : Crosses (q.next r) t q') : Crosses q (r :: t) q'

inductive Atom : Text → Prop where
  | bare {t : Text} (ne_nil : t ≠ []) (bare : ∀ r ∈ t, r.Bare) : Atom t
  | quoted (t : Text) : Atom (Text.Quoted.encode t)

theorem Passes.append {q q' q'' : Quoting} {t u : Text} (ht : Passes q t q')
    (hu : Passes q' u q'') : Passes q (t ++ u) q'' := by
  induction ht with
  | nil => exact hu
  | cons keep _ ih => exact .cons keep (ih hu)

theorem Passes.crosses {q q' : Quoting} {t : Text} (h : Passes q t q') : Crosses q t q' := by
  induction h with
  | nil q => exact .nil q
  | cons keep _ ih => exact .cons (fun hq => (keep hq).1) (fun hq hr => absurd hr (keep hq).2) ih

theorem head?_append_ne {r : Rune} {t u : Text} (ht : t.head? ≠ some r) (hu : u.head? ≠ some r) :
    (t ++ u).head? ≠ some r := by
  cases t with
  | nil => exact hu
  | cons => exact ht

theorem Crosses.append {q q' q'' : Quoting} {t u : Text} (ht : Crosses q t q')
    (hu : Crosses q' u q'') (hhead : u.head? ≠ some (.char '/')) : Crosses q (t ++ u) q'' := by
  induction ht with
  | nil => exact hu
  | cons comma slash _ ih =>
    exact .cons comma (fun hq hr => head?_append_ne (slash hq hr) hhead) (ih hu)

theorem passes_inside {r : Rune} {t : Text} (hq : r ≠ .char '"') (hb : r ≠ .char '\\')
    (h : Passes .inside t .inside) : Passes .inside (r :: t) .inside := by
  refine .cons (fun h => Quoting.noConfusion h) ?_
  rw [Quoting.next, if_neg hb, if_neg hq]
  exact h

theorem passes_escaped {r : Rune} {t : Text} (h : Passes .inside t .inside) :
    Passes .inside (.char '\\' :: r :: t) .inside :=
  .cons (fun h => Quoting.noConfusion h) (.cons (fun h => Quoting.noConfusion h) h)

theorem passes_encodeRune (r : Rune) : Passes .inside (Text.Quoted.encodeRune r) .inside := by
  rcases Text.Quoted.encodeRune_cases r with ⟨e, hr⟩ | hr | hr
  · rw [hr.spelled]
    exact passes_escaped (.nil _)
  · have digit : ∀ k < 16, Rune.char (Nat.digitChar k) ≠ .char '"' ∧
        Rune.char (Nat.digitChar k) ≠ .char '\\' := by decide
    have hlow := hr.low
    obtain ⟨h1, h2⟩ := digit (r.code / 16) (by omega)
    obtain ⟨h3, h4⟩ := digit (r.code % 16) (by omega)
    rw [hr.spelled]
    refine passes_escaped ?_
    refine passes_inside (by decide) (by decide) (passes_inside (by decide) (by decide) ?_)
    exact passes_inside h1 h2 (passes_inside h3 h4 (.nil _))
  · rw [hr.spelled]
    exact passes_inside hr.quote hr.backslash (.nil _)

theorem passes_flatMap (t : Text) :
    Passes .inside (t.flatMap Text.Quoted.encodeRune) .inside := by
  induction t with
  | nil => exact .nil _
  | cons r t ih => exact (passes_encodeRune r).append ih

theorem passes_encode (t : Text) : Passes .outside (Text.Quoted.encode t) .outside := by
  refine .cons (fun _ => by decide) ?_
  exact (passes_flatMap t).append (.cons (fun h => Quoting.noConfusion h) (.nil _))

theorem passes_of_forall {t : Text} (h : ∀ r ∈ t, r ≠ .char '"' ∧ r ≠ .char ',' ∧ r ≠ .char '/') :
    Passes .outside t .outside := by
  induction t with
  | nil => exact .nil _
  | cons r t ih =>
    obtain ⟨hq, hc, hs⟩ := h r List.mem_cons_self
    refine .cons (fun _ => ⟨hc, hs⟩) ?_
    rw [Quoting.next, if_neg hq]
    exact ih fun s hs => h s (List.mem_cons_of_mem r hs)

theorem passes_bare {t : Text} (h : ∀ r ∈ t, r.Bare) : Passes .outside t .outside :=
  passes_of_forall fun r hr => ⟨(h r hr).quote, (h r hr).comma, (h r hr).slash⟩

theorem ne_of_isBlank {r : Rune} (h : r.isBlank = true) :
    r ≠ .char '"' ∧ r ≠ .char ',' ∧ r ≠ .char '/' := by
  refine ⟨?_, ?_, ?_⟩ <;>
  · rintro rfl
    exact absurd h (by decide)

theorem passes_blanks {blanks : Text} (hb : ∀ r ∈ blanks, r.isBlank = true) :
    Passes .outside blanks .outside :=
  passes_of_forall fun r hr => ne_of_isBlank (hb r hr)

theorem Atom.passes {t : Text} (h : Atom t) : Passes .outside t .outside := by
  cases h with
  | bare _ hb => exact passes_bare hb
  | quoted u => exact passes_encode u

theorem Atom.trimmed {t : Text} (h : Atom t) : t.Trimmed := by
  cases h with
  | bare hne hb => exact Text.trimmed_of_forall hne fun r hr => (hb r hr).blank
  | quoted u => exact Text.trimmed_encode u

/-! ## Comments -/

theorem Passes.beforeComment {q q' : Quoting} {t : Text} (h : Passes q t q') (rest : Text) :
    beforeComment q (t ++ rest) = t ++ beforeComment q' rest := by
  induction h with
  | nil => rfl
  | cons keep _ ih =>
    rw [List.cons_append, Script.beforeComment, if_neg fun hc => (keep hc.1).2 hc.2.1, ih]
    rfl

theorem Crosses.beforeComment {q q' : Quoting} {t rest : Text} (h : Crosses q t q')
    (hrest : rest.head? ≠ some (.char '/')) :
    beforeComment q (t ++ rest) = t ++ beforeComment q' rest := by
  induction h with
  | nil => rfl
  | cons _ slash _ ih =>
    rw [List.cons_append, Script.beforeComment,
      if_neg fun hc => head?_append_ne (slash hc.1 hc.2.1) hrest hc.2.2, ih]
    rfl

theorem Passes.beforeComment_self {q q' : Quoting} {t : Text} (h : Passes q t q') :
    Script.beforeComment q t = t := by
  have hb := h.beforeComment []
  rwa [List.append_nil, Script.beforeComment, List.append_nil] at hb

theorem join_cons {separator : Text} (t : Text) {ts : List Text} (h : ts ≠ []) :
    Text.join separator (t :: ts) = t ++ separator ++ Text.join separator ts := by
  obtain ⟨u, us, rfl⟩ := List.exists_cons_of_ne_nil h
  rfl

/-- A scan over atoms and a last part cuts no comment off, wherever it stands behind them. -/
theorem beforeComment_join {ts : List Text} (h : ∀ t ∈ ts, Atom t) {u : Text} {q : Quoting}
    (hu : Passes .outside u q) :
    beforeComment .outside (Text.join (Text.ofString ", ") (ts ++ [u])) =
      Text.join (Text.ofString ", ") (ts ++ [u]) := by
  induction ts with
  | nil => exact hu.beforeComment_self
  | cons t ts ih =>
    obtain ⟨ht, hts⟩ := List.forall_mem_cons.1 h
    have hne : ts ++ [u] ≠ [] := List.append_ne_nil_of_right_ne_nil ts (List.cons_ne_nil u [])
    rw [List.cons_append, join_cons t hne, List.append_assoc, ht.passes.beforeComment]
    exact congrArg (fun x => t ++ .char ',' :: .char ' ' :: x) (ih hts)

/-! ## Commas -/

theorem Crosses.commaParts {q q' : Quoting} {t rest part : Text} {parts : List Text}
    (h : Crosses q t q') (hr : commaParts q' rest = part :: parts) :
    commaParts q (t ++ rest) = (t ++ part) :: parts := by
  induction h with
  | nil => exact hr
  | cons comma _ _ ih =>
    rw [List.cons_append, Script.commaParts, if_neg fun hc => comma hc.1 hc.2, ih hr]
    rfl

theorem commaParts_ne_nil (q : Quoting) (t : Text) : commaParts q t ≠ [] := by
  induction t generalizing q with
  | nil => exact List.cons_ne_nil _ _
  | cons r t ih =>
    rw [commaParts]
    split
    · exact List.cons_ne_nil _ _
    · split <;> exact List.cons_ne_nil _ _

theorem commaParts_comma {t : Text} (h : Crosses .outside t .outside) (rest : Text) :
    commaParts .outside (t ++ .char ',' :: rest) = t :: commaParts .outside rest := by
  have hcomma : commaParts .outside (.char ',' :: rest) = [] :: commaParts .outside rest := by
    rw [commaParts, if_pos ⟨rfl, rfl⟩]
  have hparts := h.commaParts hcomma
  rwa [List.append_nil] at hparts

theorem commaParts_self {q : Quoting} {t : Text} (h : Crosses .outside t q) :
    commaParts .outside t = [t] := by
  have hparts := @Crosses.commaParts _ _ t [] [] [] h rfl
  rwa [List.append_nil] at hparts

/-- Blanks in front go to the first part, and are trimmed there. -/
theorem map_trim_commaParts_blanks {blanks : Text} (hb : ∀ r ∈ blanks, r.isBlank = true)
    (t : Text) :
    (commaParts .outside (blanks ++ t)).map Text.trim =
      (commaParts .outside t).map Text.trim := by
  obtain ⟨part, parts, hparts⟩ := List.exists_cons_of_ne_nil (commaParts_ne_nil .outside t)
  rw [(passes_blanks hb).crosses.commaParts hparts, hparts, List.map_cons, List.map_cons,
    Text.trim_blanks hb]

theorem map_trim_commaParts_join {ts : List Text} (h : ∀ t ∈ ts, Atom t) {u : Text} {q : Quoting}
    (hu : Passes .outside u q) (ht : u.Trimmed) :
    (commaParts .outside (Text.join (Text.ofString ", ") (ts ++ [u]))).map Text.trim =
      ts ++ [u] := by
  induction ts with
  | nil =>
    show (commaParts .outside u).map Text.trim = [u]
    rw [commaParts_self hu.crosses, List.map_singleton, Text.trim_self ht]
  | cons t ts ih =>
    obtain ⟨hatom, hts⟩ := List.forall_mem_cons.1 h
    have hblank : ∀ r ∈ [Rune.char ' '], r.isBlank = true := by decide
    rw [List.cons_append,
      join_cons t (List.append_ne_nil_of_right_ne_nil ts (List.cons_ne_nil u [])),
      List.append_assoc]
    show (commaParts .outside (t ++ .char ',' :: .char ' ' :: _)).map Text.trim = _
    rw [commaParts_comma hatom.passes.crosses, List.map_cons, Text.trim_self hatom.trimmed]
    exact congrArg (t :: ·) ((map_trim_commaParts_blanks hblank _).trans (ih hts))

/-- Atoms and a last part joined by commas are cut into just these. -/
theorem splitArgs_join {ts : List Text} (h : ∀ t ∈ ts, Atom t) {u : Text} {q : Quoting}
    (hu : Passes .outside u q) (ht : u.Trimmed) :
    splitArgs (Text.join (Text.ofString ", ") (ts ++ [u])) = ts ++ [u] := by
  unfold splitArgs
  simp only
  rw [map_trim_commaParts_join h hu ht, if_neg]
  intro hnil
  cases ts with
  | nil => exact ht.ne_nil (List.cons.inj hnil).1
  | cons t ts => exact (h t List.mem_cons_self).trimmed.ne_nil (List.cons.inj hnil).1

end Script
end QuestArchive
