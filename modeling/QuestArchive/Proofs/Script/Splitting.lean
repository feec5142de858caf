import Mathlib.Data.List.TakeWhile
import QuestArchive.Proofs.Lists
import QuestArchive.Proofs.Script.Scanning

/-!
# Arguments between commas

The scans of a line know of a literal no more than its quotes and backslashes; its reader
knows the escapes.  They agree on the quote that closes it: the digits of a unit are neither,
and behind any other backslash both take one rune.  So a comment and a comma are found where
no literal stands, and a line is cut into the arguments it was joined from.
-/

namespace QuestArchive

/-! ## The end of a literal -/

namespace Text
namespace Quoted

variable {t rest value : Text}

/-- A text that comes to the quote that closes a literal, and what stands behind the quote. -/
inductive Closes (rest : Text) : Text → Prop where
  | quote : Closes rest (.char '"' :: rest)
  | plain {r : Rune} {t : Text} (quote : r ≠ .char '"') (backslash : r ≠ .char '\\')
      (later : Closes rest t) : Closes rest (r :: t)
  | escaped {r : Rune} {t : Text} (later : Closes rest t) : Closes rest (.char '\\' :: r :: t)

theorem Closes.digit {r : Rune} {k : Nat} (hr : r.hexDigit? = some k) (h : Closes rest t) :
    Closes rest (r :: t) := by
  refine .plain ?_ ?_ h
  · rintro rfl
    cases hr
  · rintro rfl
    cases hr

/-- A unit is a backslash with a letter behind it, and four digits. -/
theorem Closes.unit {a b c d : Rune} {u : Nat} (hu : unit? a b c d = some u)
    (h : Closes rest t) :
    Closes rest (.char '\\' :: .char 'u' :: a :: b :: c :: d :: t) := by
  simp only [unit?, Option.bind_eq_bind, Option.bind_eq_some_iff] at hu
  obtain ⟨_, ha, _, hb, _, hc, _, hd, _⟩ := hu
  exact .escaped (.digit ha (.digit hb (.digit hc (.digit hd h))))

theorem exists_body_of_bind {x : Except QuotedError (Text × Text)} {r : Rune}
    (h : (x >>= fun read => .ok (r :: read.1, read.2)) = .ok (value, rest)) :
    ∃ tail, x = .ok (tail, rest) := by
  obtain ⟨read, hx, hread⟩ := bind_eq_ok_iff.1 h
  cases hread
  exact ⟨read.1, hx⟩

/-- The reader of a literal stops at the quote that closes it. -/
theorem closes_of_body (h : body t = .ok (value, rest)) : Closes rest t := by
  fun_induction body t generalizing value with
  | case1 | case3 | case4 | case5 | case9 | case10 | case12 => cases h
  | case2 =>
    cases h
    exact .quote
  | case6 a b c d u hu a' b' c' d' f t _ v hv _ ih =>
    obtain ⟨tail, hb⟩ := exists_body_of_bind h
    exact .unit hu (.unit hv (ih hb))
  | case7 a b c d u hu a' b' c' d' f t _ v hv _ ih =>
    obtain ⟨tail, hb⟩ := exists_body_of_bind h
    exact .unit hu (ih hb)
  | case8 a b c d e t u hu _ ih =>
    obtain ⟨tail, hb⟩ := exists_body_of_bind h
    exact .unit hu (ih hb)
  | case11 e t _ _ r _ ih =>
    obtain ⟨tail, hb⟩ := exists_body_of_bind h
    exact .escaped (ih hb)
  | case13 r t hquote hlast _ _ hbackslash _ ih =>
    obtain ⟨tail, hb⟩ := exists_body_of_bind h
    refine .plain hquote ?_ (ih hb)
    intro hr
    cases t with
    | nil => exact hlast hr rfl
    | cons e t => exact hbackslash e t hr rfl

end Quoted
end Text

namespace Script

variable {t u rest line blanks : Text}

open Text.Quoted in
/-- The scans stay inside a literal up to the quote that closes it. -/
theorem passes_of_closes (h : Closes rest t) :
    ∃ inner, t = inner ++ [.char '"'] ++ rest ∧ Passes .inside inner .inside := by
  induction h with
  | quote => exact ⟨[], rfl, .nil _⟩
  | plain hquote hbackslash _ ih =>
    obtain ⟨inner, rfl, hp⟩ := ih
    exact ⟨_ :: inner, rfl, passes_inside hquote hbackslash hp⟩
  | escaped _ ih =>
    obtain ⟨inner, rfl, hp⟩ := ih
    exact ⟨_ :: _ :: inner, rfl, passes_escaped hp⟩

theorem mem_of_append_singleton {α : Type} {xs ys zs : List α} {x : α}
    (h : xs ++ [x] = ys ++ zs) (hne : zs ≠ []) : x ∈ zs := by
  have hlast := congrArg List.getLast? h
  rw [List.getLast?_concat, List.getLast?_append_of_ne_nil ys hne] at hlast
  exact List.mem_of_getLast? hlast.symm

/-- A literal that ends in a quote is closed by this quote and by none before. -/
theorem passes_of_decode {inner value : Text}
    (h : Text.Quoted.decode (inner ++ [.char '"']) = .ok value) :
    Passes .inside inner .inside := by
  unfold Text.Quoted.decode at h
  split at h
  · cases h
  · rename_i tail hbody
    obtain ⟨spelled, ht, hp⟩ := passes_of_closes (Text.Quoted.closes_of_body hbody)
    split at h
    · rename_i hspace
      rw [List.isEmpty_iff, List.dropWhile_eq_nil_iff] at hspace
      -- Only white space may follow the closing quote, and the text ends in a quote.
      have htail : tail = [] := by
        by_contra hne
        exact absurd (hspace _ (mem_of_append_singleton ht hne)) (by decide)
      rw [htail, List.append_nil] at ht
      rw [List.append_cancel_right ht]
      exact hp
    · cases h

/-! ## Lines of arguments -/

/-- The text of an argument: a literal that its reader takes whole, or a token, which neither
quotes nor separates nor starts a comment. -/
inductive Argument : Text → Prop where
  | literal {inner value : Text}
      (read : Text.Quoted.decode (inner ++ [.char '"']) = .ok value) :
      Argument (.char '"' :: (inner ++ [.char '"']))
  | token {t : Text} (trimmed : t.Trimmed) (quote : .char '"' ∉ t) (comma : .char ',' ∉ t)
      (slashes : ¬[.char '/', .char '/'] <:+: t) : Argument t

/-- A line holds arguments, with a comma between two of them and blanks around the comma. -/
inductive Joined : List Text → Text → Prop where
  | nil : Joined [] []
  | last (t : Text) : Joined [t] t
  | cons {t u : Text} {ts : List Text} {before after line : Text}
      (before_blank : ∀ r ∈ before, r.isBlank = true)
      (after_blank : ∀ r ∈ after, r.isBlank = true) (later : Joined (u :: ts) line) :
      Joined (t :: u :: ts) (t ++ before ++ .char ',' :: (after ++ line))

theorem crosses_of_not_mem (hquote : .char '"' ∉ t) (hcomma : .char ',' ∉ t)
    (hslashes : ¬[.char '/', .char '/'] <:+: t) : Crosses .outside t .outside := by
  induction t with
  | nil => exact .nil _
  | cons r t ih =>
    rw [List.mem_cons, not_or] at hquote hcomma
    refine .cons (fun _ => Ne.symm hcomma.1) ?_ ?_
    · rintro - rfl hhead
      obtain ⟨t, rfl⟩ := List.head?_eq_some_iff.1 hhead
      exact hslashes ⟨[], t, rfl⟩
    · rw [Quoting.next, if_neg (Ne.symm hquote.1)]
      exact ih hquote.2 hcomma.2 fun hin => hslashes (List.infix_cons hin)

theorem Argument.crosses (h : Argument t) : Crosses .outside t .outside := by
  cases h with
  | literal read =>
    have hclose : Passes .inside [.char '"'] .outside :=
      .cons (fun h => Quoting.noConfusion h) (.nil _)
    refine Passes.crosses (.cons (fun _ => by decide) ?_)
    exact (passes_of_decode read).append hclose
  | token _ hquote hcomma hslashes => exact crosses_of_not_mem hquote hcomma hslashes

theorem Argument.trimmed (h : Argument t) : t.Trimmed := by
  cases h with
  | @literal inner =>
    refine @Text.Trimmed.append [.char '"'] _ ⟨.char '"', [], rfl, by decide⟩ ?_
    show Text.Starts (inner ++ [Rune.char '"']).reverse
    rw [List.reverse_append]
    exact ⟨.char '"', _, rfl, by decide⟩
  | token htrimmed => exact htrimmed

/-! ## Blanks -/

theorem head?_blanks (hb : ∀ r ∈ blanks, r.isBlank = true) :
    blanks.head? ≠ some (.char '/') :=
  fun hhead => (ne_of_isBlank (hb _ (List.mem_of_head? hhead))).2.2 rfl

theorem Argument.crosses_blanks (h : Argument t) (hb : ∀ r ∈ blanks, r.isBlank = true) :
    Crosses .outside (t ++ blanks) .outside :=
  h.crosses.append (passes_blanks hb).crosses (head?_blanks hb)

theorem Argument.trim_blanks (h : Argument t) (hb : ∀ r ∈ blanks, r.isBlank = true) :
    Text.trim (t ++ blanks) = t :=
  @Text.trim_between [] t blanks h.trimmed (fun _ hr => absurd hr List.not_mem_nil) hb

/-! ## Before the comment -/

theorem Joined.beforeComment {args : List Text} (h : Joined args line)
    (hargs : ∀ t ∈ args, Argument t) (hrest : rest.head? ≠ some (.char '/')) :
    beforeComment .outside (line ++ rest) = line ++ beforeComment .outside rest := by
  induction h with
  | nil => rfl
  | last t => exact (hargs t List.mem_cons_self).crosses.beforeComment hrest
  | @cons t u ts before after line hbefore hafter _ ih =>
    obtain ⟨ht, hts⟩ := List.forall_mem_cons.1 hargs
    -- The comma keeps a slash that ends an argument apart from one that starts the next.
    have hcomma : Script.beforeComment .outside (.char ',' :: (after ++ (line ++ rest))) =
        .char ',' :: (after ++ (line ++ Script.beforeComment .outside rest)) := by
      rw [Script.beforeComment, if_neg fun hc => absurd hc.2.1 (by decide), Quoting.next,
        if_neg (by decide), (passes_blanks hafter).beforeComment, ih hts]
    rw [List.append_assoc (t ++ before), List.cons_append, List.append_assoc after,
      (ht.crosses_blanks hbefore).beforeComment (by simp), hcomma]
    simp only [List.append_assoc, List.cons_append]

theorem stripComment_line {args : List Text} (h : Joined args line)
    (hargs : ∀ t ∈ args, Argument t) {blank : Rune} (hblank : blank.isBlank = true)
    (comment : Text) :
    stripComment (line ++ blank :: .char '/' :: .char '/' :: comment) = line ++ [blank] := by
  obtain ⟨hquote, -, hslash⟩ := ne_of_isBlank hblank
  have hcut : beforeComment .outside (blank :: .char '/' :: .char '/' :: comment) = [blank] := by
    rw [beforeComment, if_neg fun hc => hslash hc.2.1, Quoting.next, if_neg hquote, beforeComment,
      if_pos ⟨rfl, rfl, rfl⟩]
  have hhead : (blank :: .char '/' :: .char '/' :: comment).head? ≠ some (.char '/') :=
    fun hhead => hslash (Option.some.inj hhead)
  rw [stripComment, h.beforeComment hargs hhead, hcut]

/-! ## At the commas -/

theorem Joined.map_trim_commaParts {args : List Text} (h : Joined args line)
    (hargs : ∀ t ∈ args, Argument t) (hne : args ≠ []) (hb : ∀ r ∈ blanks, r.isBlank = true) :
    (commaParts .outside (line ++ blanks)).map Text.trim = args := by
  induction h with
  | nil => exact absurd rfl hne
  | last t =>
    have ht := hargs t List.mem_cons_self
    rw [commaParts_self (ht.crosses_blanks hb), List.map_singleton, ht.trim_blanks hb]
  | @cons t u ts before after line hbefore hafter _ ih =>
    obtain ⟨ht, hts⟩ := List.forall_mem_cons.1 hargs
    rw [List.append_assoc (t ++ before), List.cons_append, List.append_assoc after,
      commaParts_comma (ht.crosses_blanks hbefore), List.map_cons, ht.trim_blanks hbefore,
      map_trim_commaParts_blanks hafter, ih hts (List.cons_ne_nil u ts)]

theorem splitArgs_line {args : List Text} (h : Joined args line)
    (hargs : ∀ t ∈ args, Argument t) (hb : ∀ r ∈ blanks, r.isBlank = true) :
    splitArgs (line ++ blanks) = args := by
  unfold splitArgs
  simp only
  by_cases hne : args = []
  · subst hne
    cases h
    have htrim : Text.trim blanks = [] := by
      have hnil := Text.trim_blanks hb []
      rwa [List.append_nil] at hnil
    rw [List.nil_append, commaParts_self (passes_blanks hb).crosses, List.map_singleton, htrim,
      if_pos rfl]
  · rw [h.map_trim_commaParts hargs hne hb, if_neg]
    intro hnil
    rw [hnil] at hargs
    exact (hargs [] List.mem_cons_self).trimmed.ne_nil rfl

/-- A line is cut into the arguments it was joined from, whatever they hold and whatever the
comment behind them says. -/
theorem splitArgs_stripComment {args : List Text} (h : Joined args line)
    (hargs : ∀ t ∈ args, Argument t) {blank : Rune} (hblank : blank.isBlank = true)
    (comment : Text) :
    splitArgs (stripComment (line ++ blank :: .char '/' :: .char '/' :: comment)) = args := by
  rw [stripComment_line h hargs hblank comment]
  exact splitArgs_line h hargs (List.forall_mem_singleton.2 hblank)

/-- A literal with a comma, slashes and escapes before two tokens, of which one has a slash; and a
comment with a quote and a comma. -/
theorem splitArgs_stripComment_mixed :
    let args := [Text.ofString "\"a, \\u0001\\\"//\\\\\"", Text.ofString "7/2", Text.ofString "r3"]
    let line := Text.ofString "\"a, \\u0001\\\"//\\\\\" ,\t7/2,r3"
    Joined args line ∧ (∀ t ∈ args, Argument t) ∧ (Rune.char ' ').isBlank = true ∧
      splitArgs (stripComment (line ++ Text.ofString " // \"x, y")) = args := by
  intro args line
  have hread : Text.Quoted.decode (Text.ofString "a, \\u0001\\\"//\\\\" ++ [.char '"']) =
      .ok (Text.ofString "a, \x01\"//\\") :=
    Text.Quoted.decode_encode (Text.ofString "a, \x01\"//\\")
  have hfraction : Argument (Text.ofString "7/2") :=
    .token (Text.trimmed_of_forall (by decide) (by decide)) (by decide) (by decide) (by decide)
  have hregister : Argument (Text.ofString "r3") :=
    .token (Text.trimmed_of_forall (by decide) (by decide)) (by decide) (by decide) (by decide)
  have hjoined : Joined args line :=
    @Joined.cons _ _ _ [.char ' '] [.char '\t'] _ (by decide) (by decide)
      (@Joined.cons _ _ _ [] [] _ (by decide) (by decide) (.last _))
  have hargs : ∀ t ∈ args, Argument t := by
    intro t ht
    simp only [args, List.mem_cons, List.not_mem_nil, or_false] at ht
    rcases ht with rfl | rfl | rfl
    · exact .literal hread
    · exact hfraction
    · exact hregister
  have hblank : (Rune.char ' ').isBlank = true := by decide
  exact ⟨hjoined, hargs, hblank,
    splitArgs_stripComment hjoined hargs hblank (Text.ofString " \"x, y")⟩

end Script
end QuestArchive
