import QuestArchive.Bytes.Read

/-!
# The results of reading

What two actions come to one after the other, and what holds of every result of an action,
wherever its cursor stands: also outside the data, where positions count from the end.
-/

namespace QuestArchive
namespace Read

section

variable {α β : Type} {a : Read α} {f : α → Read β} {c c' : Cursor} {e : Fault}

theorem bind_of_ok {x : α} (h : a c = .ok x c') : (a >>= f) c = f x c' := by
  show EStateM.bind a f c = _
  rw [EStateM.bind, h]

theorem bind_of_error (h : a c = .error e c') : (a >>= f) c = .error e c' := by
  show EStateM.bind a f c = _
  rw [EStateM.bind, h]

theorem ok_of_bind {y : β} (h : (a >>= f) c = .ok y c') :
    ∃ x s, a c = .ok x s ∧ f x s = .ok y c' := by
  cases ha : a c with
  | ok x s => exact ⟨x, s, rfl, (bind_of_ok ha).symm.trans h⟩
  | error e s => cases (bind_of_error ha).symm.trans h

theorem error_of_bind (h : (a >>= f) c = .error e c') :
    a c = .error e c' ∨ ∃ x s, a c = .ok x s ∧ f x s = .error e c' := by
  cases ha : a c with
  | ok x s => exact Or.inr ⟨x, s, rfl, (bind_of_ok ha).symm.trans h⟩
  | error e' s =>
    rw [bind_of_error ha] at h
    cases h
    exact Or.inl rfl

end

variable {α β : Type} {P : α → Prop} {Q : β → Prop}

/-- Every result of an action has a property, wherever the cursor stands. -/
def Gives (a : Read α) (P : α → Prop) : Prop := ∀ c x c', a c = .ok x c' → P x

namespace Gives

theorem trivial (a : Read α) : Gives a fun _ => True := fun _ _ _ _ => True.intro

theorem pure {x : α} (hx : P x) : Gives (Pure.pure x : Read α) P := by
  intro c y c' h
  cases h
  exact hx

theorem throw (e : Fault) : Gives (MonadExcept.throw e : Read α) P := by
  intro c y c' h
  cases h

theorem bind {a : Read α} {f : α → Read β} (ha : Gives a P) (hf : ∀ x, P x → Gives (f x) Q) :
    Gives (a >>= f) Q := by
  intro c y c' h
  obtain ⟨x, s, hs, h⟩ := ok_of_bind h
  exact hf x (ha _ _ _ hs) _ _ _ h

theorem mapM {f : α → Read β} (hf : ∀ x, Gives (f x) Q) (xs : List α) :
    Gives (xs.mapM f) fun ys => ys.length = xs.length ∧ ∀ y ∈ ys, Q y := by
  induction xs with
  | nil => exact Gives.pure ⟨rfl, fun y hy => absurd hy List.not_mem_nil⟩
  | cons x xs ih =>
    rw [List.mapM_cons]
    refine (hf x).bind fun y hy => ih.bind fun ys hys => Gives.pure ?_
    exact ⟨congrArg (· + 1) hys.1, List.forall_mem_cons.2 ⟨hy, hys.2⟩⟩

end Gives

end Read
end QuestArchive
