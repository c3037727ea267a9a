/-
# MxtChain.Lib.Except — taking fallible computations apart.
-/
import Mathlib.Data.Option.Basic

namespace MxtChain.Lib

variable {ε α β ε' : Type} {x y z : Except ε α} {b b' : β} {f : α → Except ε β} {e : ε} {a : α}
  {E E' : ε → Prop} {P P' : α → Prop} {Q : β → Prop}

/-- A sequence that succeeds is two successes. -/
theorem bind_ok : (x >>= f) = .ok b ↔ ∃ a, x = .ok a ∧ f a = .ok b := by
  cases x with
  | error e | ok a => simp [bind, Except.bind]

/-- A sequence fails where its first part does, or its second after the first. -/
theorem bind_error : (x >>= f) = .error e ↔ x = .error e ∨ ∃ a, x = .ok a ∧ f a = .error e := by
  cases x with
  | error e | ok a => simp [bind, Except.bind]

theorem map_ok {f : α → β} : x.map f = .ok b ↔ ∃ a, x = .ok a ∧ f a = b := by
  cases x with
  | error e | ok a => simp [Except.map]

theorem map_error {f : α → β} : x.map f = .error e ↔ x = .error e := by
  cases x with
  | error e | ok a => simp [Except.map]

theorem mapError_ok {f : ε → ε'} : x.mapError f = .ok a ↔ x = .ok a := by
  cases x with
  | error e | ok a => simp [Except.mapError]

theorem mapError_error {f : ε → ε'} {e' : ε'} :
    x.mapError f = .error e' ↔ ∃ e, x = .error e ∧ f e = e' := by
  cases x with
  | error e | ok a => simp [Except.mapError]

/-- What holds at first and is kept by every step of a loop holds when the loop succeeds. -/
theorem foldlM_ok_invariant {f : β → α → Except ε β} {P : β → Prop} {l : List α} (hb : P b)
    (hstep : ∀ b a b', a ∈ l → P b → f b a = .ok b' → P b') (h : l.foldlM f b = .ok b') : P b' := by
  induction l generalizing b with
  | nil =>
    rw [← Except.ok.inj h]
    exact hb
  | cons a l ih =>
    rw [List.foldlM_cons] at h
    obtain ⟨b1, h1, h⟩ := bind_ok.mp h
    exact ih (hstep b a b1 List.mem_cons_self hb h1)
      (fun b a b' ha => hstep b a b' (List.mem_cons_of_mem _ ha)) h

/-! ## Postconditions -/

/-- A computation meets a postcondition: `Q` of its result, or `E` of its error. -/
def Meets (E : ε → Prop) (Q : α → Prop) : Except ε α → Prop
  | .error e => E e
  | .ok a => Q a

namespace Meets

theorem self (x : Except ε α) : Meets (fun e => x = .error e) (fun a => x = .ok a) x := by
  cases x with
  | error e | ok a => exact rfl

theorem of_ok (h : Meets E P x) (hx : x = .ok a) : P a := by
  subst hx
  exact h

theorem of_error (h : Meets E P x) (hx : x = .error e) : E e := by
  subst hx
  exact h

theorem exists_ok (h : Meets (fun _ => False) P x) : ∃ a, x = .ok a ∧ P a := by
  cases x with
  | error e => exact h.elim
  | ok a => exact ⟨a, rfl, h⟩

theorem mono (h : Meets E P x) (hE : ∀ e, E e → E' e) (hP : ∀ a, P a → P' a) : Meets E' P' x := by
  cases x with
  | error e => exact hE e h
  | ok a => exact hP a h

theorem bind (h : Meets E P x) (hf : ∀ a, P a → Meets E Q (f a)) : Meets E Q (x >>= f) := by
  cases x with
  | error e => exact h
  | ok a => exact hf a h

theorem ite {p : Prop} [Decidable p] (hy : p → Meets E P y)
    (hz : ¬p → Meets E P z) : Meets E P (if p then y else z) := by
  split
  · next hp => exact hy hp
  · next hp => exact hz hp

end Meets

end MxtChain.Lib
