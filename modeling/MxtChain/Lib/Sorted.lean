/-
# MxtChain.Lib.Sorted — sorting in place, dropping repetitions, cutting a sorted list.

`exchangeSort` is the sort with two loops: `settle` is the inner one, which brings the least of the
rest to the front by exchanging. `dedup` drops an element that is equal to the one before. The
beginnings of a strictly sorted list that lie below a bound, with and without the bound itself,
differ by at most one element.
-/
import Mathlib.Data.List.Perm.Basic
import Mathlib.Data.List.TakeWhile

namespace MxtChain.Lib

open List

variable {α : Type*} {l : List α} {last : α}

/-! ## §1 — Sorting -/

section Sorting

variable [LT α] [DecidableLT α]

/-- The inner loop: `x` stands before `l` and is exchanged with everything smaller. -/
def settle (x : α) : List α → α × List α
  | [] => (x, [])
  | y :: l =>
    if y < x then ((settle y l).1, x :: (settle y l).2) else ((settle x l).1, y :: (settle x l).2)

/-- The outer loop, for `n` rounds. -/
def exchangeSort : Nat → List α → List α
  | 0, l => l
  | _ + 1, [] => []
  | n + 1, x :: l => (settle x l).1 :: exchangeSort n (settle x l).2

theorem settle_perm (x : α) (l : List α) : ((settle x l).1 :: (settle x l).2).Perm (x :: l) := by
  induction l generalizing x with
  | nil => exact Perm.refl _
  | cons y l ih =>
    rw [settle]
    split
    · exact ((Perm.swap _ _ _).trans ((ih y).cons x))
    · exact ((Perm.swap _ _ _).trans ((ih x).cons y)).trans (Perm.swap _ _ _)

theorem length_settle (x : α) (l : List α) : (settle x l).2.length = l.length := by
  have h := (settle_perm x l).length_eq
  simpa using h

theorem exchangeSort_perm (n : Nat) (l : List α) : (exchangeSort n l).Perm l := by
  induction n generalizing l with
  | zero => exact Perm.refl _
  | succ n ih =>
    cases l with
    | nil => exact Perm.refl _
    | cons x l => exact ((ih _).cons _).trans (settle_perm x l)

variable [LE α] [Std.IsLinearOrder α] [Std.LawfulOrderLT α]

/-- After a round the front is the least. -/
theorem settle_le (x : α) (l : List α) : ∀ y ∈ x :: l, (settle x l).1 ≤ y := by
  induction l generalizing x with
  | nil =>
    intro y hy
    rw [mem_singleton.mp hy]
    exact Std.le_refl _
  | cons z l ih =>
    intro y hy
    rw [settle]
    split
    · next hz =>
      have hmin : (settle z l).1 ≤ x := Std.le_trans (ih z z mem_cons_self) (Std.le_of_lt hz)
      rcases mem_cons.mp hy with rfl | hy
      · exact hmin
      · exact ih z y hy
    next hz =>
    have hmin : (settle x l).1 ≤ z :=
      Std.le_trans (ih x x mem_cons_self) (Std.not_lt.mp hz)
    rcases mem_cons.mp hy with rfl | hy
    · exact ih _ _ mem_cons_self
    · rcases mem_cons.mp hy with rfl | hy
      · exact hmin
      · exact ih x y (mem_cons_of_mem _ hy)

/-- **As many rounds as there are elements sort the list.** -/
theorem exchangeSort_sorted {n : Nat} (h : l.length ≤ n) : (exchangeSort n l).Pairwise (· ≤ ·) := by
  induction n generalizing l with
  | zero =>
    rw [eq_nil_of_length_eq_zero (Nat.le_zero.mp h)]
    exact .nil
  | succ n ih =>
    cases l with
    | nil => exact .nil
    | cons x l =>
      rw [exchangeSort, pairwise_cons]
      refine ⟨fun y hy => ?_, ih (by rw [length_settle]; simpa using h)⟩
      have hmem : y ∈ (settle x l).2 := (exchangeSort_perm n _).mem_iff.mp hy
      exact settle_le x l y ((settle_perm x l).mem_iff.mp (mem_cons_of_mem _ hmem))

end Sorting

/-! ## §2 — Repetitions -/

section Repetitions

variable [DecidableEq α]

/-- What stays of `l` behind `last`. -/
def squeeze (last : α) : List α → List α
  | [] => []
  | y :: l => if y = last then squeeze last l else y :: squeeze y l

/-- Without elements that are equal to the one before. -/
def dedup : List α → List α
  | [] => []
  | x :: l => x :: squeeze x l

theorem mem_squeeze {y : α} : y ∈ last :: squeeze last l ↔ y ∈ last :: l := by
  induction l generalizing last with
  | nil => exact Iff.rfl
  | cons z l ih =>
    rw [squeeze]
    split
    · next hz =>
      rw [ih, hz]
      simp
    · rw [mem_cons, ih, mem_cons (b := last)]

theorem mem_dedup {y : α} : y ∈ dedup l ↔ y ∈ l := by
  cases l with
  | nil => exact Iff.rfl
  | cons x l => exact mem_squeeze

variable [LE α] [LT α] [Std.IsLinearOrder α] [Std.LawfulOrderLT α]

theorem squeeze_sorted (h : (last :: l).Pairwise (· ≤ ·)) :
    (last :: squeeze last l).Pairwise (· < ·) := by
  induction l generalizing last with
  | nil => exact pairwise_singleton _ _
  | cons z l ih =>
    obtain ⟨hlast, hrest⟩ := pairwise_cons.mp h
    rw [squeeze]
    split
    · next hz => exact ih (hz ▸ hrest)
    next hz =>
    have hlt : last < z := Std.lt_of_le_of_ne (hlast z mem_cons_self) (Ne.symm hz)
    refine pairwise_cons.mpr ⟨fun y hy => ?_, ih hrest⟩
    rcases mem_cons.mp (mem_squeeze.mp hy) with rfl | hy
    · exact hlt
    · exact Std.lt_of_lt_of_le hlt ((pairwise_cons.mp hrest).1 y hy)

/-- **A sorted list without repetitions is strictly sorted.** -/
theorem dedup_sorted (h : l.Pairwise (· ≤ ·)) : (dedup l).Pairwise (· < ·) := by
  cases l with
  | nil => exact .nil
  | cons x l => exact squeeze_sorted h

end Repetitions

/-! ## §3 — Cutting -/

/-- What is not above a bound is what lies below it, and the bound itself if it is there. -/
theorem takeWhile_le_eq [LE α] [LT α] [Std.IsLinearOrder α] [Std.LawfulOrderLT α]
    [DecidableLE α] [DecidableLT α] [DecidableEq α] (h : l.Pairwise (· < ·)) (b : α) :
    l.takeWhile (· ≤ b) = l.takeWhile (· < b) ++ if b ∈ l then [b] else [] := by
  induction l with
  | nil => rfl
  | cons x l ih =>
    obtain ⟨hx, hl⟩ := pairwise_cons.mp h
    by_cases hlt : x < b
    · have hle : x ≤ b := Std.le_of_lt hlt
      have hne : b ≠ x := fun he => Std.lt_irrefl (he ▸ hlt)
      have hiff : b ∈ x :: l ↔ b ∈ l := by simp [hne]
      simp only [takeWhile_cons, hlt, hle, decide_true, if_true, ih hl, cons_append, hiff]
    have hge : b ≤ x := Std.not_lt.mp hlt
    by_cases heq : x = b
    · -- the bound itself; what follows is above it
      subst heq
      have hnil : l.takeWhile (· ≤ x) = [] := by
        cases l with
        | nil => rfl
        | cons y l =>
          have hy : ¬ y ≤ x := Std.not_le.mpr (hx y mem_cons_self)
          simp [hy]
      simp [hlt, hnil]
    · have hgt : b < x := Std.lt_of_le_of_ne hge (Ne.symm heq)
      have hnot : ¬ x ≤ b := Std.not_le.mpr hgt
      have hmem : b ∉ x :: l := by
        intro hb
        rcases mem_cons.mp hb with rfl | hb
        · exact heq rfl
        · exact Std.lt_irrefl (Std.lt_trans hgt (hx b hb))
      simp [hlt, hnot, hmem]

end MxtChain.Lib
