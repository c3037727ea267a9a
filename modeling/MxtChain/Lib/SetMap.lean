/-
# MxtChain.Lib.SetMap — relations as maps of sets.

`map[K]map[V]struct{}` keeps a relation between keys and values. A key without a set and a key with
an empty one are the same relation, so what the operations do is said about `get`, which does not
tell them apart; that no empty set is kept is a property of its own, `Tight`.
-/
import MxtChain.Lib.GoMap
import Mathlib.Data.Finset.Card

namespace MxtChain.Lib

open Option

/-- `map[K]map[V]struct{}` -/
abbrev SetMap (K V : Type*) := GoMap K (Finset V)

namespace SetMap

variable {K V : Type*} [DecidableEq K] {m : SetMap K V} {k j : K} {s : Finset V} {v w : V}
  {l : List K}

/-- `if len(m[k]) == 0 { delete(m, k) }` -/
def prune (m : SetMap K V) (k : K) : SetMap K V := if (m.get k).card = 0 then m.erase k else m

/-- **No empty sets are kept.** -/
def Tight (m : SetMap K V) : Prop := ∀ k, m.find? k ≠ some ∅

/-! ## §1 — Keys and their sets -/

theorem get_of_find? (h : m.find? k = some s) : m.get k = s := by
  rw [GoMap.get, h, getD_some]

theorem get_of_find?_none (h : m.find? k = none) : m.get k = ∅ := by
  rw [GoMap.get, h]
  rfl

@[simp] theorem get_empty : (GoMap.empty : SetMap K V).get k = ∅ :=
  get_of_find?_none (GoMap.find?_empty k)

theorem get_insert : (m.insert k s).get j = if j = k then s else m.get j := by
  unfold GoMap.get
  rw [GoMap.find?_insert]
  split <;> rfl

theorem get_erase : (m.erase k).get j = if j = k then ∅ else m.get j := by
  unfold GoMap.get
  rw [GoMap.find?_erase]
  split <;> rfl

@[simp] theorem get_prune : (prune m k).get j = m.get j := by
  unfold prune
  split
  · next hempty =>
    rw [get_erase]
    split
    · next hj => rw [hj, Finset.card_eq_zero.mp hempty]
    · rfl
  · rfl

theorem tight_empty : Tight (GoMap.empty : SetMap K V) := by
  intro k
  exact (some_ne_none _).symm

/-- A key has a set if it has a value. -/
theorem isSome_find? (h : m.find? k ≠ some ∅) : (m.find? k).isSome = true ↔ (m.get k).Nonempty := by
  cases hs : m.find? k with
  | none => simp [get_of_find?_none hs]
  | some s =>
    rw [get_of_find? hs, Finset.nonempty_iff_ne_empty]
    simp only [isSome_some, true_iff]
    rintro rfl
    exact h hs

theorem find?_eq_none (h : m.find? k ≠ some ∅) : m.find? k = none ↔ m.get k = ∅ := by
  rw [← not_isSome_iff_eq_none, isSome_find? h, Finset.not_nonempty_iff_eq_empty]

theorem find?_prune_ne : (prune m k).find? k ≠ some ∅ := by
  unfold prune
  split
  · rw [GoMap.find?_erase, if_pos rfl]
    exact (some_ne_none _).symm
  · next hne =>
    intro hs
    exact hne (Finset.card_eq_zero.mpr (get_of_find? hs))

theorem find?_prune_of_ne (hj : j ≠ k) : (prune m k).find? j = m.find? j := by
  unfold prune
  split
  · rw [GoMap.find?_erase, if_neg hj]
  · rfl

theorem Tight.insert (h : Tight m) (hs : s ≠ ∅) : Tight (m.insert k s) := by
  intro j
  rw [GoMap.find?_insert]
  split
  · exact fun hj => hs (some.inj hj)
  · exact h j

theorem Tight.erase (h : Tight m) : Tight (m.erase k) := by
  intro j
  rw [GoMap.find?_erase]
  split
  · exact (some_ne_none _).symm
  · exact h j

/-! ## §2 — Values in and out -/

variable [DecidableEq V]

/-- `m[k][v] = struct{}{}`, with a new set where there was none -/
def add (m : SetMap K V) (k : K) (v : V) : SetMap K V := m.insert k (insert v (m.get k))

/-- `delete(m[k], v)` -/
def remove (m : SetMap K V) (k : K) (v : V) : SetMap K V :=
  match m.find? k with
  | none => m
  | some s => m.insert k (s.erase v)

/-- `delete(m[k], v)`, and the key if nothing is left -/
def discard (m : SetMap K V) (k : K) (v : V) : SetMap K V := prune (remove m k v) k

/-- `discard` for every key -/
def scrub (m : SetMap K V) (v : V) : SetMap K V :=
  ⟨m.keys.filter fun k => (m.val k).erase v ≠ ∅, fun k => (m.val k).erase v⟩

theorem get_add : (add m k v).get j = if j = k then insert v (m.get k) else m.get j := get_insert

theorem get_remove : (remove m k v).get j = if j = k then (m.get k).erase v else m.get j := by
  unfold remove
  split
  · next hnone =>
    split
    · next hj => rw [hj, get_of_find?_none hnone, Finset.erase_empty]
    · rfl
  · next s hs => rw [get_insert, get_of_find? hs]

theorem get_scrub : (scrub m v).get k = (m.get k).erase v := by
  have hdefault : (default : Finset V) = ∅ := rfl
  unfold GoMap.get GoMap.find? scrub
  by_cases hk : k ∈ m.keys
  · by_cases hempty : (m.val k).erase v = ∅
    · simp [hk, hempty, hdefault]
    · simp [hk, hempty]
  · simp [hk, hdefault]

theorem mem_get_add : w ∈ (add m k v).get j ↔ (j = k ∧ w = v) ∨ w ∈ m.get j := by
  rw [get_add]
  split
  · next hj =>
    subst hj
    simp
  · next hj => simp [hj]

theorem mem_get_remove : w ∈ (remove m k v).get j ↔ w ∈ m.get j ∧ ¬ (j = k ∧ w = v) := by
  rw [get_remove]
  split
  · next hj =>
    subst hj
    simp [and_comm]
  · next hj => simp [hj]

theorem mem_get_discard : w ∈ (discard m k v).get j ↔ w ∈ m.get j ∧ ¬ (j = k ∧ w = v) := by
  rw [discard, get_prune, mem_get_remove]

theorem mem_get_scrub : w ∈ (scrub m v).get j ↔ w ∈ m.get j ∧ w ≠ v := by
  rw [get_scrub, Finset.mem_erase, and_comm]

theorem find?_remove_of_ne (hj : j ≠ k) : (remove m k v).find? j = m.find? j := by
  unfold remove
  split
  · rfl
  · exact GoMap.find?_insert_of_ne hj

theorem Tight.add (h : Tight m) : Tight (add m k v) := h.insert (Finset.insert_ne_empty _ _)

theorem Tight.discard (h : Tight m) : Tight (discard m k v) := by
  intro j
  by_cases hj : j = k
  · subst hj
    exact find?_prune_ne
  · rw [SetMap.discard, find?_prune_of_ne hj, find?_remove_of_ne hj]
    exact h j

theorem tight_scrub : Tight (scrub m v) := by
  intro k hk
  unfold scrub GoMap.find? at hk
  rw [ite_none_right_eq_some] at hk
  obtain ⟨hmem, hempty⟩ := hk
  have hne := (List.mem_filter.mp hmem).2
  exact of_decide_eq_true hne (some.inj hempty)

/-! ## §3 — Loops -/

theorem mem_get_foldl_add :
    w ∈ (l.foldl (fun m k => add m k v) m).get j ↔ (j ∈ l ∧ w = v) ∨ w ∈ m.get j := by
  induction l generalizing m with
  | nil => simp
  | cons k l ih =>
    rw [List.foldl_cons, ih, mem_get_add, List.mem_cons]
    tauto

theorem mem_get_foldl_discard :
    w ∈ (l.foldl (fun m k => discard m k v) m).get j ↔ w ∈ m.get j ∧ ¬ (j ∈ l ∧ w = v) := by
  induction l generalizing m with
  | nil => simp
  | cons k l ih =>
    rw [List.foldl_cons, ih, mem_get_discard, List.mem_cons]
    tauto

theorem Tight.foldl_add (h : Tight m) : Tight (l.foldl (fun m k => SetMap.add m k v) m) := by
  induction l generalizing m with
  | nil => exact h
  | cons k l ih => exact ih h.add

theorem Tight.foldl_discard (h : Tight m) :
    Tight (l.foldl (fun m k => SetMap.discard m k v) m) := by
  induction l generalizing m with
  | nil => exact h
  | cons k l ih => exact ih h.discard

end SetMap

end MxtChain.Lib
