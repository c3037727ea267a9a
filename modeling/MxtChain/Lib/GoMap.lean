/-
# MxtChain.Lib.GoMap — maps of the run-time system.

A map is the list of its keys, in any order and with any repetitions, and the value of each. A loop
over a map that touches only what belongs to its own key is an operation on `find?` key by key, so
the order in which the keys come is not seen.
-/
import Mathlib.Data.List.Basic
import Mathlib.Logic.Function.Basic

namespace MxtChain.Lib

/-- A finite map with default values. -/
structure GoMap (K V : Type*) where
  keys : List K
  val : K → V

namespace GoMap

variable {K V : Type*} [DecidableEq K]

/-- `make(map[K]V)` -/
def empty [Inhabited V] : GoMap K V := ⟨[], fun _ => default⟩

/-- `v, ok := m[k]` -/
def find? (m : GoMap K V) (k : K) : Option V := if k ∈ m.keys then some (m.val k) else none

/-- `m[k]`, the default where there is no entry -/
def get [Inhabited V] (m : GoMap K V) (k : K) : V := (m.find? k).getD default

/-- `m[k] = v` -/
def insert (m : GoMap K V) (k : K) (v : V) : GoMap K V :=
  ⟨k :: m.keys, fun j => if j = k then v else m.val j⟩

/-- `for k, v := range n { m[k] = v }` -/
def union (n m : GoMap K V) : GoMap K V :=
  ⟨n.keys ++ m.keys, fun k => if k ∈ n.keys then n.val k else m.val k⟩

/-- The entries that pass a test. -/
def filter (m : GoMap K V) (p : K → V → Bool) : GoMap K V :=
  ⟨m.keys.filter fun k => p k (m.val k), m.val⟩

/-- `delete(m, k)` -/
def erase (m : GoMap K V) (k : K) : GoMap K V := ⟨m.keys.filter fun j => j ≠ k, m.val⟩

/-- Some entry passes a test. -/
def any (m : GoMap K V) (p : K → V → Bool) : Bool := m.keys.any fun k => p k (m.val k)

/-- `len(m) == 0` -/
def isEmpty (m : GoMap K V) : Bool := m.keys.isEmpty

@[simp] theorem find?_empty [Inhabited V] (k : K) : (empty : GoMap K V).find? k = none := by
  simp [empty, find?]

theorem find?_insert (m : GoMap K V) (k j : K) (v : V) :
    (m.insert k v).find? j = if j = k then some v else m.find? j := by
  by_cases hj : j = k
  · simp [find?, insert, hj]
  · simp [find?, insert, hj]

@[simp] theorem find?_insert_self (m : GoMap K V) (k : K) (v : V) :
    (m.insert k v).find? k = some v := by
  rw [find?_insert, if_pos rfl]

variable {m : GoMap K V}

theorem find?_insert_of_ne {k j : K} {v : V} (h : j ≠ k) : (m.insert k v).find? j = m.find? j := by
  rw [find?_insert, if_neg h]

theorem find?_union (n m : GoMap K V) (k : K) :
    (n.union m).find? k = (n.find? k).or (m.find? k) := by
  by_cases hn : k ∈ n.keys
  · simp [find?, union, hn]
  · simp [find?, union, hn]

theorem find?_filter (m : GoMap K V) (p : K → V → Bool) (k : K) :
    (m.filter p).find? k = (m.find? k).filter (p k) := by
  by_cases hm : k ∈ m.keys
  · cases hp : p k (m.val k) <;> simp [find?, filter, hm, hp, Option.filter]
  · simp [find?, filter, hm]

theorem find?_erase (m : GoMap K V) (k j : K) :
    (m.erase k).find? j = if j = k then none else m.find? j := by
  by_cases hj : j = k
  · simp [find?, erase, hj]
  · simp [find?, erase, hj]

theorem any_iff {p : K → V → Bool} : m.any p = true ↔ ∃ k v, m.find? k = some v ∧ p k v = true := by
  simp only [any, List.any_eq_true]
  constructor
  · rintro ⟨k, hk, hp⟩
    exact ⟨k, m.val k, if_pos hk, hp⟩
  · rintro ⟨k, v, hk, hp⟩
    rw [find?, Option.ite_none_right_eq_some] at hk
    obtain ⟨hmem, hv⟩ := hk
    exact ⟨k, hmem, by rw [Option.some.inj hv]; exact hp⟩

theorem isEmpty_iff : m.isEmpty = true ↔ ∀ k, m.find? k = none := by
  obtain ⟨keys, val⟩ := m
  cases keys with
  | nil => simp [isEmpty, find?]
  | cons k keys =>
    simp only [isEmpty, List.isEmpty_cons, Bool.false_eq_true, false_iff, not_forall]
    exact ⟨k, by simp [find?]⟩

end GoMap

/-! ## Tables of values under their digest -/

section Addressed

variable {K V : Type*} [DecidableEq K] {digest : V → K} {l : List (K × V)} {k : K} {v : V}

theorem mem_of_lookup (h : l.lookup k = some v) : (k, v) ∈ l := by
  obtain ⟨l1, l2, rfl, -⟩ := List.lookup_eq_some_iff.mp h
  simp

theorem lookup_addressed (hl : ∀ p ∈ l, digest p.2 = p.1) (h : l.lookup k = some v) :
    digest v = k := hl _ (mem_of_lookup h)

/-- Writing values under their digest does not change a value that stood under its own. -/
theorem lookup_getD_addressed (hdigest : Function.Injective digest)
    (hl : ∀ p ∈ l, digest p.2 = p.1) (hv : digest v = k) : (l.lookup k).getD v = v := by
  cases h : l.lookup k with
  | none => rfl
  | some w => exact hdigest ((lookup_addressed hl h).trans hv.symm)

/-- A value that was written is found under its digest. -/
theorem lookup_of_mem_addressed (hdigest : Function.Injective digest)
    (hl : ∀ p ∈ l, digest p.2 = p.1) (hmem : (k, v) ∈ l) : l.lookup k = some v := by
  cases h : l.lookup k with
  | none =>
    have hne := List.lookup_eq_none_iff.mp h _ hmem
    simp at hne
  | some w =>
    have hw := lookup_addressed hl h
    rw [hdigest (hw.trans (hl _ hmem).symm)]

end Addressed

end MxtChain.Lib
