/-
# MxtChain.Lib.Lru — caches that forget.

A least-recently-used cache may lose any entry at any insertion, so the only thing to rely on is
that what it has was put in: a property of all the pairs that are added is one of all the pairs that
are found (`Lru.All`).
-/
import Mathlib.Data.List.Basic

namespace MxtChain.Lib

/-- A least-recently-used cache: the entries, the most recent one first. -/
structure Lru (K V : Type*) where
  capacity : Nat
  entries : List (K × V)

namespace Lru

variable {K V : Type*} {P Q : K → V → Prop} {c : Lru K V} {k : K} {v : V}

/-- An empty cache. -/
def new (capacity : Nat) : Lru K V := ⟨capacity, []⟩

/-- Every entry has the property. -/
def All (P : K → V → Prop) (c : Lru K V) : Prop := ∀ p ∈ c.entries, P p.1 p.2

theorem all_new (capacity : Nat) : All P (new capacity) := fun _ hp => absurd hp List.not_mem_nil

theorem All.mono (h : All P c) (hPQ : ∀ k v, P k v → Q k v) : All Q c := fun p hp =>
  hPQ _ _ (h p hp)

variable [DecidableEq K]

/-- The entry of a key comes to the front. -/
def front (c : Lru K V) (k : K) (v : V) : List (K × V) :=
  (k, v) :: c.entries.filter fun p => p.1 ≠ k

/-- `Get`: the value, and the cache in which it is the most recent one. -/
def get (c : Lru K V) (k : K) : Option V × Lru K V :=
  match c.entries.lookup k with
  | none => (none, c)
  | some v => (some v, { c with entries := c.front k v })

/-- `Add`: the least recent entry goes if there are too many. -/
def add (c : Lru K V) (k : K) (v : V) : Lru K V :=
  { c with entries := (c.front k v).take c.capacity }

theorem All.front (h : All P c) (hv : P k v) : ∀ p ∈ c.front k v, P p.1 p.2 := by
  intro p hp
  rcases List.mem_cons.mp hp with rfl | hp
  · exact hv
  · exact h p (List.mem_of_mem_filter hp)

theorem All.add (h : All P c) (hv : P k v) : All P (c.add k v) := fun p hp =>
  h.front hv p (List.mem_of_mem_take hp)

/-- What is found has the property, and looking does not spoil it. -/
theorem All.get (h : All P c) (k : K) :
    (∀ v, (c.get k).1 = some v → P k v) ∧ All P (c.get k).2 := by
  unfold Lru.get
  cases hv : c.entries.lookup k with
  | none =>
    refine ⟨fun v hv' => ?_, h⟩
    cases hv'
  | some v =>
    have hmem : (k, v) ∈ c.entries := by
      obtain ⟨l1, l2, hl, -⟩ := List.lookup_eq_some_iff.mp hv
      rw [hl]
      simp
    refine ⟨fun w hw => ?_, h.front (h _ hmem)⟩
    rw [← Option.some.inj hw]
    exact h _ hmem

end Lru

end MxtChain.Lib
