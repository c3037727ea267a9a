/-
# MxtChain.Lib.Patricia.Delete — removing a word, and back to minimal form on the way up.

Taking a word out of a branching may leave it with a single arm. `collapse` then turns it into an
edge, and `merge` joins that edge with one that follows it directly, so that the result is minimal
again (`Minimal.delete`).
-/
import MxtChain.Lib.Patricia.Canonical

namespace MxtChain.Lib.Patricia

open List Function

variable {κ ν : Type} {i term j : κ} {cs : κ → Tree κ ν} {k key : List κ} {t : Tree κ ν}

/-! ## §1 — joining edges, collapsing branchings. -/

/-- **`merge k t`** — `t` below the label `k`; an edge on top of `t` is joined with the label. -/
def merge (k : List κ) : Tree κ ν → Tree κ ν
  | .short k' c => .short (k ++ k') c
  | .nil => .short k .nil
  | .value v => .short k (.value v)
  | .full cs => .short k (.full cs)

/-- `i` is the only filled arm of the branching. -/
def OnlyArm (cs : κ → Tree κ ν) (i : κ) : Prop := cs i ≠ .nil ∧ ∀ j, j ≠ i → cs j = .nil

open Classical in
/-- **`collapse cs`** — the branching `cs`, reduced to an edge when it has one arm only. -/
noncomputable def collapse (cs : κ → Tree κ ν) : Tree κ ν :=
  if h : ∃ i, OnlyArm cs i then merge [h.choose] (cs h.choose) else .full cs

theorem OnlyArm.unique (hi : OnlyArm cs i) (hj : OnlyArm cs j) : i = j := by
  by_contra h
  exact hi.1 (hj.2 i h)

theorem collapse_of_onlyArm (hi : OnlyArm cs i) : collapse cs = merge [i] (cs i) := by
  have h : ∃ i, OnlyArm cs i := ⟨i, hi⟩
  rw [collapse, dif_pos h, h.choose_spec.unique hi]

theorem collapse_of_two (hij : i ≠ j) (hi : cs i ≠ .nil) (hj : cs j ≠ .nil) :
    collapse cs = .full cs := by
  rw [collapse, dif_neg]
  rintro ⟨l, hl⟩
  have hil : i = l := by
    by_contra h
    exact hi (hl.2 i h)
  have hjl : j = l := by
    by_contra h
    exact hj (hl.2 j h)
  exact hij (hil.trans hjl.symm)

theorem merge_ne_nil (k : List κ) (t : Tree κ ν) : merge k t ≠ .nil := by
  cases t <;> simp [merge]

theorem collapse_ne_nil (cs : κ → Tree κ ν) : collapse cs ≠ .nil := by
  by_cases h : ∃ i, OnlyArm cs i
  · obtain ⟨i, hi⟩ := h
    rw [collapse_of_onlyArm hi]
    exact merge_ne_nil _ _
  · rw [collapse, dif_neg h]
    simp

theorem minimal_merge (hk : k ≠ []) (hn : term ∉ k)
    (ht : Minimal term t) : Minimal term (merge k t) := by
  cases t with
  | nil | value v => cases ht
  | full cs => exact minimal_ext hk hn ht
  | short k' c =>
    rcases ht with ⟨hw, v, rfl⟩ | ⟨_, hn', ⟨cs, rfl⟩, hc⟩
    · exact minimal_leaf ((word_append_of_notMem hn).mpr hw) v
    · refine minimal_ext (by simp [hk]) ?_ hc
      rw [mem_append, not_or]
      exact ⟨hn, hn'⟩

theorem minimal_merge_arm (h : Arm term i t) : Minimal term (merge [i] t) := by
  by_cases hi : i = term
  · obtain ⟨v, rfl⟩ := h.2 hi
    subst hi
    exact minimal_leaf (word_cons_term.mpr rfl) v
  · exact minimal_merge (by simp) (by simpa using fun h => hi h.symm) (h.1 hi)

/-- A branching all of whose filled arms are in order, with one arm at least, collapses to a
minimal tree. -/
theorem minimal_collapse (h : ∀ i, cs i ≠ .nil → Arm term i (cs i)) (h1 : ∃ i, cs i ≠ .nil) :
    Minimal term (collapse cs) := by
  by_cases hone : ∃ i, OnlyArm cs i
  · obtain ⟨i, hi⟩ := hone
    rw [collapse_of_onlyArm hi]
    exact minimal_merge_arm (h i hi.1)
  rw [collapse, dif_neg hone]
  apply minimal_full_of_arms h
  obtain ⟨i, hi⟩ := h1
  by_contra htwo
  refine hone ⟨i, hi, fun j hj => ?_⟩
  by_contra hjn
  exact htwo ⟨j, i, hj, hjn, hi⟩

section Delete

variable [DecidableEq κ]

theorem lookup_merge (k : List κ) (t : Tree κ ν) (key : List κ) :
    lookup (merge k t) key = lookup (.short k t) key := by
  cases t with
  | nil | value v | full cs => rfl
  | short k' c =>
    by_cases hk : k <+: key
    · obtain ⟨r, rfl⟩ := hk
      rw [lookup_short_append]
      by_cases hk' : k' <+: r
      · obtain ⟨s, rfl⟩ := hk'
        rw [← append_assoc, merge, lookup_short_append, lookup_short_append]
      rw [lookup_short_of_not hk', merge, lookup_short_of_not]
      rintro ⟨s, hs⟩
      rw [append_assoc, append_cancel_left_eq] at hs
      exact hk' ⟨s, hs⟩
    · rw [lookup_short_of_not hk, merge, lookup_short_of_not]
      rintro ⟨s, rfl⟩
      exact hk ⟨k' ++ s, by simp⟩

theorem lookup_collapse (cs : κ → Tree κ ν) (x : κ) (r : List κ) :
    lookup (collapse cs) (x :: r) = lookup (cs x) r := by
  by_cases h : ∃ i, OnlyArm cs i
  · obtain ⟨i, hi⟩ := h
    rw [collapse_of_onlyArm hi, lookup_merge]
    by_cases hxi : x = i
    · subst hxi
      exact lookup_short_append [x] r (cs x)
    rw [hi.2 x hxi, lookup_nil, lookup_short_of_not]
    rintro ⟨s, hs⟩
    rw [singleton_append, cons.injEq] at hs
    exact hxi hs.1.symm
  · rw [collapse, dif_neg h, lookup_full_cons]

/-! ## §2 — removing a word. -/

/-- **`delete t key`** — take the word `key` out of `t`, joining edges and collapsing branchings
on the way back up. -/
noncomputable def delete : Tree κ ν → List κ → Tree κ ν
  | .nil, _ => .nil
  | .value _, _ => .nil
  | .short k c, key =>
    if k <+: key then
      if key.drop k.length = [] then .nil else merge k (delete c (key.drop k.length))
    else .short k c
  | .full cs, [] => .full cs
  | .full cs, x :: r => collapse (update cs x (delete (cs x) r))

theorem delete_short_of_not (h : ¬ k <+: key) (c : Tree κ ν) :
    delete (.short k c) key = .short k c := by
  rw [delete, if_neg h]

theorem delete_short_self (k : List κ) (c : Tree κ ν) : delete (.short k c) k = .nil := by
  simp [delete]

theorem delete_short_append {r : List κ} (hr : r ≠ []) (c : Tree κ ν) :
    delete (.short k c) (k ++ r) = merge k (delete c r) := by
  simp [delete, hr]

@[simp] theorem delete_full_cons (cs : κ → Tree κ ν) (x : κ) (r : List κ) :
    delete (.full cs) (x :: r) = collapse (update cs x (delete (cs x) r)) := rfl

/-- **The specification of `delete`**: the removed word is gone, every other word reads as
before. -/
theorem lookup_delete : ∀ {t : Tree κ ν} {key other : List κ},
    Typed term t → Word term key → Word term other →
      lookup (delete t key) other = if other = key then none else lookup t other := by
  intro t
  induction t with
  | nil => intro key other _ _ _; simp [delete]
  | value w => intro key other ht; cases ht
  | short k c ih =>
    intro key other ht hkey hother
    by_cases hk : k <+: key
    · obtain ⟨r, rfl⟩ := hk
      rcases ht with ⟨hw, w, rfl⟩ | ⟨_, hn, hc⟩
      · rw [word_append_of_word hw] at hkey
        subst hkey
        rw [append_nil, delete_short_self, lookup_nil]
        split
        · rfl
        rename_i hne
        rw [eq_comm, lookup_short_of_not]
        rintro ⟨s, rfl⟩
        rw [word_append_of_word hw] at hother
        exact hne (by rw [hother, append_nil])
      · rw [word_append_of_notMem hn] at hkey
        rw [delete_short_append hkey.ne_nil, lookup_merge]
        by_cases hko : k <+: other
        · obtain ⟨s, rfl⟩ := hko
          rw [word_append_of_notMem hn] at hother
          simp only [lookup_short_append, ih hc hkey hother, append_cancel_left_eq]
        · rw [lookup_short_of_not hko, lookup_short_of_not hko, ite_self]
    · rw [delete_short_of_not hk]
      split
      · rename_i he
        rw [he, lookup_short_of_not hk]
      · rfl
  | full cs ih =>
    intro key other ht hkey hother
    cases key with
    | nil => cases hkey
    | cons x r =>
      cases other with
      | nil => cases hother
      | cons y s =>
        rw [delete_full_cons, lookup_collapse, lookup_full_cons]
        by_cases hyx : y = x
        · subst hyx
          rw [update_self]
          simp only [cons.injEq, true_and]
          by_cases hy : y = term
          · subst hy
            rw [word_cons_term] at hkey hother
            subst hkey hother
            rcases ht.2 with hn | ⟨w, hw⟩
            · simp [hn, delete]
            · simp [hw, delete]
          · rw [word_cons_of_ne hy] at hkey hother
            exact ih y (ht.1 y hy) hkey hother
        · simp [hyx]

/-- Removing a word from a minimal tree gives a canonical tree. -/
theorem Minimal.delete : ∀ {t : Tree κ ν} {key : List κ},
    Minimal term t → Word term key → Canon term (delete t key) := by
  intro t
  induction t with
  | nil | value w => intro key ht; cases ht
  | short k c ih =>
    intro key ht hkey
    by_cases hk : k <+: key
    · obtain ⟨r, rfl⟩ := hk
      rcases ht with ⟨hw, w, rfl⟩ | ⟨hne, hn, ⟨cs, rfl⟩, hc⟩
      · rw [word_append_of_word hw] at hkey
        subst hkey
        rw [append_nil, delete_short_self]
        exact canon_nil term
      rw [word_append_of_notMem hn] at hkey
      rw [delete_short_append hkey.ne_nil]
      -- below the label stood a branching, and what it collapses to is never empty
      rcases ih hc hkey with hnil | hm
      · cases r with
        | nil => cases hkey
        | cons x r => exact absurd hnil (collapse_ne_nil _)
      · exact (minimal_merge hne hn hm).canon
    · rw [delete_short_of_not hk]
      exact ht.canon
  | full cs ih =>
    intro key ht hkey
    cases key with
    | nil => cases hkey
    | cons x r =>
      apply Minimal.canon
      apply minimal_collapse
      · intro i hi
        by_cases hix : i = x
        · subst hix
          rw [update_self] at hi ⊢
          rcases hkey with ⟨rfl, rfl⟩ | ⟨hx, hr⟩
          · rcases ht.2.1 with hn | ⟨w, hw⟩
            · rw [hn] at hi
              exact absurd rfl hi
            · rw [hw] at hi
              exact absurd rfl hi
          · refine ⟨fun _ => ?_, fun h => absurd h hx⟩
            rcases ht.1 i hx with hn | hm
            · rw [hn] at hi
              exact absurd rfl hi
            · exact (ih i hm hr).resolve_left hi
        · rw [update_of_ne hix] at hi ⊢
          exact ht.arm hi
      · obtain ⟨i, j, hij, hi, hj⟩ := ht.2.2
        by_cases hix : i = x
        · refine ⟨j, ?_⟩
          rwa [update_of_ne (fun h => hij (hix.trans h.symm))]
        · refine ⟨i, ?_⟩
          rwa [update_of_ne hix]

theorem Canon.delete (ht : Canon term t) (hkey : Word term key) : Canon term (delete t key) := by
  rcases ht with rfl | ht
  · exact canon_nil term
  · exact ht.delete hkey

end Delete

end MxtChain.Lib.Patricia
