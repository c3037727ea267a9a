/-
# MxtChain.Lib.Patricia.Canonical — the minimal form of a tree, and that it is unique.

A typed tree is minimal when every branching has at least two arms, every edge has a label and no
edge hangs directly below an edge. The minimal form is a function of the contents alone:
`Canon.ext` says that two canonical trees which agree on every word are the same tree. `insert`
and `delete` stay inside the minimal form, so the history that led to a tree leaves no trace in it.
-/
import MxtChain.Lib.Patricia.Tree

namespace MxtChain.Lib.Patricia

open List Function

variable {κ ν : Type} {k p key k' : List κ} {t c u c' s : Tree κ ν} {term i b a j x : κ}
  {cs : κ → Tree κ ν}

/-! ## §1 — minimal trees. -/

/-- **`Minimal term t`** — `t` holds something and wastes nothing: leaves carry a word, inner edges
carry a nonempty label and lead to a branching, branchings have two arms or more. -/
def Minimal (term : κ) : Tree κ ν → Prop
  | .nil => False
  | .value _ => False
  | .short k c => (Word term k ∧ ∃ v, c = .value v) ∨
      (k ≠ [] ∧ term ∉ k ∧ (∃ cs, c = .full cs) ∧ Minimal term c)
  | .full cs => (∀ i, i ≠ term → cs i = .nil ∨ Minimal term (cs i)) ∧
      (cs term = .nil ∨ ∃ v, cs term = .value v) ∧ ∃ i j, i ≠ j ∧ cs i ≠ .nil ∧ cs j ≠ .nil

/-- **`Canon term t`** — the tree is empty or minimal. -/
def Canon (term : κ) (t : Tree κ ν) : Prop := t = .nil ∨ Minimal term t

theorem canon_nil (term : κ) : Canon term (.nil : Tree κ ν) := .inl rfl

theorem Minimal.canon (h : Minimal term t) : Canon term t := .inr h

theorem Minimal.ne_nil (h : Minimal term t) : t ≠ .nil := by
  rintro rfl
  exact h

theorem Minimal.typed : ∀ {t : Tree κ ν}, Minimal term t → Typed term t := by
  intro t
  induction t with
  | nil | value v => intro h; cases h
  | short k c ih =>
    rintro (⟨hk, hv⟩ | ⟨hne, hn, _, hc⟩)
    · exact .inl ⟨hk, hv⟩
    · exact .inr ⟨hne, hn, ih hc⟩
  | full cs ih =>
    rintro ⟨hs, ht, _⟩
    refine ⟨fun i hi => ?_, ht⟩
    rcases hs i hi with h | h
    · rw [h]
      trivial
    · exact ih i h

theorem Canon.typed (h : Canon term t) : Typed term t := by
  rcases h with rfl | h
  · trivial
  · exact h.typed

theorem minimal_leaf (hk : Word term k) (v : ν) : Minimal term (.short k (.value v)) :=
  .inl ⟨hk, v, rfl⟩

theorem minimal_ext (hk : k ≠ []) (hn : term ∉ k) (hc : Minimal term (.full cs)) :
    Minimal term (.short k (.full cs)) :=
  .inr ⟨hk, hn, ⟨cs, rfl⟩, hc⟩

theorem minimal_attach_full (hp : term ∉ p) (hc : Minimal term (.full cs)) :
    Minimal term (attach p (.full cs)) := by
  cases p with
  | nil => exact hc
  | cons x p => exact minimal_ext (cons_ne_nil _ _) hp hc

/-- A filled arm of a minimal branching: a value behind `term`, a minimal tree elsewhere. -/
def Arm (term i : κ) (t : Tree κ ν) : Prop :=
  (i ≠ term → Minimal term t) ∧ (i = term → ∃ v, t = .value v)

theorem Arm.ne_nil (h : Arm term i t) : t ≠ .nil := by
  rintro rfl
  by_cases hi : i = term
  · obtain ⟨v, hv⟩ := h.2 hi
    cases hv
  · exact h.1 hi

theorem arm_rest (h : Word term (b :: key)) (v : ν) : Arm term b (attach key (.value v)) := by
  rcases h with ⟨rfl, rfl⟩ | ⟨hb, hk⟩
  · exact ⟨fun h => absurd rfl h, fun _ => ⟨v, rfl⟩⟩
  · refine ⟨fun _ => ?_, fun h => absurd h hb⟩
    rw [attach_of_ne_nil hk.ne_nil]
    exact minimal_leaf hk v

/-- What is left of a minimal edge behind a fork is an arm of the new branching. -/
theorem arm_cut (ht : Minimal term (.short (p ++ a :: k) c))
    (hp : term ∉ p) : Arm term a (attach k c) := by
  rcases ht with ⟨hw, v, rfl⟩ | ⟨_, hn, ⟨cs, rfl⟩, hc⟩
  · rw [word_append_of_notMem hp] at hw
    exact arm_rest hw v
  · simp only [mem_append, mem_cons, not_or] at hn
    exact ⟨fun _ => minimal_attach_full hn.2.2 hc, fun h => absurd h.symm hn.2.1⟩

theorem Minimal.arm (h : Minimal term (.full cs)) (hi : cs i ≠ .nil) : Arm term i (cs i) := by
  constructor
  · intro hit
    rcases h.1 i hit with hn | hm
    · exact absurd hn hi
    · exact hm
  · rintro rfl
    rcases h.2.1 with hn | hv
    · exact absurd hn hi
    · exact hv

theorem minimal_full_of_arms (h : ∀ i, cs i ≠ .nil → Arm term i (cs i))
    (h2 : ∃ i j, i ≠ j ∧ cs i ≠ .nil ∧ cs j ≠ .nil) : Minimal term (.full cs) := by
  refine ⟨fun i hi => ?_, ?_, h2⟩
  · by_cases hn : cs i = .nil
    · exact .inl hn
    · exact .inr ((h i hn).1 hi)
  · by_cases hn : cs term = .nil
    · exact .inl hn
    · exact .inr ((h term hn).2 rfl)

/-! ## §2 — the minimal form is determined by its contents. -/

section Unique

variable [DecidableEq κ]

theorem Minimal.exists_lookup : ∀ {t : Tree κ ν}, Minimal term t →
    ∃ w v, Word term w ∧ lookup t w = some v := by
  intro t
  induction t with
  | nil | value v => intro h; cases h
  | short k c ih =>
    rintro (⟨hk, v, rfl⟩ | ⟨_, hn, _, hc⟩)
    · exact ⟨k, v, hk, lookup_short_self k _⟩
    · obtain ⟨w, v, hw, hl⟩ := ih hc
      exact ⟨k ++ w, v, (word_append_of_notMem hn).mpr hw, by rw [lookup_short_append, hl]⟩
  | full cs ih =>
    rintro ⟨hs, ht, i, j, hij, hi, hj⟩
    -- one of the two arms is not the one behind `term`
    have harm : ∃ x, x ≠ term ∧ Minimal term (cs x) := by
      by_cases hit : i = term
      · have hjt : j ≠ term := fun h => hij (hit.trans h.symm)
        exact ⟨j, hjt, (hs j hjt).resolve_left hj⟩
      · exact ⟨i, hit, (hs i hit).resolve_left hi⟩
    obtain ⟨x, hx, hm⟩ := harm
    obtain ⟨w, v, hw, hl⟩ := ih x hm
    exact ⟨x :: w, v, (word_cons_of_ne hx).mpr hw, hl⟩

/-- A filled arm holds the rest of a word. -/
theorem Arm.exists_lookup (h : Arm term i t) : ∃ r v, Word term (i :: r) ∧ lookup t r = some v := by
  by_cases hi : i = term
  · obtain ⟨v, rfl⟩ := h.2 hi
    exact ⟨[], v, .inl ⟨hi, rfl⟩, rfl⟩
  · obtain ⟨w, v, hw, hl⟩ := (h.1 hi).exists_lookup
    exact ⟨w, v, (word_cons_of_ne hi).mpr hw, hl⟩

/-- A minimal branching holds two words that differ in their first letter. -/
theorem Minimal.exists_two (h : Minimal term (.full cs)) :
    ∃ i r j s, i ≠ j ∧ Word term (i :: r) ∧ Word term (j :: s) ∧
      (∃ v, lookup (.full cs) (i :: r) = some v) ∧ ∃ v, lookup (.full cs) (j :: s) = some v := by
  obtain ⟨i, j, hij, hi, hj⟩ := h.2.2
  obtain ⟨r, v, hr, hlr⟩ := (h.arm hi).exists_lookup
  obtain ⟨s, u, hs, hls⟩ := (h.arm hj).exists_lookup
  exact ⟨i, r, j, s, hij, hr, hs, ⟨v, hlr⟩, u, hls⟩

omit [DecidableEq κ] in
/-- A common beginning of two lists that part ways right behind `k` ends inside `k`. -/
theorem isPrefix_of_fork (hij : i ≠ j) : ∀ {l k r s : List κ},
    l <+: k ++ i :: r → l <+: k ++ j :: s → l <+: k
  | [], k, r, s, _, _ => nil_prefix
  | x :: l, [], r, s, h1, h2 => by
    rw [nil_append, cons_prefix_cons] at h1 h2
    exact absurd (h1.1.symm.trans h2.1) hij
  | x :: l, y :: k, r, s, h1, h2 => by
    rw [cons_append, cons_prefix_cons] at h1 h2
    rw [cons_prefix_cons]
    exact ⟨h1.1, isPrefix_of_fork hij h1.2 h2.2⟩

/-- Every word below an edge starts with the edge's label, so the labels of two edges over
branchings with the same contents agree. -/
theorem label_isPrefix (hn : term ∉ k) (hc : Minimal term (.full cs))
    (h : ∀ w, Word term w → lookup (.short k (.full cs)) w = lookup (.short k' c') w) :
    k' <+: k := by
  obtain ⟨i, r, j, s, hij, hr, hs, ⟨v, hv⟩, u, hu⟩ := hc.exists_two
  have h1 := h (k ++ i :: r) ((word_append_of_notMem hn).mpr hr)
  have h2 := h (k ++ j :: s) ((word_append_of_notMem hn).mpr hs)
  rw [lookup_short_append, hv] at h1
  rw [lookup_short_append, hu] at h2
  obtain ⟨_, e1, _⟩ := lookup_short_eq_some.mp h1.symm
  obtain ⟨_, e2, _⟩ := lookup_short_eq_some.mp h2.symm
  exact isPrefix_of_fork hij ⟨_, e1.symm⟩ ⟨_, e2.symm⟩

/-- A leaf holds one word only, a minimal branching (below a label or not) holds two. -/
theorem leaf_ne_attach_full {v : ν} (hp : term ∉ p) (hc : Minimal term (.full cs))
    (h : ∀ w, Word term w → lookup (.short k (.value v)) w = lookup (attach p (.full cs)) w) :
    False := by
  obtain ⟨i, r, j, s, hij, hr, hs, ⟨x, hx⟩, y, hy⟩ := hc.exists_two
  have h1 := h (p ++ i :: r) ((word_append_of_notMem hp).mpr hr)
  have h2 := h (p ++ j :: s) ((word_append_of_notMem hp).mpr hs)
  rw [lookup_attach_append, hx] at h1
  rw [lookup_attach_append, hy] at h2
  have only : ∀ {w z}, lookup (.short k (.value v) : Tree κ ν) w = some z → w = k := by
    intro w z hw
    obtain ⟨q, rfl, hq⟩ := lookup_short_eq_some.mp hw
    cases q with
    | nil => exact append_nil k
    | cons a q => cases hq
  have he := (only h1).trans (only h2).symm
  rw [append_cancel_left_eq, cons.injEq] at he
  exact hij he.1

/-- An edge fixes the first letter of everything below it, a minimal branching does not. -/
theorem ext_ne_full (hk : k ≠ []) (hc : Minimal term (.full cs))
    (h : ∀ w, Word term w → lookup (.short k c) w = lookup (.full cs) w) : False := by
  obtain ⟨i, r, j, s, hij, hr, hs, ⟨x, hx⟩, y, hy⟩ := hc.exists_two
  have h1 := h _ hr
  have h2 := h _ hs
  rw [hx] at h1
  rw [hy] at h2
  obtain ⟨q1, e1, _⟩ := lookup_short_eq_some.mp h1
  obtain ⟨q2, e2, _⟩ := lookup_short_eq_some.mp h2
  cases k with
  | nil => exact hk rfl
  | cons a k =>
    rw [cons_append, cons.injEq] at e1 e2
    exact hij (e1.1.trans e2.1.symm)

/-- **Minimal trees with the same contents are equal.** -/
theorem Minimal.ext : ∀ {t u : Tree κ ν}, Minimal term t → Minimal term u →
    (∀ w, Word term w → lookup t w = lookup u w) → t = u := by
  intro t
  induction t with
  | nil | value v => intro u ht; cases ht
  | short k c ih =>
    intro u ht hu h
    rcases ht with ⟨hk, v, rfl⟩ | ⟨hk, hn, ⟨cs, rfl⟩, hc⟩
    · cases u with
      | nil | value w => cases hu
      | short k' c' =>
        rcases hu with ⟨hk', v', rfl⟩ | ⟨hk', hn', ⟨cs', rfl⟩, hc'⟩
        · have h1 := h k hk
          rw [lookup_short_self, lookup_value_nil] at h1
          obtain ⟨r, rfl, hr⟩ := lookup_short_eq_some.mp h1.symm
          rw [word_append_of_word hk'] at hk
          subst hk
          rw [lookup_value_nil, Option.some.injEq] at hr
          rw [append_nil, hr]
        · refine absurd (fun w hw => ?_) (leaf_ne_attach_full (k := k) (v := v) hn' hc')
          rw [attach_of_ne_nil hk']
          exact h w hw
      | full cs' => exact absurd h (leaf_ne_attach_full (p := []) (by simp) hu)
    · cases u with
      | nil | value w => cases hu
      | short k' c' =>
        rcases hu with ⟨hk', v', rfl⟩ | ⟨hk', hn', ⟨cs', rfl⟩, hc'⟩
        · refine absurd (fun w hw => ?_) (leaf_ne_attach_full (k := k') (v := v') hn hc)
          rw [attach_of_ne_nil hk]
          exact (h w hw).symm
        have h1 : k <+: k' := label_isPrefix hn' hc' fun w hw => (h w hw).symm
        have h2 : k' <+: k := label_isPrefix hn hc h
        obtain rfl : k = k' := h1.eq_of_length (le_antisymm h1.length_le h2.length_le)
        congr 1
        refine ih hc hc' fun w hw => ?_
        have := h (k ++ w) ((word_append_of_notMem hn).mpr hw)
        rwa [lookup_short_append, lookup_short_append] at this
      | full cs' => exact absurd h (ext_ne_full hk hu)
  | full cs ih =>
    intro u ht hu h
    cases u with
    | nil | value w => cases hu
    | short k' c' =>
      rcases hu with ⟨hk', v', rfl⟩ | ⟨hk', hn', ⟨cs', rfl⟩, hc'⟩
      · exact absurd (fun w hw => (h w hw).symm) (leaf_ne_attach_full (p := []) (by simp) ht)
      · exact absurd (fun w hw => (h w hw).symm) (ext_ne_full hk' ht)
    | full cs' =>
      congr 1
      funext i
      have hi : ∀ r, Word term (i :: r) → lookup (cs i) r = lookup (cs' i) r := fun r hr => h _ hr
      -- an arm is filled on one side exactly when it is on the other
      by_cases hn : cs i = .nil
      · by_cases hn' : cs' i = .nil
        · rw [hn, hn']
        obtain ⟨r, v, hr, hl⟩ := (hu.arm hn').exists_lookup
        have := hi r hr
        rw [hn, hl] at this
        cases this
      by_cases hn' : cs' i = .nil
      · obtain ⟨r, v, hr, hl⟩ := (ht.arm hn).exists_lookup
        have := hi r hr
        rw [hn', hl] at this
        cases this
      by_cases hit : i = term
      · obtain ⟨v, hv⟩ := (ht.arm hn).2 hit
        obtain ⟨v', hv'⟩ := (hu.arm hn').2 hit
        have := hi [] (.inl ⟨hit, rfl⟩)
        rw [hv, hv', lookup_value_nil, lookup_value_nil, Option.some.injEq] at this
        rw [hv, hv', this]
      · exact ih i ((ht.arm hn).1 hit) ((hu.arm hn').1 hit)
          fun w hw => hi w ((word_cons_of_ne hit).mpr hw)

/-- **Canonical trees with the same contents are equal.** -/
theorem Canon.ext (ht : Canon term t) (hu : Canon term u)
    (h : ∀ w, Word term w → lookup t w = lookup u w) : t = u := by
  rcases ht with rfl | ht <;> rcases hu with rfl | hu
  · rfl
  · obtain ⟨w, v, hw, hl⟩ := hu.exists_lookup
    rw [← h w hw] at hl
    cases hl
  · obtain ⟨w, v, hw, hl⟩ := ht.exists_lookup
    rw [h w hw] at hl
    cases hl
  · exact ht.ext hu h

end Unique

/-! ## §3 — writing keeps the minimal form. -/

section Insert

variable [DecidableEq κ]

/-- The branching at a fork has exactly the two arms it was built from. -/
theorem minimal_pair (hab : a ≠ b) (hs : Arm term a s)
    (hu : Arm term b u) : Minimal term (.full (pair a s b u)) := by
  apply minimal_full_of_arms
  · intro i hi
    by_cases hib : i = b
    · subst hib
      rw [pair_right]
      exact hu
    by_cases hia : i = a
    · subst hia
      rw [pair_left hab]
      exact hs
    · exact absurd (pair_other hia hib s u) hi
  · exact ⟨a, b, hab, by rw [pair_left hab]; exact hs.ne_nil, by rw [pair_right]; exact hu.ne_nil⟩

/-- Replacing an arm of a minimal branching by another filled arm. -/
theorem minimal_update (h : Minimal term (.full cs)) (hu : Arm term x u) :
    Minimal term (.full (update cs x u)) := by
  apply minimal_full_of_arms
  · intro i hi
    by_cases hix : i = x
    · subst hix
      rw [update_self]
      exact hu
    · rw [update_of_ne hix] at hi ⊢
      exact h.arm hi
  · obtain ⟨i, j, hij, hi, hj⟩ := h.2.2
    -- whichever of the two arms was overwritten is still filled
    have keep : ∀ l, cs l ≠ .nil → update cs x u l ≠ .nil := by
      intro l hl
      by_cases hlx : l = x
      · subst hlx
        rw [update_self]
        exact hu.ne_nil
      · rwa [update_of_ne hlx]
    exact ⟨i, j, hij, keep i hi, keep j hj⟩

/-- Writing a word into a minimal tree gives a minimal tree. -/
theorem Minimal.insert (v : ν) : ∀ {t : Tree κ ν} {key : List κ},
    Minimal term t → Word term key → Minimal term (insert v t key) := by
  intro t
  induction t with
  | nil | value w => intro key ht; cases ht
  | short k c ih =>
    intro key ht hkey
    rcases word_label_cases hkey ht.typed with ⟨r, rfl⟩ | ⟨p, a, b, k', r, hab, rfl, rfl, hp⟩
    · rw [insert_short_append v hkey.ne_nil]
      rcases ht with ⟨hw, w, rfl⟩ | ⟨hk, hn, ⟨cs, rfl⟩, hc⟩
      · rw [word_append_of_word hw] at hkey
        subst hkey
        exact minimal_leaf hw v
      rw [word_append_of_notMem hn] at hkey
      have hm := ih hc hkey
      cases r with
      | nil => cases hkey
      | cons x r =>
        exact minimal_ext hk hn hm
    · rw [insert_short_fork v hab]
      rw [word_append_of_notMem hp] at hkey
      exact minimal_attach_full hp (minimal_pair hab (arm_cut ht hp) (arm_rest hkey v))
  | full cs ih =>
    intro key ht hkey
    cases key with
    | nil => cases hkey
    | cons x r =>
      apply minimal_update ht
      rcases hkey with ⟨rfl, rfl⟩ | ⟨hx, hr⟩
      · exact ⟨fun h => absurd rfl h, fun _ => ⟨v, insert_key_nil v _⟩⟩
      refine ⟨fun _ => ?_, fun h => absurd h hx⟩
      rcases ht.1 x hx with hn | hm
      · rw [hn, insert_nil hr.ne_nil]
        exact minimal_leaf hr v
      · exact ih x hm hr

theorem Canon.insert (v : ν) (ht : Canon term t)
    (hkey : Word term key) : Minimal term (insert v t key) := by
  rcases ht with rfl | ht
  · rw [insert_nil hkey.ne_nil]
    exact minimal_leaf hkey v
  · exact ht.insert v hkey

end Insert

end MxtChain.Lib.Patricia
