/-
# MxtChain.Lib.Patricia.Order — the order of words, and the part of a tree between two of them

Words over an ordered alphabet are compared at the letter where they part. No word is a proper
beginning of another, so any two different words do part, and `Before` is a strict total order on
words.
-/
import MxtChain.Lib.Patricia.Canonical

namespace MxtChain.Lib.Patricia

open List

variable {κ ν : Type} [LinearOrder κ] {n : Nat} {term x y : κ} {cs : κ → Tree κ ν}

/-! ## §1 — the order of words. -/

/-- **`Before a b`** — where `a` and `b` part, `a` reads the smaller letter. -/
def Before (a b : List κ) : Prop := ∃ p x y r s, a = p ++ x :: r ∧ b = p ++ y :: s ∧ x < y

theorem before_fork (h : x < y) (p r s : List κ) : Before (p ++ x :: r) (p ++ y :: s) :=
  ⟨p, x, y, r, s, rfl, rfl, h⟩

theorem not_before_nil_left (b : List κ) : ¬ Before [] b := by
  rintro ⟨p, x, y, r, s, h, _⟩
  exact absurd h (by simp)

theorem not_before_nil_right (a : List κ) : ¬ Before a [] := by
  rintro ⟨p, x, y, r, s, _, h, _⟩
  exact absurd h (by simp)

@[simp] theorem before_cons {a b : List κ} :
    Before (x :: a) (y :: b) ↔ x < y ∨ (x = y ∧ Before a b) := by
  constructor
  · rintro ⟨p, u, v, r, s, ha, hb, huv⟩
    cases p with
    | nil =>
      rw [nil_append, cons.injEq] at ha hb
      rw [ha.1, hb.1]
      exact .inl huv
    | cons z p =>
      rw [cons_append, cons.injEq] at ha hb
      exact .inr ⟨ha.1.trans hb.1.symm, p, u, v, r, s, ha.2, hb.2, huv⟩
  · rintro (hxy | ⟨rfl, p, u, v, r, s, rfl, rfl, huv⟩)
    · exact before_fork hxy [] a b
    · exact before_fork huv (x :: p) r s

@[simp] theorem before_append_left (p a b : List κ) : Before (p ++ a) (p ++ b) ↔ Before a b := by
  induction p with
  | nil => rfl
  | cons x p ih => simp [ih]

theorem Before.irrefl (a : List κ) : ¬ Before a a := by
  induction a with
  | nil => exact not_before_nil_left []
  | cons x a ih => simp [ih]

theorem Before.asymm : ∀ {a b : List κ}, Before a b → ¬ Before b a
  | [], b, h => absurd h (not_before_nil_left b)
  | x :: a, [], h => absurd h (not_before_nil_right _)
  | x :: a, y :: b, h => by
    rw [before_cons] at h ⊢
    rcases h with hxy | ⟨rfl, h⟩
    · rintro (hyx | ⟨hyx, _⟩)
      · exact absurd hxy (not_lt.mpr (le_of_lt hyx))
      · exact absurd hxy (by rw [hyx]; exact lt_irrefl _)
    · rintro (hyx | ⟨_, h'⟩)
      · exact absurd hyx (lt_irrefl _)
      · exact h.asymm h'

theorem Before.trans : ∀ {a b c : List κ}, Before a b → Before b c → Before a c
  | [], b, _, h, _ => absurd h (not_before_nil_left b)
  | x :: a, [], _, h, _ => absurd h (not_before_nil_right _)
  | x :: a, y :: b, [], _, h => absurd h (not_before_nil_right _)
  | x :: a, y :: b, z :: c, h, h' => by
    rw [before_cons] at h h' ⊢
    rcases h with hxy | ⟨rfl, h⟩ <;> rcases h' with hyz | ⟨rfl, h'⟩
    · exact .inl (lt_trans hxy hyz)
    · exact .inl hxy
    · exact .inl hyz
    · exact .inr ⟨rfl, h.trans h'⟩

/-- **`Between l r w`** — `w` lies between the words `l` and `r`, both included. -/
def Between (l r w : List κ) : Prop := ¬ Before w l ∧ ¬ Before r w

/-- What leaves a word at a fork stays on that side of it, however it goes on. -/
theorem Before.append {a b : List κ} (h : Before a b) (r s : List κ) :
    Before (a ++ r) (b ++ s) := by
  obtain ⟨p, x, y, u, v, rfl, rfl, hxy⟩ := h
  rw [append_assoc, append_assoc]
  exact before_fork hxy p _ _

/-! ## §2 — trees with keys of one length. -/

/-- **`Uniform n t`** — every key of `t` has `n` letters. -/
def Uniform (n : Nat) (t : Tree κ ν) : Prop := ∀ w v, lookup t w = some v → w.length = n

theorem Uniform.child {k : List κ} {c : Tree κ ν}
    (h : Uniform (k.length + n) (.short k c)) : Uniform n c := by
  intro w v hw
  have := h (k ++ w) v (by rw [lookup_short_append, hw])
  rw [length_append] at this
  omega

theorem Uniform.arm (h : Uniform (n + 1) (.full cs)) (i : κ) : Uniform n (cs i) := by
  intro w v hw
  have := h (i :: w) v hw
  rw [length_cons] at this
  omega

/-- A branching has keys of two letters at least. -/
theorem Uniform.two_le (h : Uniform n (.full cs)) (hm : Minimal term (.full cs)) : 2 ≤ n := by
  obtain ⟨i, r, j, s, hij, hr, hs, ⟨x, hx⟩, y, hy⟩ := hm.exists_two
  have h1 := h _ _ hx
  have h2 := h _ _ hy
  rw [length_cons] at h1 h2
  rcases hr with ⟨rfl, rfl⟩ | ⟨_, hr⟩
  · rcases hs with ⟨rfl, _⟩ | ⟨_, hs⟩
    · exact absurd rfl hij
    · have := length_pos_iff.mpr hs.ne_nil
      omega
  · have := length_pos_iff.mpr hr.ne_nil
    omega

/-- No key of a branching ends right there. -/
theorem Uniform.term_arm (h : Uniform n (.full cs)) (hm : Minimal term (.full cs)) :
    cs term = .nil := by
  rcases hm.2.1 with hn | ⟨v, hv⟩
  · exact hn
  have h1 := h [term] v (by rw [lookup_full_cons, hv, lookup_value_nil])
  have h2 := h.two_le hm
  rw [length_singleton] at h1
  omega

/-- The letter that a key of the right length reads at a branching is not the last one. -/
theorem Uniform.head_ne {r : List κ} (h : Uniform (x :: r).length (.full cs))
    (hm : Minimal term (.full cs)) (hw : Word term (x :: r)) : x ≠ term ∧ Word term r := by
  have h2 := h.two_le hm
  rcases hw with ⟨rfl, rfl⟩ | hx
  · simp at h2
  · exact hx

/-! ## §3 — what the shape of a tree has behind a path. -/

/-- **`RightOf t key`** — some edge or branching of `t` leaves the path of `key` upwards. -/
def RightOf (term : κ) : Tree κ ν → List κ → Prop
  | .nil, _ => False
  | .value _, _ => False
  | .short k c, key => if k <+: key then RightOf term c (key.drop k.length) else Before key k
  | .full _, [] => False
  | .full cs, x :: r => (∃ i, x < i ∧ i ≠ term ∧ cs i ≠ .nil) ∨ RightOf term (cs x) r

theorem rightOf_short_append (k r : List κ) (c : Tree κ ν) :
    RightOf term (.short k c) (k ++ r) ↔ RightOf term c r := by
  rw [RightOf, if_pos (prefix_append k r), drop_left]

theorem rightOf_short_of_not {k key : List κ} (h : ¬ k <+: key) (c : Tree κ ν) :
    RightOf term (.short k c) key ↔ Before key k := by
  rw [RightOf, if_neg h]

/-- Whatever keys are behind a path show in the shape. -/
theorem rightOf_of_lookup {v : ν} : ∀ {t : Tree κ ν}
    {key w : List κ}, Word term key → Word term w → key.length = w.length →
      lookup t w = some v → Before key w → RightOf term t key := by
  intro t
  induction t with
  | nil => intro key w _ _ _ h; cases h
  | value u =>
    intro key w _ _ _ h hb
    cases w with
    | nil => exact absurd hb (not_before_nil_right key)
    | cons x r => cases h
  | short k c ih =>
    intro key w hkey hw hlen h hb
    obtain ⟨s, rfl, hs⟩ := lookup_short_eq_some.mp h
    by_cases hk : k <+: key
    · obtain ⟨r, rfl⟩ := hk
      rw [before_append_left] at hb
      rw [rightOf_short_append]
      rw [length_append, length_append, Nat.add_left_cancel_iff] at hlen
      rcases word_append_iff.mp hw with ⟨hn, hws⟩ | ⟨hwk, rfl⟩
      · exact ih ((word_append_of_notMem hn).mp hkey) hws hlen hs hb
      · exact absurd hb (not_before_nil_right r)
    rw [rightOf_short_of_not hk]
    obtain ⟨p, x, y, r, s', rfl, hks, hxy⟩ := hb
    rcases append_eq_append_iff.mp hks with ⟨a, ha, hb'⟩ | ⟨d, hd, hb'⟩
    · exact absurd ⟨a ++ x :: r, by rw [ha, append_assoc]⟩ hk
    cases d with
    | nil =>
      rw [append_nil] at hd
      exact absurd ⟨x :: r, by rw [hd]⟩ hk
    | cons z d =>
      rw [cons_append, cons.injEq] at hb'
      rw [hd, ← hb'.1]
      exact before_fork hxy p r d
  | full cs ih =>
    intro key w hkey hw hlen h hb
    cases w with
    | nil => cases h
    | cons i s =>
      cases key with
      | nil => exact absurd hb (not_before_nil_left _)
      | cons x r =>
        rw [lookup_full_cons] at h
        rw [length_cons, length_cons, Nat.add_right_cancel_iff] at hlen
        rcases before_cons.mp hb with hxi | ⟨rfl, hb'⟩
        · refine .inl ⟨i, hxi, ?_, ?_⟩
          · -- a key that ends here is as long as the other one, which ends here too
            rintro rfl
            rw [word_cons_term] at hw
            rw [hw, length_nil, length_eq_zero_iff] at hlen
            subst hlen
            rcases hkey with ⟨rfl, _⟩ | ⟨_, hr⟩
            · exact absurd hxi (lt_irrefl _)
            · exact hr
          · intro hn
            rw [hn] at h
            cases h
        · rcases hkey with ⟨rfl, rfl⟩ | ⟨hx, hkey⟩
          · exact absurd hb' (not_before_nil_left s)
          · rw [word_cons_of_ne hx] at hw
            exact .inr (ih x hkey hw hlen h hb')

/-- In a minimal tree everything in the shape leads to a key. -/
theorem exists_of_rightOf : ∀ {t : Tree κ ν} {key : List κ}, Canon term t →
    Word term key → RightOf term t key → ∃ w v, lookup t w = some v ∧ Before key w := by
  intro t
  induction t with
  | nil | value v => intro key _ _ h; cases h
  | short k c ih =>
    intro key hc hkey h
    have hm : Minimal term (.short k c) := hc.resolve_left (by simp)
    rcases word_label_cases hkey hm.typed with ⟨r, rfl⟩ | ⟨p, a, b, k', r, hab, rfl, rfl, hp⟩
    · rw [rightOf_short_append] at h
      rcases hm with ⟨hk, v, rfl⟩ | ⟨_, hn, _, hm'⟩
      · cases h
      · obtain ⟨w, v, hw, hb⟩ := ih hm'.canon ((word_append_of_notMem hn).mp hkey) h
        exact ⟨k ++ w, v, by rw [lookup_short_append, hw], (before_append_left k r w).mpr hb⟩
    have hnot : ¬ p ++ a :: k' <+: p ++ b :: r := by
      rintro ⟨s, hs⟩
      rw [append_assoc, append_cancel_left_eq, cons_append, cons.injEq] at hs
      exact hab hs.1
    rw [rightOf_short_of_not hnot] at h
    obtain ⟨w, v, _, hw⟩ := hm.exists_lookup
    obtain ⟨s, rfl, hs⟩ := lookup_short_eq_some.mp hw
    refine ⟨_, v, hw, ?_⟩
    have hlong := h.append [] s
    rwa [append_nil] at hlong
  | full cs ih =>
    intro key hc hkey h
    have hm : Minimal term (.full cs) := hc.resolve_left (by simp)
    cases key with
    | nil => cases h
    | cons x r =>
      rcases h with ⟨i, hxi, hi, hne⟩ | h
      · obtain ⟨w, v, _, hw⟩ := (hm.arm hne).exists_lookup
        exact ⟨i :: w, v, hw, before_cons.mpr (.inl hxi)⟩
      rcases hkey with ⟨rfl, rfl⟩ | ⟨hx, hr⟩
      · rcases hm.2.1 with hn | ⟨v, hv⟩
        · rw [hn] at h
          cases h
        · rw [hv] at h
          cases h
      · obtain ⟨w, v, hw, hb⟩ := ih x (hm.1 x hx) hr h
        exact ⟨x :: w, v, hw, before_cons.mpr (.inr ⟨rfl, hb⟩)⟩

end MxtChain.Lib.Patricia
