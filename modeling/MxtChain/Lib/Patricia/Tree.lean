/-
# MxtChain.Lib.Patricia.Tree — path-compressed trees over an arbitrary alphabet.

The tree carries its values at the end of its paths and compresses every run without a branching
into one `short` edge. Nothing here knows about hashing, storage or a particular program: `κ` is
the alphabet, `ν` the values, and `term : κ` a letter that ends every word.

`Typed` says nothing about minimality; the minimal form is `Canonical.lean`.
-/
import Mathlib

namespace MxtChain.Lib.Patricia

open List Function

/-- A path-compressed tree: nothing, a value, an edge labelled by several letters, or a branching
by one letter. -/
inductive Tree (κ ν : Type) where
  | nil : Tree κ ν
  | value (v : ν) : Tree κ ν
  | short (key : List κ) (child : Tree κ ν) : Tree κ ν
  | full (children : κ → Tree κ ν) : Tree κ ν

variable {κ ν : Type} {c t s u : Tree κ ν} {term x y : κ} {rest w key p k r : List κ} {v : ν}

/-! ## §1 — words and common beginnings. -/

/-- **`Word term w`** — `w` ends in `term` and reads it nowhere else. -/
def Word (term : κ) : List κ → Prop
  | [] => False
  | x :: rest => (x = term ∧ rest = []) ∨ (x ≠ term ∧ Word term rest)

variable {a b k : List κ}

theorem word_cons_of_ne (hx : x ≠ term) : Word term (x :: rest) ↔ Word term rest := by
  simp [Word, hx]

theorem word_cons_term : Word term (term :: rest) ↔ rest = [] := by
  simp [Word]

theorem Word.ne_nil (hw : Word term w) : w ≠ [] := by
  rintro rfl
  exact hw

theorem Word.term_mem : ∀ {w : List κ}, Word term w → term ∈ w
  | x :: rest, h => by
    rcases h with ⟨rfl, _⟩ | ⟨_, h⟩
    · exact mem_cons_self
    · exact mem_cons_of_mem _ h.term_mem

/-- **A word splits in one way only**: either the first part is free of `term` and the second part
is a word, or the first part is the whole word. -/
theorem word_append_iff : ∀ {a b : List κ},
    Word term (a ++ b) ↔ (term ∉ a ∧ Word term b) ∨ (Word term a ∧ b = [])
  | [], b => by simp [Word]
  | x :: a, b => by
    have ih : Word term (a ++ b) ↔ _ := word_append_iff
    by_cases hx : x = term
    · subst hx
      simp only [cons_append, word_cons_term, append_eq_nil_iff, mem_cons,
        true_or, not_true_eq_false, false_and, false_or]
    · have hx' : term ≠ x := fun h => hx h.symm
      simp only [cons_append, word_cons_of_ne hx, ih, mem_cons, hx', false_or]

theorem word_append_of_notMem (ha : term ∉ a) : Word term (a ++ b) ↔ Word term b := by
  rw [word_append_iff]
  constructor
  · rintro (⟨_, hb⟩ | ⟨hw, _⟩)
    · exact hb
    · exact absurd hw.term_mem ha
  · intro hb
    exact .inl ⟨ha, hb⟩

theorem word_append_of_word (ha : Word term a) : Word term (a ++ b) ↔ b = [] := by
  rw [word_append_iff]
  constructor
  · rintro (⟨hn, _⟩ | ⟨_, hb⟩)
    · exact absurd ha.term_mem hn
    · exact hb
  · intro hb
    exact .inr ⟨ha, hb⟩

/-- Every beginning of a word that stops before its end is free of `term`. -/
theorem Word.notMem_of_append_cons (h : Word term (a ++ x :: b)) : term ∉ a := by
  rcases word_append_iff.mp h with ⟨ha, _⟩ | ⟨_, hb⟩
  · exact ha
  · exact absurd hb (cons_ne_nil _ _)

theorem word_concat_term (ha : term ∉ a) : Word term (a ++ [term]) :=
  (word_append_of_notMem ha).mpr (word_cons_term.mpr rfl)

/-- A word is its letters before `term`, then `term`. -/
theorem Word.exists_concat : ∀ {w : List κ}, Word term w → ∃ a, term ∉ a ∧ w = a ++ [term]
  | x :: rest, h => by
    rcases h with ⟨rfl, rfl⟩ | ⟨hx, h⟩
    · exact ⟨[], by simp, rfl⟩
    obtain ⟨a, ha, rfl⟩ := h.exists_concat
    refine ⟨x :: a, ?_, rfl⟩
    simp only [mem_cons, not_or]
    exact ⟨fun h => hx h.symm, ha⟩

/-- The test for a label passes on what begins with it. -/
theorem not_mismatch (k r : List κ) :
    ¬ ((k ++ r).length < k.length ∨ k ≠ (k ++ r).take k.length) := by
  rw [take_left, not_or, not_lt, length_append]
  exact ⟨by omega, fun h => h rfl⟩

theorem mismatch (h : ¬ k <+: key) : key.length < k.length ∨ k ≠ key.take k.length :=
  .inr fun he => h (he ▸ take_prefix _ _)

section Fork

variable [DecidableEq κ]

/-- **`fork a b`** — the longest common beginning of `a` and `b`, and what is left of each. -/
def fork : List κ → List κ → List κ × List κ × List κ
  | x :: a, y :: b =>
    if x = y then (x :: (fork a b).1, (fork a b).2) else ([], x :: a, y :: b)
  | a, b => ([], a, b)

theorem fork_append : ∀ (a b : List κ),
    a = (fork a b).1 ++ (fork a b).2.1 ∧ b = (fork a b).1 ++ (fork a b).2.2
  | [], b => by simp [fork]
  | x :: a, [] => by simp [fork]
  | x :: a, y :: b => by
    by_cases h : x = y
    · subst h
      obtain ⟨ha, hb⟩ := fork_append a b
      simp only [fork, if_true, cons_append, cons.injEq, true_and]
      exact ⟨ha, hb⟩
    · simp [fork, h]

/-- What `fork` leaves of the two lists starts with different letters. -/
theorem fork_heads_ne : ∀ {a b p ra rb : List κ} {x y : κ}, fork a b = (p, x :: ra, y :: rb) → x ≠ y
  | [], b, p, ra, rb, x, y, h => by simp [fork] at h
  | c :: a, [], p, ra, rb, x, y, h => by simp [fork] at h
  | c :: a, d :: b, p, ra, rb, x, y, h => by
    by_cases hcd : c = d
    · simp only [fork, if_pos hcd, Prod.mk.injEq] at h
      exact fork_heads_ne (Prod.ext (rfl : (fork a b).1 = _) h.2)
    · simp only [fork, if_neg hcd, Prod.mk.injEq, cons.injEq] at h
      obtain ⟨_, ⟨rfl, _⟩, rfl, _⟩ := h
      exact hcd

theorem fork_eq_append {a b ra rb : List κ} (h : fork a b = (p, ra, rb)) :
    a = p ++ ra ∧ b = p ++ rb := by
  have hs := fork_append a b
  rw [h] at hs
  exact hs

theorem fork_append_left : ∀ (p a b : List κ),
    fork (p ++ a) (p ++ b) = (p ++ (fork a b).1, (fork a b).2)
  | [], a, b => rfl
  | x :: p, a, b => by
    simp only [cons_append, fork, if_true, fork_append_left p a b]

theorem fork_self_append (k r : List κ) : fork (k ++ r) k = (k, r, []) := by
  have h := fork_append_left k r []
  rw [append_nil] at h
  rw [h]
  cases r <;> simp [fork]

end Fork

/-! ## §2 — reading a tree. -/

/-- **`attach key t`** — `t` below an edge labelled `key`, or `t` itself when there is no label. -/
def attach (key : List κ) (t : Tree κ ν) : Tree κ ν :=
  match key with
  | [] => t
  | x :: r => .short (x :: r) t

@[simp] theorem attach_nil (t : Tree κ ν) : attach [] t = t := rfl

@[simp] theorem attach_cons (x : κ) (r : List κ) (t : Tree κ ν) :
    attach (x :: r) t = .short (x :: r) t := rfl

theorem attach_of_ne_nil (h : key ≠ []) (t : Tree κ ν) : attach key t = .short key t := by
  cases key with
  | nil => exact absurd rfl h
  | cons x r => rfl

section Lookup

variable [DecidableEq κ]

/-- The value at the end of the path that `key` spells. -/
def lookup : Tree κ ν → List κ → Option ν
  | .nil, _ => none
  | .value v, key => if key = [] then some v else none
  | .short k c, key => if k <+: key then lookup c (key.drop k.length) else none
  | .full _, [] => none
  | .full cs, x :: rest => lookup (cs x) rest

@[simp] theorem lookup_nil (key : List κ) : lookup (.nil : Tree κ ν) key = none := rfl

@[simp] theorem lookup_value_nil (v : ν) : lookup (.value v : Tree κ ν) [] = some v := rfl

@[simp] theorem lookup_value_cons (v : ν) (x : κ) (r : List κ) :
    lookup (.value v : Tree κ ν) (x :: r) = none := rfl

@[simp] theorem lookup_full_nil (cs : κ → Tree κ ν) : lookup (.full cs) [] = none := rfl

@[simp] theorem lookup_full_cons (cs : κ → Tree κ ν) (x : κ) (r : List κ) :
    lookup (.full cs) (x :: r) = lookup (cs x) r := rfl

@[simp] theorem lookup_short_append (k r : List κ) (c : Tree κ ν) :
    lookup (.short k c) (k ++ r) = lookup c r := by
  simp [lookup]

theorem lookup_short_self (k : List κ) (c : Tree κ ν) : lookup (.short k c) k = lookup c [] := by
  have h := lookup_short_append k [] c
  rwa [append_nil] at h

theorem lookup_short_of_not (h : ¬ k <+: key) (c : Tree κ ν) : lookup (.short k c) key = none := by
  simp [lookup, h]

/-- Anything found below an edge was found after the edge's whole label. -/
theorem lookup_short_eq_some :
    lookup (.short k c) key = some v ↔ ∃ r, key = k ++ r ∧ lookup c r = some v := by
  constructor
  · intro h
    by_cases hk : k <+: key
    · obtain ⟨r, rfl⟩ := hk
      rw [lookup_short_append] at h
      exact ⟨r, rfl, h⟩
    · rw [lookup_short_of_not hk] at h
      cases h
  · rintro ⟨r, rfl, h⟩
    rw [lookup_short_append]
    exact h

/-- Two labels that part ways after a common beginning share no path. -/
theorem lookup_short_of_fork (hne : x ≠ y) (c : Tree κ ν) :
    lookup (.short (p ++ x :: k) c) (p ++ y :: r) = none := by
  apply lookup_short_of_not
  rintro ⟨s, hs⟩
  rw [append_assoc, append_cancel_left_eq, cons_append, cons.injEq] at hs
  exact hne hs.1

@[simp] theorem lookup_attach_append (p r : List κ) (t : Tree κ ν) :
    lookup (attach p t) (p ++ r) = lookup t r := by
  cases p with
  | nil => rfl
  | cons x p => exact lookup_short_append (x :: p) r t

theorem lookup_attach_of_not (h : ¬ p <+: key) (t : Tree κ ν) : lookup (attach p t) key = none := by
  cases p with
  | nil => exact absurd nil_prefix h
  | cons x p => exact lookup_short_of_not h t

/-- The children of a branching that holds exactly the two subtrees `s` at `a` and `u` at `b`. -/
def pair (a : κ) (s : Tree κ ν) (b : κ) (u : Tree κ ν) : κ → Tree κ ν :=
  update (update (fun _ => .nil) a s) b u

@[simp] theorem pair_right (a : κ) (s : Tree κ ν) (b : κ) (u : Tree κ ν) : pair a s b u b = u := by
  simp [pair]

theorem pair_left {a b : κ} (h : a ≠ b) (s u : Tree κ ν) : pair a s b u a = s := by
  simp [pair, h]

theorem pair_other {a b i : κ} (ha : i ≠ a) (hb : i ≠ b) (s u : Tree κ ν) :
    pair a s b u i = .nil := by
  simp [pair, ha, hb]

end Lookup

/-! ## §3 — trees whose paths spell words. -/

/-- **`Typed term t`** — every path of `t` that ends in a value spells a word: a value stands below
a label that is a word, or in the `term` slot of a branching, and nowhere else. -/
def Typed (term : κ) : Tree κ ν → Prop
  | .nil => True
  | .value _ => False
  | .short k c => (Word term k ∧ ∃ v, c = .value v) ∨ (k ≠ [] ∧ term ∉ k ∧ Typed term c)
  | .full cs => (∀ i, i ≠ term → Typed term (cs i)) ∧ (cs term = .nil ∨ ∃ v, cs term = .value v)

theorem typed_leaf (hk : Word term k) (v : ν) : Typed term (.short k (.value v)) :=
  .inl ⟨hk, v, rfl⟩

theorem typed_short_of_notMem (hne : k ≠ []) (hk : term ∉ k) :
    Typed term (.short k c) ↔ Typed term c := by
  constructor
  · rintro (⟨hw, _⟩ | ⟨_, _, hc⟩)
    · exact absurd hw.term_mem hk
    · exact hc
  · intro hc
    exact .inr ⟨hne, hk, hc⟩

theorem Typed.label_ne_nil (h : Typed term (.short k c)) : k ≠ [] := by
  rcases h with ⟨hw, _⟩ | ⟨hne, _⟩
  · exact hw.ne_nil
  · exact hne

theorem typed_attach (hp : term ∉ p) : Typed term (attach p t) ↔ Typed term t := by
  cases p with
  | nil => rfl
  | cons x p => exact typed_short_of_notMem (cons_ne_nil _ _) hp

theorem typed_attach_value (hw : Word term w) (v : ν) : Typed term (attach w (.value v)) := by
  rw [attach_of_ne_nil hw.ne_nil]
  exact typed_leaf hw v

/-- Whatever is found in a typed tree is found behind a word. -/
theorem Typed.word_of_lookup [DecidableEq κ] : ∀ {t : Tree κ ν} {key : List κ},
    Typed term t → lookup t key = some v → Word term key := by
  intro t
  induction t with
  | nil => intro key _ h; cases h
  | value w => intro key ht _; cases ht
  | short k c ih =>
    intro key ht h
    obtain ⟨r, rfl, hr⟩ := lookup_short_eq_some.mp h
    rcases ht with ⟨hw, w, rfl⟩ | ⟨_, hn, hc⟩
    · cases r with
      | nil => rwa [append_nil]
      | cons x r => cases hr
    · exact (word_append_of_notMem hn).mpr (ih hc hr)
  | full cs ih =>
    intro key ht h
    cases key with
    | nil => cases h
    | cons x r =>
      rw [lookup_full_cons] at h
      by_cases hx : x = term
      · subst hx
        rcases ht.2 with hn | ⟨w, hw⟩
        · rw [hn] at h
          cases h
        cases r with
        | nil => exact .inl ⟨rfl, rfl⟩
        | cons y r =>
          rw [hw] at h
          cases h
      · exact .inr ⟨hx, ih x (ht.1 x hx) h⟩

/-- What is left of a label after a fork still carries its subtree in a typed position. -/
theorem typed_cut {a : κ} (ht : Typed term (.short (p ++ a :: k) c)) (hp : term ∉ p) :
    (a ≠ term → Typed term (attach k c)) ∧ (a = term → ∃ v, attach k c = .value v) := by
  rcases ht with ⟨hw, v, rfl⟩ | ⟨_, hn, hc⟩
  · rw [word_append_of_notMem hp] at hw
    rcases hw with ⟨rfl, rfl⟩ | ⟨ha, hk⟩
    · exact ⟨fun h => absurd rfl h, fun _ => ⟨v, rfl⟩⟩
    · exact ⟨fun _ => typed_attach_value hk v, fun h => absurd h ha⟩
  · simp only [mem_append, mem_cons, not_or] at hn
    exact ⟨fun _ => (typed_attach hn.2.2).mpr hc, fun h => absurd h.symm hn.2.1⟩

theorem typed_rest {b : κ} (h : Word term (b :: key)) (v : ν) :
    (b ≠ term → Typed term (attach key (.value v))) ∧
      (b = term → ∃ w, attach key (.value v) = .value w) := by
  rcases h with ⟨rfl, rfl⟩ | ⟨hb, hk⟩
  · exact ⟨fun h => absurd rfl h, fun _ => ⟨v, rfl⟩⟩
  · exact ⟨fun _ => typed_attach_value hk v, fun h => absurd h hb⟩

/-! ## §4 — writing into a tree. -/

section Insert

variable [DecidableEq κ]

/-- **`insert v t key`** — put `v` at the end of the path `key`. An edge whose label parts ways
with the key is cut there: the common beginning leads to a branching that holds the rest of the
edge and the rest of the key. -/
def insert (v : ν) : Tree κ ν → List κ → Tree κ ν
  | _, [] => .value v
  | .nil, x :: r => .short (x :: r) (.value v)
  | .value w, _ :: _ => .value w
  | .short k c, x :: r =>
    match fork (x :: r) k with
    | (_, rest, []) => .short k (insert v c rest)
    | (p, b :: key, a :: k) => attach p (.full (pair a (attach k c) b (attach key (.value v))))
    | (_, [], _ :: _) => .short k c
  | .full cs, x :: r => .full (update cs x (insert v (cs x) r))

@[simp] theorem insert_key_nil (v : ν) (t : Tree κ ν) : insert v t [] = .value v := by
  cases t <;> rfl

theorem insert_nil (h : key ≠ []) (v : ν) :
    insert v (.nil : Tree κ ν) key = .short key (.value v) := by
  cases key with
  | nil => exact absurd rfl h
  | cons x r => rfl

@[simp] theorem insert_full_cons (v : ν) (cs : κ → Tree κ ν) (x : κ) (r : List κ) :
    insert v (.full cs) (x :: r) = .full (update cs x (insert v (cs x) r)) := rfl

/-- The key runs through the whole label: the edge stays and the rest is written below it. -/
theorem insert_short_append (v : ν) (h : k ++ r ≠ []) (c : Tree κ ν) :
    insert v (.short k c) (k ++ r) = .short k (insert v c r) := by
  have hf := fork_self_append k r
  cases hkr : k ++ r with
  | nil => exact absurd hkr h
  | cons x s =>
    rw [hkr] at hf
    simp only [insert, hf]

variable {a b term : κ}

/-- The key parts ways with the label: the edge is cut at the fork. -/
theorem insert_short_fork (v : ν) (hab : a ≠ b) (p k key : List κ) (c : Tree κ ν) :
    insert v (.short (p ++ a :: k) c) (p ++ b :: key) =
      attach p (.full (pair a (attach k c) b (attach key (.value v)))) := by
  have hf : fork (p ++ b :: key) (p ++ a :: k) = (p, b :: key, a :: k) := by
    rw [fork_append_left]
    have hba : b ≠ a := fun h => hab h.symm
    simp [fork, hba]
  cases hpb : p ++ b :: key with
  | nil => exact absurd hpb (by simp)
  | cons x s =>
    rw [hpb] at hf
    simp only [insert, hf]

/-- **How a word meets a label.** Against an edge of a typed tree a word either runs through the
whole label or leaves it at a fork; it never ends inside the label. -/
theorem word_label_cases (hkey : Word term key) (ht : Typed term (.short k c)) :
    (∃ r, key = k ++ r) ∨
      ∃ p a b k' r, a ≠ b ∧ k = p ++ a :: k' ∧ key = p ++ b :: r ∧ term ∉ p := by
  rcases hf : fork key k with ⟨p, x, y⟩
  obtain ⟨hx, hy⟩ := fork_eq_append hf
  cases y with
  | nil =>
    rw [append_nil] at hy
    subst hy
    exact .inl ⟨x, hx⟩
  | cons a k' =>
    cases x with
    | nil =>
      -- the word would end inside the label, where the label still has a letter to read
      rw [append_nil] at hx
      subst hx
      rcases ht with ⟨hw, _⟩ | ⟨_, hn, _⟩
      · rw [hy, word_append_of_word hkey] at hw
        exact absurd hw (cons_ne_nil _ _)
      · rw [hy, mem_append, not_or] at hn
        exact absurd hkey.term_mem hn.1
    | cons b r =>
      have hne : b ≠ a := fork_heads_ne hf
      refine .inr ⟨p, a, b, k', r, fun h => hne h.symm, hy, hx, ?_⟩
      rw [hx] at hkey
      exact hkey.notMem_of_append_cons

theorem typed_pair (hab : a ≠ b) (hs : (a ≠ term → Typed term s) ∧ (a = term → ∃ v, s = .value v))
    (hu : (b ≠ term → Typed term u) ∧ (b = term → ∃ v, u = .value v)) :
    Typed term (.full (pair a s b u)) := by
  constructor
  · intro i hi
    by_cases hib : i = b
    · subst hib
      rw [pair_right]
      exact hu.1 hi
    by_cases hia : i = a
    · subst hia
      rw [pair_left hab]
      exact hs.1 hi
    · rw [pair_other hia hib]
      trivial
  · by_cases hb : term = b
    · subst hb
      rw [pair_right]
      exact .inr (hu.2 rfl)
    by_cases ha : term = a
    · subst ha
      rw [pair_left hab]
      exact .inr (hs.2 rfl)
    · exact .inl (pair_other ha hb s u)

/-- Writing a word keeps a tree typed. -/
theorem typed_insert (v : ν) : ∀ {t : Tree κ ν} {key : List κ},
    Typed term t → Word term key → Typed term (insert v t key) := by
  intro t
  induction t with
  | nil =>
    intro key _ hkey
    rw [insert_nil hkey.ne_nil]
    exact typed_leaf hkey v
  | value w => intro key ht _; cases ht
  | short k c ih =>
    intro key ht hkey
    rcases word_label_cases hkey ht with ⟨r, rfl⟩ | ⟨p, a, b, k', r, hab, rfl, rfl, hp⟩
    · rw [insert_short_append v hkey.ne_nil]
      rcases ht with ⟨hw, w, rfl⟩ | ⟨hne, hn, hc⟩
      · rw [word_append_of_word hw] at hkey
        subst hkey
        exact .inl ⟨hw, v, insert_key_nil v _⟩
      · rw [word_append_of_notMem hn] at hkey
        exact .inr ⟨hne, hn, ih hc hkey⟩
    · rw [insert_short_fork v hab, typed_attach hp]
      rw [word_append_of_notMem hp] at hkey
      exact typed_pair hab (typed_cut ht hp) (typed_rest hkey v)
  | full cs ih =>
    intro key ht hkey
    cases key with
    | nil => cases hkey
    | cons x r =>
      rcases hkey with ⟨rfl, rfl⟩ | ⟨hx, hr⟩
      · refine ⟨fun i hi => ?_, .inr ⟨v, by simp⟩⟩
        rw [update_of_ne hi]
        exact ht.1 i hi
      refine ⟨fun i hi => ?_, ?_⟩
      · by_cases hix : i = x
        · subst hix
          rw [update_self]
          exact ih i (ht.1 i hi) hr
        · rw [update_of_ne hix]
          exact ht.1 i hi
      · rw [update_of_ne (fun h => hx h.symm)]
        exact ht.2

/-- Reading the two-armed branching that a cut edge becomes. -/
theorem lookup_cut (hab : a ≠ b) (p k key other : List κ) (c : Tree κ ν) (v : ν) :
    lookup (attach p (.full (pair a (attach k c) b (attach key (.value v))))) other =
      if other = p ++ b :: key then some v else lookup (.short (p ++ a :: k) c) other := by
  by_cases hp : p <+: other
  · obtain ⟨r, rfl⟩ := hp
    rw [lookup_attach_append]
    cases r with
    | nil =>
      have hne : ¬ (p ++ [] = p ++ b :: key) := by simp
      rw [if_neg hne, lookup_full_nil, lookup_short_of_not]
      rintro ⟨s, hs⟩
      simp at hs
    | cons x r =>
      rw [lookup_full_cons]
      by_cases hxb : x = b
      · subst hxb
        rw [pair_right, lookup_short_of_fork hab]
        by_cases hk : key <+: r
        · obtain ⟨s, rfl⟩ := hk
          rw [lookup_attach_append]
          cases s with
          | nil | cons y s => simp
        · rw [lookup_attach_of_not hk, if_neg]
          intro h
          rw [append_cancel_left_eq, cons.injEq] at h
          exact hk (h.2 ▸ prefix_rfl)
      have hne : ¬ (p ++ x :: r = p ++ b :: key) := by
        rw [append_cancel_left_eq, cons.injEq]
        exact fun h => hxb h.1
      rw [if_neg hne]
      by_cases hxa : x = a
      · subst hxa
        rw [pair_left hab]
        by_cases hk : k <+: r
        · obtain ⟨s, rfl⟩ := hk
          rw [lookup_attach_append, show p ++ x :: (k ++ s) = (p ++ x :: k) ++ s by simp,
            lookup_short_append]
        rw [lookup_attach_of_not hk, lookup_short_of_not]
        rintro ⟨s, hs⟩
        rw [append_assoc, append_cancel_left_eq, cons_append, cons.injEq] at hs
        exact hk ⟨s, hs.2⟩
      · rw [pair_other hxa hxb, lookup_short_of_fork (fun h => hxa h.symm)]
        rfl
  · rw [lookup_attach_of_not hp, if_neg, lookup_short_of_not]
    · rintro ⟨s, rfl⟩
      exact hp ⟨a :: k ++ s, by simp⟩
    · rintro rfl
      exact hp (prefix_append _ _)

/-- **The specification of `insert`**: the written word reads back, every other word reads as
before. -/
theorem lookup_insert (v : ν) : ∀ {t : Tree κ ν} {key other : List κ},
    Typed term t → Word term key → Word term other →
      lookup (insert v t key) other = if other = key then some v else lookup t other := by
  intro t
  induction t with
  | nil =>
    intro key other _ hkey hother
    rw [insert_nil hkey.ne_nil]
    by_cases h : key <+: other
    · obtain ⟨r, rfl⟩ := h
      rw [word_append_of_word hkey] at hother
      subst hother
      simp [lookup_short_self]
    · have hne : ¬ other = key := fun he => h (he ▸ prefix_rfl)
      rw [lookup_short_of_not h, if_neg hne, lookup_nil]
  | value w => intro key other ht _ _; cases ht
  | short k c ih =>
    intro key other ht hkey hother
    rcases word_label_cases hkey ht with ⟨r, rfl⟩ | ⟨p, a, b, k', r, hab, rfl, rfl, hp⟩
    · rw [insert_short_append v hkey.ne_nil]
      by_cases hk : k <+: other
      · obtain ⟨s, rfl⟩ := hk
        rw [lookup_short_append, lookup_short_append]
        rcases ht with ⟨hw, w, rfl⟩ | ⟨_, hn, hc⟩
        · rw [word_append_of_word hw] at hkey hother
          subst hkey hother
          simp
        · rw [word_append_of_notMem hn] at hkey hother
          simp only [ih hc hkey hother, append_cancel_left_eq]
      · have hne : ¬ other = k ++ r := fun he => hk ⟨r, he.symm⟩
        rw [lookup_short_of_not hk, lookup_short_of_not hk, if_neg hne]
    · rw [insert_short_fork v hab, lookup_cut hab]
  | full cs ih =>
    intro key other ht hkey hother
    cases key with
    | nil => cases hkey
    | cons x r =>
      cases other with
      | nil => cases hother
      | cons y s =>
        rw [insert_full_cons, lookup_full_cons, lookup_full_cons]
        by_cases hyx : y = x
        · subst hyx
          rw [update_self]
          simp only [cons.injEq, true_and]
          by_cases hy : y = term
          · subst hy
            rw [word_cons_term] at hkey hother
            subst hkey hother
            simp
          · rw [word_cons_of_ne hy] at hkey hother
            exact ih y (ht.1 y hy) hkey hother
        · simp [hyx]

end Insert

end MxtChain.Lib.Patricia
