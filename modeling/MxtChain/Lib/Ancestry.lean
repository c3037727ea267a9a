/-
# MxtChain.Lib.Ancestry — trees of blocks and the lines of their ancestors.

A block names its parent by a key and has a height. In a tree over one root every block has exactly
one line of ancestors, from the root to the block itself; the block at position `i` of a line has
height `i`. Two lines that agree at a position agree below it (`Line.agree`), so an index from
heights to keys is moved from one line to another by changing it above a common position only
(`reindex`).
-/
import MxtChain.Lib.GoMap
import Mathlib.Algebra.Order.Ring.Nat

namespace MxtChain.Lib

open List

/-- A tree of blocks over one root, in which blocks are told apart by their keys. -/
structure BlockTree (B K : Type*) where
  key : B → K
  parent : B → K
  height : B → Nat
  root : B
  mem : B → Prop
  root_mem : mem root
  height_root : height root = 0
  parent_mem : ∀ b, mem b → b ≠ root → ∃ p, mem p ∧ key p = parent b ∧ height b = height p + 1
  key_inj : ∀ a b, mem a → mem b → key a = key b → a = b

namespace BlockTree

variable {B K V : Type*} {T : BlockTree B K} {a b p x y : B} {l m W as : List B} {i c j n : Nat}

/-- **The line of a block**: its ancestors from the root on, and the block itself. -/
inductive Line (T : BlockTree B K) : B → List B → Prop
  | root : Line T T.root [T.root]
  | child {p b : B} {l : List B} : Line T p l → T.mem b → T.key p = T.parent b →
      T.height b = T.height p + 1 → Line T b (l ++ [b])

namespace Line

theorem mem (h : T.Line b l) : T.mem b := by
  cases h with
  | root => exact T.root_mem
  | child _ hb _ _ => exact hb

theorem length (h : T.Line b l) : l.length = T.height b + 1 := by
  induction h with
  | root => rw [T.height_root]; rfl
  | child _ _ _ hh ih => rw [length_append, ih, hh]; rfl

theorem length_init (h : T.Line b (l ++ [b])) : l.length = T.height b := by
  have hlen := h.length
  rw [length_append, length_singleton] at hlen
  omega

variable (h : T.Line b l)
include h

theorem parent (hb : T.height b ≠ 0) : ∃ p l', l = l' ++ [b] ∧ T.Line p l' ∧
    T.key p = T.parent b ∧ T.height b = T.height p + 1 := by
  cases h with
  | root => exact absurd T.height_root hb
  | child hp _ hk hh => exact ⟨_, _, rfl, hp, hk, hh⟩

/-- The last block of the line is the block itself. -/
theorem getElem_height : l[T.height b]? = some b := by
  cases h with
  | root => rw [T.height_root]; rfl
  | child hp _ _ hh =>
    rw [hh, getElem?_append_right (by rw [hp.length]), hp.length, Nat.sub_self]
    rfl

theorem getLast : l.getLast? = some b := by
  rw [getLast?_eq_getElem?, h.length]
  exact h.getElem_height

theorem getElem_zero : l[0]? = some T.root := by
  induction h with
  | root => rfl
  | child hp _ _ _ ih => rw [getElem?_append_left (by rw [hp.length]; omega), ih]

theorem unique (h' : T.Line b m) : l = m := by
  induction h generalizing m with
  | root =>
    cases h' with
    | root => rfl
    | child _ _ _ hh => rw [T.height_root] at hh; cases hh
  | @child p b l hp hb hk hh ih =>
    cases h' with
    | root => rw [T.height_root] at hh; cases hh
    | child hp' _ hk' _ =>
      obtain rfl := T.key_inj _ _ hp.mem hp'.mem (hk.trans hk'.symm)
      rw [ih hp']

/-- Every beginning of a line is a line. -/
theorem take (ha : l[i]? = some a) : T.Line a (l.take (i + 1)) := by
  induction h with
  | root =>
    cases i with
    | zero =>
      obtain rfl := Option.some.inj ha
      exact .root
    | succ i => cases ha
  | @child p b l hp hb hk hh ih =>
    rcases Nat.lt_or_ge i l.length with hlt | hge
    · rw [List.getElem?_append_left hlt] at ha
      rw [List.take_append_of_le_length hlt]
      exact ih ha
    rw [List.getElem?_append_right hge] at ha
    obtain ⟨hi, -⟩ := List.getElem?_eq_some_iff.mp ha
    have hil : i = l.length := by
      rw [List.length_singleton] at hi
      omega
    subst hil
    rw [Nat.sub_self] at ha
    obtain rfl := Option.some.inj ha
    rw [List.take_of_length_le (by simp)]
    exact .child hp hb hk hh

theorem height_getElem (ha : l[i]? = some a) : T.height a = i := by
  have hlen := (h.take ha).length
  obtain ⟨hi, -⟩ := List.getElem?_eq_some_iff.mp ha
  rw [List.length_take, Nat.min_eq_left hi] at hlen
  omega

/-- A block of a line stands at its height. -/
theorem getElem_of_mem (ha : a ∈ l) : l[T.height a]? = some a := by
  obtain ⟨i, hi⟩ := mem_iff_getElem?.mp ha
  rwa [h.height_getElem hi]

/-- The heights of the blocks from a position on. -/
theorem exists_mem_drop_iff : (∃ a ∈ l.drop j, T.height a = i) ↔ j ≤ i ∧ i < l.length := by
  constructor
  · rintro ⟨a, ha, rfl⟩
    obtain ⟨k, hk⟩ := mem_iff_getElem?.mp ha
    rw [getElem?_drop] at hk
    rw [h.height_getElem hk]
    exact ⟨Nat.le_add_right _ _, (List.getElem?_eq_some_iff.mp hk).1⟩
  · rintro ⟨hji, hil⟩
    have hx : l[i]? = some l[i] := getElem?_eq_getElem hil
    refine ⟨l[i], mem_iff_getElem?.mpr ⟨i - j, ?_⟩, h.height_getElem hx⟩
    rw [getElem?_drop, Nat.add_sub_cancel' hji, hx]

theorem mem_getElem (ha : l[i]? = some a) : T.mem a := (h.take ha).mem

omit h

/-- **Lines that agree at a position agree below it.** -/
theorem agree (hl : T.Line a l) (hm : T.Line b m) (hx : l[i]? = some x)
    (hx' : m[i]? = some x) (hj : j ≤ i) : l[j]? = m[j]? := by
  have heq := (hl.take hx).unique (hm.take hx')
  rw [← getElem?_take_of_lt (Nat.lt_succ_of_le hj), heq, getElem?_take_of_lt (Nat.lt_succ_of_le hj)]

theorem eq_root (h : T.Line b l) (hb : T.height b = 0) : b = T.root := by
  have hlast := h.getElem_height
  rw [hb, h.getElem_zero] at hlast
  exact (Option.some.inj hlast).symm

end Line

theorem exists_line (T : BlockTree B K) (hb : T.mem b) : ∃ l, T.Line b l := by
  induction hh : T.height b using Nat.strongRecOn generalizing b with
  | ind n ih =>
    by_cases hroot : b = T.root
    · subst hroot
      exact ⟨_, .root⟩
    · obtain ⟨p, hp, hk, hheight⟩ := T.parent_mem b hb hroot
      obtain ⟨l, hl⟩ := ih (T.height p) (by omega) hp rfl
      exact ⟨_, .child hl hb hk hheight⟩

/-! ## Blocks with their ancestors -/

/-- Blocks of the tree, with the parent of each. -/
structure Closed (T : BlockTree B K) (W : List B) : Prop where
  mem : ∀ b ∈ W, T.mem b
  parent : ∀ b ∈ W, b ≠ T.root → ∃ p ∈ W, T.key p = T.parent b

theorem height_of_parent (hp : T.mem p) (hb : T.mem b) (hne : b ≠ T.root)
    (hk : T.key p = T.parent b) : T.height b = T.height p + 1 := by
  obtain ⟨q, hq, hqk, hh⟩ := T.parent_mem b hb hne
  rwa [T.key_inj _ _ hp hq (hk.trans hqk.symm)]

namespace Closed

theorem parent_of (h : T.Closed W) (hb : b ∈ W) (hp : T.mem p) (hk : T.key p = T.parent b)
    (hh : T.height b ≠ 0) : p ∈ W := by
  obtain ⟨q, hq, hqk⟩ := h.parent b hb fun heq => hh (heq ▸ T.height_root)
  rwa [T.key_inj _ _ hp (h.mem q hq) (hk.trans hqk.symm)]

theorem exists_parent (h : T.Closed W) (hb : b ∈ W) (hl : T.Line b l) (hn : T.height b ≠ 0) :
    ∃ p l', p ∈ W ∧ l = l' ++ [b] ∧ T.Line p l' ∧ T.key p = T.parent b ∧
      T.height b = T.height p + 1 := by
  obtain ⟨p, l', rfl, hp, hk, hh⟩ := hl.parent hn
  exact ⟨p, l', h.parent_of hb hp.mem hk hn, rfl, hp, hk, hh⟩

theorem append (h : T.Closed W) (hp : p ∈ W) (hb : T.mem b) (hk : T.key p = T.parent b) :
    T.Closed (W ++ [b]) where
  mem a ha := by
    rcases mem_append.mp ha with ha | ha
    · exact h.mem a ha
    · rwa [mem_singleton.mp ha]
  parent a ha hne := by
    rcases mem_append.mp ha with ha | ha
    · obtain ⟨q, hq, hqk⟩ := h.parent a ha hne
      exact ⟨q, mem_append_left _ hq, hqk⟩
    · exact ⟨p, mem_append_left _ hp, mem_singleton.mp ha ▸ hk⟩

/-- A value that is written for the new block leaves those of the others alone. -/
theorem find?_insert [DecidableEq K] (h : T.Closed (W ++ [b])) {P : B → V → Prop}
    {db : GoMap (Nat × K) V} {v : V}
    (hold : ∀ a ∈ W, ∀ x, P a x → db.find? (T.height a, T.key a) = some x)
    (hnew : ∀ x, P b x → x = v) (ha : a ∈ W ++ [b]) {x : V} (hx : P a x) :
    (db.insert (T.height b, T.key b) v).find? (T.height a, T.key a) = some x := by
  rw [GoMap.find?_insert]
  by_cases hab : a = b
  · subst hab
    rw [if_pos rfl, hnew x hx]
  have hb := h.mem b (mem_append_right _ (mem_singleton.mpr rfl))
  rw [if_neg fun heq => hab (T.key_inj _ _ (h.mem a ha) hb (congrArg Prod.snd heq))]
  rcases mem_append.mp ha with ha | ha
  · exact hold a ha x hx
  · exact absurd (mem_singleton.mp ha) hab

end Closed

theorem forall_line_append {f : List B → Nat} (hW : ∀ a ∈ W, ∀ l, T.Line a l → f l ≤ n)
    (hb : T.Line b m) (hm : f m ≤ n) : ∀ a ∈ W ++ [b], ∀ l, T.Line a l → f l ≤ n := by
  intro a ha l hl
  rcases mem_append.mp ha with ha | ha
  · exact hW a ha l hl
  · obtain rfl := mem_singleton.mp ha
    rwa [hl.unique hb]

/-! ## Where two lines part -/

/-- The last position at which two lines agree. -/
structure Fork (l m : List B) (c : Nat) : Prop where
  common : ∃ x, l[c]? = some x ∧ m[c]? = some x
  last : ∀ j x, c < j → l[j]? = some x → m[j]? ≠ some x

namespace Fork

theorem symm (h : Fork l m c) : Fork m l c where
  common := by
    obtain ⟨x, hx, hx'⟩ := h.common
    exact ⟨x, hx', hx⟩
  last j x hj hx hx' := h.last j x hj hx' hx

theorem lt_left (h : Fork l m c) : c < l.length := by
  obtain ⟨x, hx, -⟩ := h.common
  exact (List.getElem?_eq_some_iff.mp hx).1

theorem lt_right (h : Fork l m c) : c < m.length := h.symm.lt_left

theorem refl (hl : T.Line b l) : Fork l l (T.height b) where
  common := ⟨b, hl.getElem_height, hl.getElem_height⟩
  last j x hj hx _ := by
    have hlt := (List.getElem?_eq_some_iff.mp hx).1
    rw [hl.length] at hlt
    omega

/-- Different blocks on top do not move it. -/
theorem append (h : Fork l m c) (hlen : l.length = m.length) (hne : x ≠ y) :
    Fork (l ++ [x]) (m ++ [y]) c where
  common := by
    obtain ⟨z, hz, hz'⟩ := h.common
    exact ⟨z, by rwa [getElem?_append_left h.lt_left],
      by rwa [getElem?_append_left h.lt_right]⟩
  last j z hj hz hz' := by
    rcases Nat.lt_or_ge j l.length with hlt | hge
    · rw [getElem?_append_left hlt] at hz
      rw [getElem?_append_left (hlen ▸ hlt)] at hz'
      exact h.last j z hj hz hz'
    -- the blocks on top
    rw [getElem?_append_right hge] at hz
    rw [getElem?_append_right (hlen ▸ hge), ← hlen] at hz'
    have hx := mem_of_getElem? hz
    have hy := mem_of_getElem? hz'
    rw [mem_singleton] at hx hy
    exact hne (hx.symm.trans hy)

/-- A line may be cut at the height of the other. -/
theorem of_take (h : Fork (l.take n) m c) (hm : m.length ≤ n) : Fork l m c where
  common := by
    obtain ⟨x, hx, hx'⟩ := h.common
    rw [List.getElem?_take_of_lt (h.lt_right.trans_le hm)] at hx
    exact ⟨x, hx, hx'⟩
  last j x hj hx hx' := by
    have hlt := (List.getElem?_eq_some_iff.mp hx').1
    refine h.last j x hj ?_ hx'
    rwa [List.getElem?_take_of_lt (hlt.trans_le hm)]

theorem take_eq (h : Fork l m c) (hl : T.Line a l) (hm : T.Line b m) :
    l.take (c + 1) = m.take (c + 1) := by
  obtain ⟨x, hx, hx'⟩ := h.common
  exact (hl.take hx).unique (hm.take hx')

theorem getElem_eq (h : Fork l m c) (hl : T.Line a l) (hm : T.Line b m) (hi : i ≤ c) :
    l[i]? = m[i]? := by
  obtain ⟨x, hx, hx'⟩ := h.common
  exact hl.agree hm hx hx' hi

/-- A block of one line is on the other one as well if it is not above the fork. -/
theorem mem_iff (h : Fork l m c) (hl : T.Line a l) (hm : T.Line b m) (hx : m[i]? = some x) :
    x ∈ l ↔ i ≤ c := by
  constructor
  · intro hmem
    obtain ⟨j, hj⟩ := mem_iff_getElem?.mp hmem
    obtain rfl : j = i := (hl.height_getElem hj).symm.trans (hm.height_getElem hx)
    by_contra hlt
    exact h.last j x (Nat.lt_of_not_le hlt) hj hx
  · intro hi
    rw [← h.getElem_eq hl hm hi] at hx
    exact mem_of_getElem? hx

end Fork

/-! ## Indexes from heights to keys -/

def index (T : BlockTree B K) (l : List B) (i : Nat) : Option K := (l[i]?).map T.key

/-- One more block of a line is indexed. -/
theorem index_cons {g : Option K} (ha : m[T.height a]? = some a) :
    (if ∃ x ∈ as, T.height x = i then T.index m i
      else if i = T.height a then some (T.key a) else g) =
      if ∃ x ∈ a :: as, T.height x = i then T.index m i else g := by
  by_cases hrest : ∃ x ∈ as, T.height x = i
  · obtain ⟨x, hx, hi⟩ := hrest
    rw [if_pos ⟨x, hx, hi⟩, if_pos ⟨x, mem_cons_of_mem _ hx, hi⟩]
  rw [if_neg hrest]
  by_cases hi : i = T.height a
  · subst hi
    rw [if_pos rfl, if_pos ⟨a, mem_cons_self, rfl⟩, index, ha]
    rfl
  rw [if_neg hi, if_neg]
  rintro ⟨x, hx, hxi⟩
  rcases mem_cons.mp hx with rfl | hx
  · exact hi hxi.symm
  · exact hrest ⟨x, hx, hxi⟩

/-- **Moving an index.** An index that agrees with the one of the line `l` below `j`, and with the
one of the line `m` from `j` on, is the index of `m` if the lines agree at the position before. -/
theorem reindex {f : Nat → Option K} (hl : T.Line a l) (hm : T.Line b m)
    (hfork : ∀ i, j = i + 1 → ∃ x, l[i]? = some x ∧ m[i]? = some x)
    (hbelow : ∀ i, i < j → f i = T.index l i) (habove : ∀ i, j ≤ i → f i = T.index m i) :
    f = T.index m := by
  funext i
  rcases Nat.lt_or_ge i j with hlt | hge
  · obtain ⟨j, rfl⟩ := Nat.exists_eq_succ_of_ne_zero (show j ≠ 0 by omega)
    obtain ⟨x, hx, hx'⟩ := hfork j rfl
    rw [hbelow i hlt, index, index, hl.agree hm hx hx' (Nat.le_of_lt_succ hlt)]
  · exact habove i hge

/-! ## Orders in which blocks come -/

/-- What holds of every element and those before it, position by position. -/
theorem forall_prefix_of_getElem {P : List B → B → Prop}
    (h : ∀ i (hi : i < l.length), P (l.take i) l[i]) : ∀ pre b, pre ++ [b] <+: l → P pre b := by
  rintro pre b ⟨rest, rfl⟩
  have hlt : pre.length < (pre ++ [b] ++ rest).length := by simp
  simpa using h pre.length hlt

end BlockTree

end MxtChain.Lib
