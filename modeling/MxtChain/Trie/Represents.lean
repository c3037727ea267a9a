/-
# MxtChain.Trie.Represents — nodes in memory as views of a tree

A node in memory stands for a Patricia tree: hash nodes stand for the trees they are the hash of,
and the cache flags must agree with what the tree hashes to. `K` says which trees a hash node may
stand for: those that can be loaded.
-/
import MxtChain.Trie.Decode
import MxtChain.Trie.Hasher

namespace MxtChain.Trie

open Lib.Patricia

/-- **What the flags of a node say** about its tree. `top` marks the root of a trie, which is
hashed even if it is small; `known` says that a node above this one has a cached hash, so that
this node was hashed as well. -/
structure FlagOK (H : Bytes → Hash) (K : Content → Prop) (known top : Bool) (fl : NodeFlag)
    (t : Content) : Prop where
  hash_eq : ∀ h, fl.hash = some h → h = hashOf H t
  large : top = false → fl.hash ≠ none → 32 ≤ (enc H t).length
  small : top = false → fl.dirty = false → fl.hash = none → (enc H t).length < 32
  clean : fl.dirty = false → fl.hash ≠ none → K t
  root : top = true → fl.dirty = false → fl.hash ≠ none
  hashed : known = true → fl.hash = none → top = false ∧ (enc H t).length < 32

/-- **The node `n` stands for the tree `t`.** -/
inductive Rep (H : Bytes → Hash) (K : Content → Prop) : Bool → Bool → Node → Content → Prop
  | nil {known top : Bool} : Rep H K known top .nil .nil
  | value {known top : Bool} (v : Bytes) : Rep H K known top (.value v) (.value v)
  | short {known top : Bool} {k : Hex} {n : Node} {c : Content} {fl : NodeFlag} :
      Rep H K (known || fl.hash.isSome) false n c → FlagOK H K known top fl (.short k c) →
      Rep H K known top (.short k n fl) (.short k c)
  | full {known top : Bool} {ns : Fin 17 → Node} {cs : Fin 17 → Content} {fl : NodeFlag} :
      (∀ i, Rep H K (known || fl.hash.isSome) false (ns i) (cs i)) →
      FlagOK H K known top fl (.full cs) → Rep H K known top (.full ns fl) (.full cs)
  | hash {known top : Bool} {t : Content} : IsInner t → (top = false → 32 ≤ (enc H t).length) →
      K t → Rep H K known top (.hash (hashOf H t)) t

/-- The subtrees that hash nodes below the top of `t` can stand for are in `K`. -/
def Below (H : Bytes → Hash) (K : Content → Prop) : Content → Prop
  | .nil => True
  | .value _ => True
  | .short _ c => (IsInner c → 32 ≤ (enc H c).length → K c) ∧ Below H K c
  | .full cs => ∀ i, (IsInner (cs i) → 32 ≤ (enc H (cs i)).length → K (cs i)) ∧ Below H K (cs i)

section Basic

variable {H : Bytes → Hash} {K K' : Content → Prop} {known top known' : Bool} {t c : Content}
  {n : Node}

theorem FlagOK.mono {fl : NodeFlag} (h : FlagOK H K known top fl t) (hK : ∀ u, K u → K' u)
    (hk : known' = true → known = true) : FlagOK H K' known' top fl t where
  hash_eq := h.hash_eq
  large := h.large
  small := h.small
  clean hd hh := hK _ (h.clean hd hh)
  root := h.root
  hashed hk' := h.hashed (hk hk')

theorem Rep.mono (h : Rep H K known top n t) (hK : ∀ u, K u → K' u)
    (hk : known' = true → known = true) : Rep H K' known' top n t := by
  induction h generalizing known' with
  | nil => exact .nil
  | value v => exact .value v
  | short _ hfl ih => exact .short (ih (by grind)) (hfl.mono hK hk)
  | full _ hfl ih => exact .full (fun i => ih i (by grind)) (hfl.mono hK hk)
  | hash hi hl hkt => exact .hash hi hl (hK _ hkt)

/-- Forgetting that the node was hashed. -/
theorem Rep.forget (h : Rep H K known top n t) : Rep H K false top n t :=
  h.mono (fun _ hu => hu) (nofun)

theorem Below.mono : ∀ {t : Content}, Below H K t → (∀ u, K u → K' u) → Below H K' t := by
  intro t
  induction t with
  | nil | value v => intro _ _; trivial
  | short k c ih => intro h hK; exact ⟨fun hi hl => hK _ (h.1 hi hl), ih h.2 hK⟩
  | full cs ih => intro h hK i; exact ⟨fun hi hl => hK _ ((h i).1 hi hl), ih i (h i).2 hK⟩

/-- A new node has a flag that says nothing. -/
theorem flagOK_newFlag (top : Bool) (t : Content) : FlagOK H K false top newFlag t where
  hash_eq h he := absurd he (by simp [newFlag])
  large _ hh := absurd rfl hh
  small _ hd := absurd hd (by simp [newFlag])
  clean hd := absurd hd (by simp [newFlag])
  root _ hd := absurd hd (by simp [newFlag])
  hashed hk := absurd hk (by simp)

/-- The flag of a node loaded under its hash. -/
theorem flagOK_loaded (hl : top = false → 32 ≤ (enc H t).length) (hk : K t) :
    FlagOK H K known top ⟨some (hashOf H t), false⟩ t where
  hash_eq h he := (Option.some.inj he).symm
  large ht _ := hl ht
  small _ _ hn := absurd hn (by simp)
  clean _ _ := hk
  root _ _ := by simp
  hashed _ hn := absurd hn (by simp)

/-- The flag of a node that was loaded as a part of its parent. -/
theorem flagOK_embedded (hl : (enc H t).length < 32) : FlagOK H K known false ⟨none, false⟩ t where
  hash_eq h he := absurd he (by simp)
  large _ hh := absurd rfl hh
  small _ _ _ := hl
  clean _ hh := absurd rfl hh
  root ht := absurd ht (by simp)
  hashed _ _ := ⟨rfl, hl⟩

theorem Rep.nil_left (h : Rep H K known top .nil t) : t = .nil := by
  cases h
  rfl

/-- Only nil stands for the empty tree. -/
theorem Rep.nil_right (h : Rep H K known top n .nil) : n = .nil := by
  cases h with
  | nil => rfl
  | hash hi => cases hi

theorem Rep.isNil_iff (h : Rep H K known top n t) : n.isNil = true ↔ t = .nil := by
  rw [Node.isNil_iff]
  constructor
  · rintro rfl
    exact h.nil_left
  · rintro rfl
    exact h.nil_right

/-- Only a value node stands for a value. -/
theorem Rep.value_right {v : Bytes} (h : Rep H K known top n (.value v)) : n = .value v := by
  cases h with
  | value => rfl
  | hash hi => cases hi

/-! ## Loaded nodes -/

/-- The arms and children of a minimal tree. -/
def Part (t : Content) : Prop := t = .nil ∨ (∃ v, t = .value v) ∨ Minimal terminator t

theorem part_child {k : Hex} (h : Minimal terminator (.short k c)) : Part c := by
  rcases h with ⟨_, hv⟩ | ⟨_, _, _, hc⟩
  · exact .inr (.inl hv)
  · exact .inr (.inr hc)

theorem part_arm {cs : Fin 17 → Content} (h : Minimal terminator (.full cs)) (i : Fin 17) :
    Part (cs i) := by
  by_cases hn : cs i = .nil
  · exact .inl hn
  · by_cases hi : i = terminator
    · exact .inr (.inl ((h.arm hn).2 hi))
    · exact .inr (.inr ((h.arm hn).1 hi))

theorem isInner_iff_minimal (h : Part t) : IsInner t ↔ Minimal terminator t := by
  constructor
  · intro hi
    rcases h with rfl | ⟨v, rfl⟩ | hm
    · cases hi
    · cases hi
    · exact hm
  · exact isInner_of_minimal

/-- **A node that was just loaded stands for the tree it was made from.** -/
theorem rep_expandNode : ∀ {t : Content} {known top : Bool} {h : Option Hash}, Part t →
    Below H K t → (IsInner t → FlagOK H K known top ⟨h, false⟩ t) →
      Rep H K known top (expandNode h (collapsed H t)) t := by
  intro t
  induction t with
  | nil => intro known top h _ _ _; exact .nil
  | value v => intro known top h _ _ _; exact .value v
  | short k c ih =>
    intro known top h hp hb hfl
    have hm := (isInner_iff_minimal hp).mp trivial
    rw [expandNode_short hm]
    refine .short ?_ (hfl trivial)
    rcases toRef_cases (H := H) c with ⟨hi, hl, he⟩ | ⟨hs, he⟩
    · rw [loadedRef, he]
      exact .hash hi (fun _ => hl) (hb.1 hi hl)
    · rw [loadedRef, he]
      exact ih (part_child hm) hb.2 fun hi => flagOK_embedded (hs hi)
  | full cs ih =>
    intro known top h hp hb hfl
    have hm := (isInner_iff_minimal hp).mp trivial
    rw [expandNode_full]
    refine .full (fun i => ?_) (hfl trivial)
    rcases toRef_cases (H := H) (cs i) with ⟨hi, hl, he⟩ | ⟨hs, he⟩
    · rw [loadedRef, he]
      exact .hash hi (fun _ => hl) ((hb i).1 hi hl)
    · rw [loadedRef, he]
      exact ih i (part_arm hm i) (hb i).2 fun hi => flagOK_embedded (hs hi)

end Basic

end MxtChain.Trie
