/-
# MxtChain.Trie.HasherSpec — the hasher computes the hash of the tree

`Hasher.hash` trusts the cached hashes it meets and caches the ones it computes. On a node that
stands for a well-formed tree it returns the reference of that tree (its hash, or the collapsed
node if that is small), and a node that still stands for the same tree with every hash known.
-/
import MxtChain.Trie.Represents

namespace MxtChain.Trie

open Lib.Patricia

namespace Hasher

variable {H : Bytes → Hash} {K : Content → Prop} {force known top : Bool} {t c : Content}
  {cs : Fin 17 → Content} {ns : Fin 17 → Node} {n val : Node} {fl : NodeFlag} {r : RawNode}

/-- What hashing the tree `t` returns: its hash if it is forced or large enough, and otherwise a
node with the same RLP value. -/
def HashedAs (H : Bytes → Hash) (force : Bool) (t : Content) (r : RawNode) : Prop :=
  if force = true ∨ 32 ≤ (enc H t).length then r = .hash (hashOf H t)
  else r.item = (collapsed H t).item ∧ r.asHash = none ∧ r.isNil = false

theorem HashedAs.of_large (h : HashedAs H force t r) (hl : force = true ∨ 32 ≤ (enc H t).length) :
    r = .hash (hashOf H t) := by
  rwa [HashedAs, if_pos hl] at h

theorem hashedAs_hash (h : force = false → 32 ≤ (enc H t).length) :
    HashedAs H force t (.hash (hashOf H t)) := by
  rw [HashedAs, if_pos]
  cases force with
  | true => exact .inl rfl
  | false => exact .inr (h rfl)

/-- A child that was hashed is written into its parent as a reference. -/
theorem HashedAs.childItem (h : HashedAs H false t r) (hi : IsInner t) :
    r.childItem = refItem H t := by
  by_cases hl : 32 ≤ (enc H t).length
  · rw [h.of_large (.inr hl), refItem_large hi hl]
    rfl
  have hc : ¬ (false = true ∨ 32 ≤ (enc H t).length) := by simp [hl]
  rw [HashedAs, if_neg hc] at h
  rw [refItem_small hi (not_le.mp hl), RawNode.childItem, h.2.2, ← h.1]
  rfl

/-- Hashing a node whose RLP value is that of the tree. -/
theorem hashedAs_nodeToHash (h : r.item = (collapsed H t).item) (hh : r.asHash = none)
    (hn : r.isNil = false) (force : Bool) : HashedAs H force t (nodeToHash H r force) := by
  have hrlp : r.rlp = enc H t := by rw [enc, RawNode.rlp, RawNode.rlp, h]
  rw [nodeToHash, hrlp, HashedAs]
  by_cases hc : (enc H t).length < 32 ∧ force = false
  · rw [if_pos hc, if_neg (by rw [hc.2]; simp [hc.1])]
    exact ⟨h, hh, hn⟩
  rw [if_neg hc, if_pos]
  · rfl
  · cases force with
    | true => exact .inl rfl
    | false => exact .inr (not_lt.mp fun hl => hc ⟨hl, rfl⟩)

theorem HashedAs.isNil_eq_false (h : HashedAs H force t r) : r.isNil = false := by
  unfold HashedAs at h
  split at h
  · rw [h]
    rfl
  · exact h.2.2

/-- The flag that hashing leaves behind. -/
theorem flagOK_of_hashedAs (h : HashedAs H top t r) (hfl : FlagOK H K known top fl t)
    (hn : fl.hash = none) : FlagOK H K true top ⟨r.asHash, fl.dirty⟩ t := by
  by_cases hl : top = true ∨ 32 ≤ (enc H t).length
  · obtain rfl := h.of_large hl
    have hlarge : top = false → 32 ≤ (enc H t).length := by
      rintro rfl
      exact hl.resolve_left (by simp)
    have hsome : (RawNode.hash (hashOf H t)).asHash ≠ none := by simp [RawNode.asHash]
    refine ⟨fun h he => (Option.some.inj he).symm, fun ht _ => hlarge ht,
      fun _ _ he => absurd he hsome, fun hd _ => ?_, fun _ _ => hsome, fun _ he => absurd he hsome⟩
    -- a clean node without a hash is embedded in its parent
    cases top with
    | true => exact absurd hn (hfl.root rfl hd)
    | false => exact absurd (hfl.small rfl hd hn) (not_lt.mpr (hlarge rfl))
  · rw [HashedAs, if_neg hl] at h
    rw [not_or, not_le, Bool.not_eq_true] at hl
    rw [h.2.1]
    exact ⟨fun h he => absurd he (by simp), fun _ hh => absurd rfl hh, fun _ _ _ => hl.2,
      fun _ hh => absurd rfl hh, fun ht => absurd ht (by simp [hl.1]), fun _ _ => hl⟩

theorem flagOK_of_hash {h : Hash} (hfl : FlagOK H K known top fl t) (hh : fl.hash = some h) :
    FlagOK H K true top fl t :=
  { hfl with hashed := fun _ hn => absurd (hn.symm.trans hh) (by simp) }

/-- Hashing leaves value, hash and nil nodes alone, so the test for the child's type in
`hashShortNodeChildren` does not matter. -/
theorem hash_of_not_isInner (h : n.isInner = false) (force : Bool) :
    hash H n force = (n.asIs, n) := by
  cases n with
  | nil => rfl
  | full ns fl | short k v fl => cases h
  | hash g | value v => rfl

theorem hashShortNodeChildren_eq (key : Hex) (val : Node) (fl : NodeFlag) :
    hashShortNodeChildren key val fl (hash H val false) =
      (.short (hexToCompact key) (hash H val false).1, .short key (hash H val false).2 fl) := by
  rw [hashShortNodeChildren]
  split
  · rfl
  · rename_i hi
    rw [hash_of_not_isInner (Bool.not_eq_true _ ▸ hi)]

theorem hash_short_of_none {key : Hex} (h : fl.hash = none) (force : Bool) :
    hash H (.short key val fl) force =
      (shortnodeToHash H (.short (hexToCompact key) (hash H val false).1) force,
        .short key (hash H val false).2
          ⟨(shortnodeToHash H (.short (hexToCompact key) (hash H val false).1) force).asHash,
            fl.dirty⟩) := by
  rw [hash, h]
  simp only [hashShortNodeChildren_eq, Node.setHash]

theorem hash_full_of_none (h : fl.hash = none) (force : Bool) : hash H (.full ns fl) force =
      (fullnodeToHash H (hashFullNodeChildren ns fl fun i => hash H (ns i) false).1 force,
        (hashFullNodeChildren ns fl fun i => hash H (ns i) false).2.setHash
          (fullnodeToHash H
            (hashFullNodeChildren ns fl fun i => hash H (ns i) false).1 force).asHash) := by
  rw [hash, h]

/-! ## The specification -/

/-- The children of a well-formed tree. -/
def FormedPart (t : Content) : Prop := t = .nil ∨ (∃ v, t = .value v) ∨ Formed t

theorem formedPart_child {k : Hex} (h : Formed (.short k c)) : FormedPart c := by
  rcases h with ⟨_, hv⟩ | ⟨_, hc⟩
  · exact .inr (.inl hv)
  · exact .inr (.inr hc)

theorem formedPart_arm (h : Formed (.full cs)) (i : Fin 17) : FormedPart (cs i) := by
  by_cases hi : i = terminator
  · subst hi
    rcases h.2 with hn | ⟨v, _, hv⟩
    · exact .inl hn
    · exact .inr (.inl ⟨v, hv⟩)
  · exact (h.1 i hi).imp id .inr

/-- What the specification says about one node. -/
def Correct (H : Bytes → Hash) (K : Content → Prop) (top : Bool) (n : Node) (t : Content) : Prop :=
  HashedAs H top t (hash H n top).1 ∧ Rep H K true top (hash H n top).2 t

/-- A child is replaced by its reference, and the hashed child stands for the same tree. -/
theorem hash_child (h : Rep H K known false n t) (hp : FormedPart t)
    (hc : Formed t → Correct H K false n t) : (hash H n false).1.childItem = refItem H t ∧
      (t ≠ .nil → (hash H n false).1.isNil = false) ∧ Rep H K true false (hash H n false).2 t := by
  rcases hp with rfl | ⟨v, rfl⟩ | hf
  · obtain rfl := h.nil_right
    exact ⟨rfl, fun hn => absurd rfl hn, .nil⟩
  · obtain rfl := h.value_right
    exact ⟨rfl, fun _ => rfl, .value v⟩
  · exact ⟨(hc hf).1.childItem hf.isInner, fun _ => (hc hf).1.isNil_eq_false, (hc hf).2⟩

/-- The seventeenth child of a full node is nil or a value; hashing leaves it alone. -/
theorem hash_last (hf : Formed (.full cs)) (h : Rep H K known false n (cs 16)) :
    hash H n false = (n.asIs, n) := by
  rcases hf.2 with hn | ⟨v, _, hv⟩
  · obtain rfl := (hn ▸ h : Rep H K known false n .nil).nil_right
    rfl
  · obtain rfl := (hv ▸ h : Rep H K known false n (.value v)).value_right
    rfl

/-- The tests for nil and for the seventeenth child in `hashFullNodeChildren` change nothing in
what is encoded. -/
theorem item_hashFullNodeChildren (fl : NodeFlag) (hf : Formed (.full cs))
    (hrep : ∀ i, Rep H K known false (ns i) (cs i))
    (hitem : ∀ i, (hash H (ns i) false).1.childItem = refItem H (cs i)) :
    (hashFullNodeChildren ns fl fun i => hash H (ns i) false).1.item =
      (collapsed H (.full cs)).item := by
  rw [item_full, hashFullNodeChildren, RawNode.item]
  congr 2
  funext i
  change RawNode.childItem _ = _
  by_cases hi : i = 16
  · subst hi
    rw [if_pos rfl, ← hitem 16, hash_last hf (hrep 16)]
  rw [if_neg hi]
  by_cases hn : (ns i).isNil = true
  · rw [if_pos hn, (hrep i).isNil_iff.mp hn]
    rfl
  · rw [if_neg hn, hitem i]

theorem cached_hashFullNodeChildren (hf : Formed (.full cs))
    (hrep : ∀ i, Rep H K known false (ns i) (cs i)) :
    (hashFullNodeChildren ns fl fun i => hash H (ns i) false).2 =
      .full (fun i => (hash H (ns i) false).2) fl := by
  simp only [hashFullNodeChildren, Node.full.injEq, and_true]
  funext i
  by_cases hi : i = 16
  · subst hi
    rw [if_pos rfl, hash_last hf (hrep 16)]
  rw [if_neg hi]
  by_cases hn : (ns i).isNil = true
  · rw [if_pos hn, Node.isNil_iff.mp hn]
    rfl
  · rw [if_neg hn]

/-- **The hasher is correct.** The induction follows the node in memory; a cached hash ends it. -/
theorem hash_spec (h : Rep H K known top n t) (hf : Formed t) : Correct H K top n t := by
  induction h with
  | nil | value v => cases hf
  | hash hi hl hk => exact ⟨hashedAs_hash hl, .hash hi hl hk⟩
  | @short known top k n c fl hrep hfl ih =>
    cases hh : fl.hash with
    | some g =>
      have hres : hash H (.short k n fl) top = (.hash g, .short k n fl) := by rw [hash, hh]
      rw [Correct, hres, hfl.hash_eq g hh]
      refine ⟨hashedAs_hash fun ht => hfl.large ht (by simp [hh]), ?_⟩
      exact .short (hrep.mono (fun _ hu => hu) (by simp [hh])) (flagOK_of_hash hfl hh)
    | none =>
      obtain ⟨hitem, hnil, hcached⟩ := hash_child hrep (formedPart_child hf) ih
      have hraw : (RawNode.short (hexToCompact k) (hash H n false).1).item =
          (collapsed H (.short k c)).item := by
        rw [RawNode.childItem, hnil hf.child_ne_nil] at hitem
        rw [item_short k hf.child_ne_nil, ← hitem]
        rfl
      have hd := hashedAs_nodeToHash hraw rfl rfl top
      rw [Correct, hash_short_of_none hh]
      exact ⟨hd, .short hcached (flagOK_of_hashedAs hd hfl hh)⟩
  | @full known top ns cs fl hrep hfl ih =>
    cases hh : fl.hash with
    | some g =>
      have hres : hash H (.full ns fl) top = (.hash g, .full ns fl) := by rw [hash, hh]
      rw [Correct, hres, hfl.hash_eq g hh]
      refine ⟨hashedAs_hash fun ht => hfl.large ht (by simp [hh]), ?_⟩
      exact .full (fun i => (hrep i).mono (fun _ hu => hu) (by simp [hh])) (flagOK_of_hash hfl hh)
    | none =>
      have hkids := fun i => hash_child (hrep i) (formedPart_arm hf i) (ih i)
      have hraw := item_hashFullNodeChildren fl hf hrep fun i => (hkids i).1
      have hd := hashedAs_nodeToHash hraw rfl rfl top
      rw [Correct, hash_full_of_none hh, cached_hashFullNodeChildren hf hrep]
      exact ⟨hd, .full (fun i => (hkids i).2.2) (flagOK_of_hashedAs hd hfl hh)⟩

theorem hash_root (h : Rep H K known true n t) (hf : Formed t) :
    (hash H n true).1 = .hash (hashOf H t) ∧ Rep H K true true (hash H n true).2 t :=
  ⟨(hash_spec h hf).1.of_large (.inl rfl), (hash_spec h hf).2⟩

/-- **A proof element has the encoding of its tree**, and a hash of its own if that is large. -/
theorem proofHash_spec (h : Rep H K known top n t) (hf : Formed t) (hn : ∀ g, n ≠ .hash g) :
    (proofHash H n).1.rlp = enc H t ∧
      (proofHash H n).2.asHash = if (enc H t).length < 32 then none else some (hashOf H t) := by
  have hfinish : ∀ r : RawNode, r.item = (collapsed H t).item → r.asHash = none →
      r.isNil = false → r.rlp = enc H t ∧ (nodeToHash H r false).asHash =
        if (enc H t).length < 32 then none else some (hashOf H t) := by
    intro r hitem hh hnil
    have hd := hashedAs_nodeToHash hitem hh hnil false
    refine ⟨by rw [enc, RawNode.rlp, RawNode.rlp, hitem], ?_⟩
    by_cases hl : (enc H t).length < 32
    · rw [HashedAs, if_neg (by simp [hl])] at hd
      rw [if_pos hl, hd.2.1]
    · rw [if_neg hl, hd.of_large (.inr (not_lt.mp hl))]
      rfl
  cases h with
  | nil | value v => cases hf
  | hash hi hl hk => exact absurd rfl (hn _)
  | @short _ _ k n c fl hrep hfl =>
    obtain ⟨hitem, hnil, _⟩ := hash_child hrep (formedPart_child hf) fun hc => hash_spec hrep hc
    rw [proofHash, hashShortNodeChildren_eq]
    refine hfinish _ ?_ rfl rfl
    rw [RawNode.childItem, hnil hf.child_ne_nil] at hitem
    rw [item_short k hf.child_ne_nil, ← hitem]
    rfl
  | @full _ _ ns cs fl hrep hfl =>
    have hkids := fun i => hash_child (hrep i) (formedPart_arm hf i) fun hc => hash_spec (hrep i) hc
    exact hfinish _ (item_hashFullNodeChildren fl hf hrep fun i => (hkids i).1) rfl rfl

end Hasher

end MxtChain.Trie
