/-
# MxtChain.Trie.Commitment — what a root hash commits to

A trie in memory is a partly loaded, partly hashed view of a Patricia tree, its `Content`. This
module says, without any trie operation, what the collapsed form, the encoding and the hash of
such a tree are, and that they determine it.

The hash function is a parameter everywhere (`sha3.NewLegacyKeccak256` is not part of the
repository).
-/
import MxtChain.Lib.Patricia.Canonical
import MxtChain.Rlp.Raw
import MxtChain.Trie.Node

namespace MxtChain.Trie

open Lib.Patricia List Rlp

/-- The tree a node stands for once every hash below it is resolved. -/
abbrev Content := Tree (Fin 17) Bytes

/-- The root hash of an empty trie (`emptyRoot`). -/
def emptyRoot : Hash :=
  ⟨[0x56, 0xe8, 0x1f, 0x17, 0x1b, 0xcc, 0x55, 0xa6, 0xff, 0x83, 0x45, 0xe6, 0x92, 0xc0, 0xf8, 0x6e,
    0x5b, 0x48, 0xe0, 0x1b, 0x99, 0x6c, 0xad, 0xc0, 0x01, 0x62, 0x2f, 0xb5, 0xe3, 0x63, 0xb4, 0x21],
    rfl⟩

/-- The byte string behind `emptyRoot`: the encoding of an empty string. -/
def emptyEnc : Bytes := [0x80]

/-! ## §1 — The collapsed form of a tree -/

section Collapsed

variable (H : Bytes → Hash)

/-- **How a parent refers to a node**: a short or full node with an encoding of 32 bytes or more
is replaced by its hash, everything else is part of the parent. -/
def toRef (n : RawNode) : RawNode :=
  match n with
  | .full _ | .short _ _ => if n.rlp.length < 32 then n else .hash (H n.rlp)
  | _ => n

def collapsed : Content → RawNode
  | .nil => .nil
  | .value v => .value v
  | .short k c => .short (hexToCompact k) (toRef H (collapsed c))
  | .full cs => .full fun i => toRef H (collapsed (cs i))

/-- The encoding of a tree's top node. -/
def enc (t : Content) : Bytes := (collapsed H t).rlp

def hashOf (t : Content) : Hash := H (enc H t)

/-- The root hash of a trie: an empty trie has the hash of the empty string. -/
def rootHash : Content → Hash
  | .nil => emptyRoot
  | t => hashOf H t

/-- The encodings of all short and full nodes of a tree. -/
def encodings : Content → List Bytes
  | .nil => []
  | .value _ => []
  | .short k c => enc H (.short k c) :: encodings c
  | .full cs => enc H (.full cs) :: (ofFn fun i => encodings (cs i)).flatten

/-- The RLP value that stands for a child inside its parent. -/
def refItem (t : Content) : Rlp.Item := (toRef H (collapsed H t)).childItem

end Collapsed

/-- The nodes that have an encoding of their own. -/
def IsInner : Content → Prop
  | .short _ _ => True
  | .full _ => True
  | _ => False

instance : DecidablePred IsInner
  | .nil => isFalse id
  | .value _ => isFalse id
  | .short _ _ => isTrue trivial
  | .full _ => isTrue trivial

variable {t c u : Content} {k : Hex} {E : List Bytes}

theorem isInner_of_minimal (h : Minimal terminator t) : IsInner t := by
  cases t with
  | nil | value v => cases h
  | short k c | full cs => trivial

section CollapsedLemmas

variable {H : Bytes → Hash}

theorem rootHash_of_inner (h : IsInner t) : rootHash H t = hashOf H t := by
  cases t with
  | nil | value v => cases h
  | short k c | full cs => rfl

theorem toRef_small (h : (enc H t).length < 32) : toRef H (collapsed H t) = collapsed H t := by
  cases t with
  | nil | value v => rfl
  | short k c | full cs => exact if_pos h

theorem toRef_large (hi : IsInner t) (h : 32 ≤ (enc H t).length) :
    toRef H (collapsed H t) = .hash (hashOf H t) := by
  cases t with
  | nil | value v => cases hi
  | short k c | full cs => exact if_neg (not_lt.mpr h)

/-- A reference is the hash of a large node or the collapsed node itself. -/
theorem toRef_cases (t : Content) :
    (IsInner t ∧ 32 ≤ (enc H t).length ∧ toRef H (collapsed H t) = .hash (hashOf H t)) ∨
      ((IsInner t → (enc H t).length < 32) ∧ toRef H (collapsed H t) = collapsed H t) := by
  by_cases hi : IsInner t
  · by_cases hl : 32 ≤ (enc H t).length
    · exact .inl ⟨hi, hl, toRef_large hi hl⟩
    · exact .inr ⟨fun _ => not_le.mp hl, toRef_small (not_le.mp hl)⟩
  refine .inr ⟨fun h => absurd h hi, ?_⟩
  cases t with
  | nil | value v => rfl
  | short k c | full cs => exact absurd trivial hi

theorem refItem_nil : refItem H .nil = .str [] := rfl

theorem refItem_value (v : Bytes) : refItem H (.value v) = .str v := rfl

theorem refItem_small (hi : IsInner t) (h : (enc H t).length < 32) :
    refItem H t = (collapsed H t).item := by
  rw [refItem, toRef_small h, RawNode.childItem]
  cases t with
  | nil | value v => cases hi
  | short k c | full cs => rfl

theorem refItem_large (hi : IsInner t) (h : 32 ≤ (enc H t).length) :
    refItem H t = .str (hashOf H t).bytes := by
  rw [refItem, toRef_large hi h]
  rfl

theorem refItem_of_ne_nil (h : t ≠ .nil) : refItem H t = (toRef H (collapsed H t)).item := by
  rcases toRef_cases (H := H) t with ⟨hi, hl, he⟩ | ⟨_, he⟩
  · rw [refItem, he]
    rfl
  rw [refItem, he]
  cases t with
  | nil => exact absurd rfl h
  | value v | short k c | full cs => rfl

theorem item_short (k : Hex) (hc : c ≠ .nil) :
    (collapsed H (.short k c)).item = .list [.str (hexToCompact k), refItem H c] := by
  rw [refItem_of_ne_nil hc]
  rfl

theorem item_full (cs : Fin 17 → Content) :
    (collapsed H (.full cs)).item = .list (ofFn fun i => refItem H (cs i)) := rfl

/-- An inner node is encoded as a list. -/
theorem exists_item_list (h : IsInner t) : ∃ items, (collapsed H t).item = .list items := by
  cases t with
  | nil | value v => cases h
  | short k c | full cs => exact ⟨_, rfl⟩

theorem enc_mem_encodings (h : IsInner t) : enc H t ∈ encodings H t := by
  cases t with
  | nil | value v => cases h
  | short k c | full cs => exact mem_cons_self

theorem encodings_short_subset (k : Hex) (c : Content) : encodings H c ⊆ encodings H (.short k c) :=
  fun _ h => mem_cons_of_mem _ h

theorem encodings_arm_subset (cs : Fin 17 → Content) (i : Fin 17) :
    encodings H (cs i) ⊆ encodings H (.full cs) := by
  intro b hb
  refine mem_cons_of_mem _ (mem_flatten.mpr ⟨_, ?_, hb⟩)
  exact mem_ofFn.mpr ⟨i, rfl⟩

end CollapsedLemmas

/-! ## §2 — Contents the machine can hold -/

/-- **Storable contents**: what a trie can come to hold, since keys and values are byte slices and
an empty value means deletion. -/
def Storable (t : Content) : Prop :=
  ∀ k v, lookup t k = some v → k.length < 2 * maxSliceLength ∧ v ≠ [] ∧ v.length < maxSliceLength

theorem storable_nil : Storable .nil := fun _ _ h => absurd h (by simp)

theorem Storable.child (h : Storable (.short k c)) : Storable c := by
  intro r v hr
  obtain ⟨hl, hv⟩ := h (k ++ r) v (by rw [lookup_short_append, hr])
  rw [length_append] at hl
  exact ⟨by omega, hv⟩

theorem Storable.arm {cs : Fin 17 → Content} (h : Storable (.full cs)) (i : Fin 17) :
    Storable (cs i) := by
  intro r v hr
  obtain ⟨hl, hv⟩ := h (i :: r) v hr
  rw [length_cons] at hl
  exact ⟨by omega, hv⟩

theorem Storable.value {v : Bytes} (h : Storable (.value v)) : v ≠ [] ∧ v.length < maxSliceLength :=
  (h [] v rfl).2

theorem Storable.length_label (h : Storable (.short k c))
    (hm : Minimal terminator (.short k c)) : k.length < 2 * maxSliceLength := by
  obtain ⟨w, v, _, hl⟩ := hm.exists_lookup
  obtain ⟨r, rfl, _⟩ := lookup_short_eq_some.mp hl
  have := (h _ _ hl).1
  rw [length_append] at this
  omega

section Size

variable {H : Bytes → Hash}

/-- A reference takes 33 bytes, unless it is a value. -/
theorem length_refItem_le (ht : Storable t) :
    (Rlp.encode (refItem H t)).length ≤ maxSliceLength + 33 := by
  by_cases hi : IsInner t
  · rcases toRef_cases (H := H) t with ⟨_, hl, _⟩ | ⟨hs, _⟩
    · rw [refItem_large hi hl, encode_str, length_encodeString_hash]
      omega
    · have h := hs hi
      rw [refItem_small hi h]
      exact le_trans (le_of_lt h) (by omega)
  cases t with
  | nil =>
    exact le_trans (by decide : (Rlp.encode (.str [])).length ≤ 1) (by omega)
  | value v =>
    have hv := ht.value.2
    have hle := length_encodeString_le v
    rw [refItem_value, encode_str]
    omega
  | short k c | full cs => exact absurd trivial hi

theorem ne_nil_of_minimal_short (h : Minimal terminator (.short k c)) : c ≠ .nil := by
  rcases h with ⟨_, v, rfl⟩ | ⟨_, _, ⟨cs, rfl⟩, _⟩ <;> simp

/-- **Node encodings have a 64-bit length.** -/
theorem length_enc_lt (hm : Minimal terminator t) (ht : Storable t) :
    (enc H t).length < 2 ^ 64 := by
  have hmax : maxSliceLength = 2 ^ 48 := rfl
  cases t with
  | nil | value v => cases hm
  | short k c =>
    have hk := ht.length_label hm
    have hc := length_hexToCompact_le k
    have he := length_encodeString_le (hexToCompact k)
    have hr := length_refItem_le (H := H) ht.child
    have hl := length_encode_list_le [.str (hexToCompact k), refItem H c]
    rw [enc, RawNode.rlp, item_short k (ne_nil_of_minimal_short hm)]
    simp only [encodeList_cons, encodeList_nil, append_nil, length_append, encode_str] at hl
    omega
  | full cs =>
    have hs := length_encodeList_le_sum (ofFn fun i => refItem H (cs i))
      (maxSliceLength + 33) (by
        intro x hx
        obtain ⟨i, rfl⟩ := mem_ofFn.mp hx
        exact length_refItem_le (ht.arm i))
    have hl := length_encode_list_le (ofFn fun i => refItem H (cs i))
    rw [length_ofFn] at hs
    rw [enc, RawNode.rlp, item_full]
    omega

end Size

/-! ## §3 — A tree is determined by its hash -/

/-- **What is assumed of the hash function** on the byte strings `E`: no two of them collide, none
of them collides with the empty string behind `emptyRoot`, and none hashes to the zero hash (the
key of the database's meta-root). -/
structure CollisionFree (H : Bytes → Hash) (E : List Bytes) : Prop where
  inj : ∀ a ∈ emptyEnc :: E, ∀ b ∈ emptyEnc :: E, H a = H b → a = b
  nonzero : ∀ a ∈ E, H a ≠ Hash.zero
  empty : H emptyEnc = emptyRoot

instance (H : Bytes → Hash) (E : List Bytes) : Decidable (CollisionFree H E) :=
  decidable_of_iff
    ((∀ a ∈ emptyEnc :: E, ∀ b ∈ emptyEnc :: E, H a = H b → a = b) ∧
      (∀ a ∈ E, H a ≠ Hash.zero) ∧ H emptyEnc = emptyRoot)
    ⟨fun ⟨h1, h2, h3⟩ => ⟨h1, h2, h3⟩, fun h => ⟨h.inj, h.nonzero, h.empty⟩⟩

/-- A hash function that is known on finitely many byte strings, for evaluation: each row has the
length and the digits of a byte string, and the digits of its hash. -/
def tableHash (table : List (Nat × Nat × Nat)) (b : Bytes) : Hash :=
  match table.find? fun row => Rlp.bigEndian row.1 row.2.1 = b with
  | some row => Hash.ofBytes (Rlp.bigEndian HashLength row.2.2)
  | none => Hash.zero

section Injective

variable {H : Bytes → Hash}

theorem enc_eq_of_item (h : (collapsed H t).item = (collapsed H u).item) : enc H t = enc H u := by
  rw [enc, enc, RawNode.rlp, RawNode.rlp, h]

/-- Only one of the two encodings has to be known to be short enough: they are equally long. -/
theorem item_eq_of_enc (ht : Minimal terminator t) (st : Storable t) (h : enc H t = enc H u) :
    (collapsed H t).item = (collapsed H u).item := by
  have hl := length_enc_lt (H := H) ht st
  exact encode_inj hl (by rw [h] at hl; exact hl) h

theorem bytes_ne_nil (h : Hash) : h.bytes ≠ [] := by
  intro he
  have := h.length_bytes
  rw [he] at this
  simp at this

/-- The reference of an inner node is not an empty string. -/
theorem refItem_ne_nil (hi : IsInner t) : refItem H t ≠ .str [] := by
  rcases toRef_cases (H := H) t with ⟨_, hl, _⟩ | ⟨hs, _⟩
  · rw [refItem_large hi hl]
    intro h
    exact bytes_ne_nil _ (Rlp.Item.str.inj h)
  · obtain ⟨items, hitems⟩ := exists_item_list (H := H) hi
    rw [refItem_small hi (hs hi), hitems]
    simp

/-- Two inner nodes with the same reference have the same encoding. -/
theorem enc_eq_of_refItem (cf : CollisionFree H E) (ht : IsInner t) (hu : IsInner u)
    (et : encodings H t ⊆ E) (eu : encodings H u ⊆ E) (h : refItem H t = refItem H u) :
    enc H t = enc H u := by
  obtain ⟨ts, hts⟩ := exists_item_list (H := H) ht
  obtain ⟨us, hus⟩ := exists_item_list (H := H) hu
  rcases toRef_cases (H := H) t with ⟨_, hlt, _⟩ | ⟨hst, _⟩ <;>
    rcases toRef_cases (H := H) u with ⟨_, hlu, _⟩ | ⟨hsu, _⟩
  · rw [refItem_large ht hlt, refItem_large hu hlu] at h
    have hh : hashOf H t = hashOf H u := Hash.ext_bytes (Rlp.Item.str.inj h)
    exact cf.inj _ (mem_cons_of_mem _ (et (enc_mem_encodings ht))) _
      (mem_cons_of_mem _ (eu (enc_mem_encodings hu))) hh
  · rw [refItem_large ht hlt, refItem_small hu (hsu hu), hus] at h
    cases h
  · rw [refItem_small ht (hst ht), refItem_large hu hlu, hts] at h
    cases h
  · rw [refItem_small ht (hst ht), refItem_small hu (hsu hu)] at h
    exact enc_eq_of_item h

theorem validHex_label (h : Minimal terminator (.short k c)) : ValidHex k := by
  rcases h with ⟨hk, _⟩ | ⟨_, hn, _⟩
  · exact .inr hk
  · exact .inl hn

/-- **A well-formed tree**, minimal or not: leaves carry a word and a value, inner edges carry a
label without terminator, a value that hangs directly in a branching hangs at the terminator. -/
def Formed : Content → Prop
  | .nil => False
  | .value _ => False
  | .short k c => (Word terminator k ∧ ∃ v, c = .value v) ∨ (terminator ∉ k ∧ Formed c)
  | .full cs => (∀ i, i ≠ terminator → cs i = .nil ∨ Formed (cs i)) ∧
      (cs terminator = .nil ∨ ∃ v, v ≠ [] ∧ cs terminator = .value v)

theorem Formed.isInner (h : Formed t) : IsInner t := by
  cases t with
  | nil | value v => cases h
  | short k c | full cs => trivial

theorem Formed.validHex (h : Formed (.short k c)) : ValidHex k := by
  rcases h with ⟨hk, _⟩ | ⟨hn, _⟩
  · exact .inr hk
  · exact .inl hn

theorem Formed.child_ne_nil (h : Formed (.short k c)) : c ≠ .nil := by
  rcases h with ⟨_, v, rfl⟩ | ⟨_, hc⟩
  · simp
  · rintro rfl
    exact hc

theorem formed_of_minimal : ∀ {t : Content}, Minimal terminator t → Storable t → Formed t := by
  intro t
  induction t with
  | nil | value v => intro h; cases h
  | short k c ih =>
    rintro (⟨hk, hv⟩ | ⟨_, hn, _, hc⟩) hs
    · exact .inl ⟨hk, hv⟩
    · exact .inr ⟨hn, ih hc hs.child⟩
  | full cs ih =>
    rintro ⟨ha, ht, _⟩ hs
    refine ⟨fun i hi => (ha i hi).imp id fun hm => ih i hm (hs.arm i), ht.imp id ?_⟩
    rintro ⟨v, hv⟩
    exact ⟨v, (hv ▸ hs.arm terminator : Storable (.value v)).value.1, hv⟩

variable (cf : CollisionFree H E)
include cf

/-- **The encoding of a minimal tree determines it** among all well-formed trees, when their
encodings do not collide. The induction is on the minimal tree; the other one is read off the
RLP value. -/
theorem enc_inj : ∀ {t u : Content},
    Minimal terminator t → Storable t → Formed u → encodings H t ⊆ E → encodings H u ⊆ E →
    enc H t = enc H u → t = u := by
  intro t
  induction t with
  | nil | value v => intro u ht; cases ht
  | short k c ih =>
    intro u ht st hu et eu h
    have hitem := item_eq_of_enc ht st h
    rw [item_short k (ne_nil_of_minimal_short ht)] at hitem
    cases u with
    | nil | value v => cases hu
    | full cs =>
      have := congrArg length (Rlp.Item.list.inj hitem)
      simp at this
    | short k' c' =>
      rw [item_short k' hu.child_ne_nil] at hitem
      simp only [Rlp.Item.list.injEq, cons.injEq, and_true, Rlp.Item.str.injEq] at hitem
      obtain ⟨hk, hc⟩ := hitem
      obtain rfl := hexToCompact_inj (validHex_label ht) hu.validHex hk
      congr 1
      rcases ht with ⟨hw, v, rfl⟩ | ⟨_, hn, _, hm⟩ <;> rcases hu with ⟨hw', v', rfl⟩ | ⟨hn', hm'⟩
      · rw [Rlp.Item.str.inj hc]
      · exact absurd hw.term_mem hn'
      · exact absurd hw'.term_mem hn
      have ec := Subset.trans (encodings_short_subset (H := H) k c) et
      have ec' := Subset.trans (encodings_short_subset (H := H) k c') eu
      exact ih hm st.child hm' ec ec'
        (enc_eq_of_refItem cf (isInner_of_minimal hm) hm'.isInner ec ec' hc)
  | full cs ih =>
    intro u ht st hu et eu h
    have hitem := item_eq_of_enc ht st h
    cases u with
    | nil | value v => cases hu
    | short k' c' =>
      have := congrArg length (Rlp.Item.list.inj hitem)
      simp at this
    | full cs' =>
      have harm := ofFn_injective (Rlp.Item.list.inj hitem)
      congr 1
      funext i
      have hi : refItem H (cs i) = refItem H (cs' i) := congrFun harm i
      by_cases hit : i = terminator
      · subst hit
        rcases ht.2.1 with hn | ⟨v, hv⟩ <;> rcases hu.2 with hn' | ⟨v', hne', hv'⟩
        · rw [hn, hn']
        · rw [hn, hv', refItem_nil, refItem_value] at hi
          exact absurd (Rlp.Item.str.inj hi).symm hne'
        · rw [hv, hn', refItem_nil, refItem_value] at hi
          have hne := (hv ▸ st.arm terminator : Storable (.value v)).value.1
          exact absurd (Rlp.Item.str.inj hi) hne
        · rw [hv, hv', refItem_value, refItem_value] at hi
          rw [hv, hv', Rlp.Item.str.inj hi]
      · rcases ht.1 i hit with hn | hm <;> rcases hu.1 i hit with hn' | hm'
        · rw [hn, hn']
        · rw [hn, refItem_nil] at hi
          exact absurd hi.symm (refItem_ne_nil hm'.isInner)
        · rw [hn', refItem_nil] at hi
          exact absurd hi (refItem_ne_nil (isInner_of_minimal hm))
        have ec := Subset.trans (encodings_arm_subset (H := H) cs i) et
        have ec' := Subset.trans (encodings_arm_subset (H := H) cs' i) eu
        exact ih i hm (st.arm i) hm' ec ec'
          (enc_eq_of_refItem cf (isInner_of_minimal hm) hm'.isInner ec ec' hi)

/-- **A root hash determines its tree.** -/
theorem hashOf_inj (ht : Minimal terminator t) (st : Storable t) (hu : Formed u)
    (et : encodings H t ⊆ E) (eu : encodings H u ⊆ E) (h : hashOf H t = hashOf H u) : t = u := by
  refine enc_inj cf ht st hu et eu (cf.inj _ ?_ _ ?_ h)
  · exact mem_cons_of_mem _ (et (enc_mem_encodings (isInner_of_minimal ht)))
  · exact mem_cons_of_mem _ (eu (enc_mem_encodings hu.isInner))

theorem CollisionFree.hashOf_ne_zero (hi : IsInner t)
    (et : encodings H t ⊆ E) : hashOf H t ≠ Hash.zero :=
  cf.nonzero _ (et (enc_mem_encodings hi))

/-- No node hashes to the root hash of an empty trie: a node is encoded as a list. -/
theorem CollisionFree.hashOf_ne_emptyRoot (hm : Minimal terminator t)
    (hs : Storable t) (et : encodings H t ⊆ E) : hashOf H t ≠ emptyRoot := by
  intro h
  rw [← cf.empty] at h
  have he : enc H t = Rlp.encode (.str []) :=
    cf.inj _ (mem_cons_of_mem _ (et (enc_mem_encodings (isInner_of_minimal hm)))) _
      mem_cons_self h
  obtain ⟨items, hitems⟩ := exists_item_list (H := H) (isInner_of_minimal hm)
  have := encode_inj (length_enc_lt hm hs) (by decide) he
  rw [hitems] at this
  cases this

/-- Two canonical trees with the same root hash are the same tree. -/
theorem rootHash_inj (ht : Canon terminator t) (hu : Canon terminator u)
    (st : Storable t) (su : Storable u) (et : encodings H t ⊆ E) (eu : encodings H u ⊆ E)
    (h : rootHash H t = rootHash H u) : t = u := by
  rcases ht with rfl | ht <;> rcases hu with rfl | hu
  · rfl
  · rw [rootHash_of_inner (isInner_of_minimal hu)] at h
    exact absurd h.symm (cf.hashOf_ne_emptyRoot hu su eu)
  · rw [rootHash_of_inner (isInner_of_minimal ht)] at h
    exact absurd h (cf.hashOf_ne_emptyRoot ht st et)
  · rw [rootHash_of_inner (isInner_of_minimal ht), rootHash_of_inner (isInner_of_minimal hu)] at h
    exact hashOf_inj cf ht st (formed_of_minimal hu su) et eu h

end Injective

end MxtChain.Trie
