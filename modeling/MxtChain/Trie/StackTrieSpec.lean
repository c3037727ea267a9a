/-
# MxtChain.Trie.StackTrieSpec — what a stack trie hashes

A stack trie stands for a Patricia tree of which only the path to the last key is still open.
Its `hash` does not write a node the way the trie's hasher does: below an extension, a reference
to a small branch is written as a *string* where the hasher puts the branch itself.
-/
import MxtChain.Trie.Session
import MxtChain.Trie.StackTrie

set_option linter.dupNamespace false

namespace MxtChain.Trie

open Lib.Patricia Function
open List hiding attach_cons attach_nil

namespace StackTrie

/-! ## §1 — The encoding of a tree -/

section Encoding

variable (H : Bytes → MxtChain.Hash)

/-- The bytes that stand for a node below an extension. -/
def stackRef : Rlp.Item → Bytes
  | .str b => b
  | .list items => compress H (Rlp.encode (.list items))

/-- The RLP value that stands for a node inside a branch. -/
def stackChild : Rlp.Item → Rlp.Item
  | .str b => .str b
  | .list items =>
    if (Rlp.encode (.list items)).length < 32 then .list items
    else .str (H (Rlp.encode (.list items))).bytes

/-- **The RLP value that a stack trie writes for a tree.** -/
def stackItem : Content → Rlp.Item
  | .nil => .str []
  | .value v => .str v
  | .short k c => .list [.str (hexToCompact k), .str (stackRef H (stackItem c))]
  | .full cs => .list (ofFn fun i => stackChild H (stackItem (cs i)))

/-- The encoding that a stack trie writes for a tree. -/
def stackEnc (t : Content) : Bytes := Rlp.encode (stackItem H t)

end Encoding

variable {H : Bytes → MxtChain.Hash}

variable {t : Content} {x : Fin 17} {key n : Hex} {E : List Bytes} {st : StackTrie}

theorem exists_stackItem_list (h : IsInner t) : ∃ items, stackItem H t = .list items := by
  cases t with
  | nil | value v => cases h
  | short k c | full cs => exact ⟨_, rfl⟩

theorem stackRef_inner (h : IsInner t) :
    stackRef H (stackItem H t) = compress H (stackEnc H t) := by
  obtain ⟨items, hitems⟩ := exists_stackItem_list (H := H) h
  rw [stackEnc, hitems]
  rfl

theorem encodeChild_compress (h : IsInner t) :
    encodeChild (compress H (stackEnc H t)) = Rlp.encode (stackChild H (stackItem H t)) := by
  obtain ⟨items, hitems⟩ := exists_stackItem_list (H := H) h
  rw [stackEnc, hitems, stackChild, compress]
  split
  · rename_i hs
    exact if_pos hs
  · exact if_neg (by simp)

theorem flatten_encode : ∀ items : List Rlp.Item,
    (items.map Rlp.encode).flatten = Rlp.encodeList items
  | [] => rfl
  | item :: rest => by
    rw [map_cons, flatten_cons, flatten_encode rest, Rlp.encodeList_cons]

theorem encodeMembers_map (items : List Rlp.Item) :
    encodeMembers (items.map Rlp.encode) = Rlp.encode (.list items) := by
  rw [encodeMembers, flatten_encode, Rlp.encode_list]

/-! ## §2 — The tree a stack trie stands for -/

/-- **`Denotes H st t`** — the stack trie `st` stands for the tree `t`. -/
inductive Denotes (H : Bytes → MxtChain.Hash) : StackTrie → Content → Prop
  | nil : Denotes H .nil .nil
  | hashed {t : Content} : IsInner t → Denotes H (.hashedNode (compress H (stackEnc H t))) t
  | leaf (ko : Nat) (k : Hex) (v : Bytes) :
      Denotes H (.leafNode ko k v) (.short (k ++ [terminator]) (.value v))
  | ext (ko : Nat) (k : Hex) {c : StackTrie} {t : Content} :
      IsInner t → Denotes H c t → Denotes H (.extNode ko k c) (.short k t)
  | branch (ko : Nat) {cs : Fin 16 → StackTrie} {ts : Fin 17 → Content} :
      (∀ i : Fin 16, Denotes H (cs i) (ts i.castSucc)) → ts terminator = .nil →
      Denotes H (.branchNode ko cs) (.full ts)

theorem Denotes.isNil_iff (h : Denotes H st t) : st.isNil = true ↔ t = .nil := by
  cases h with
  | nil => simp [isNil]
  | hashed hi =>
    simp only [isNil, Bool.false_eq_true, false_iff]
    rintro rfl
    exact hi
  | leaf | ext | branch => simp [isNil]

theorem Denotes.isInner (h : Denotes H st t) (hn : st.isNil = false) : IsInner t := by
  cases h with
  | nil => cases hn
  | hashed hi => exact hi
  | leaf | ext | branch => trivial

theorem collect_ok {α : Type} : ∀ (rs : List (Except Err α)) (xs : List α),
    rs = xs.map .ok → collect rs = .ok xs
  | _, [], h => by rw [h]; rfl
  | _, x :: xs, h => by
    rw [h, map_cons, collect]
    simp only [collect_ok _ xs rfl]
    rfl

/-- **Hashing a stack trie hashes its tree** in the stack trie's encoding. -/
theorem hash_spec (h : Denotes H st t) (hn : st.isNil = false) :
    st.hash H = .ok (compress H (stackEnc H t)) := by
  induction h with
  | nil => cases hn
  | hashed _ => rfl
  | leaf ko k v =>
    obtain ⟨buf, n, hbuf, htake⟩ := hexToCompactInPlace_spec (h := k ++ [terminator]) (by simp)
    rw [hash, hbuf]
    simp only [htake]
    rfl
  | @ext ko k c t hi hc ih =>
    have hcn : c.isNil = false := by
      rw [← Bool.not_eq_true, hc.isNil_iff]
      rintro rfl
      exact hi
    rw [hash, ih hcn]
    simp only [← stackRef_inner hi]
    rfl
  | @branch ko cs ts hc ht ih =>
    have hmember : ∀ i : Fin 16, (if (cs i).isNil then .ok (Rlp.encodeString [])
        else ((cs i).hash H).map encodeChild) =
          (.ok (Rlp.encode (stackChild H (stackItem H (ts i.castSucc)))) : Except Err Bytes) := by
      intro i
      cases hni : (cs i).isNil with
      | true =>
        rw [(hc i).isNil_iff.mp hni]
        rfl
      | false =>
        rw [if_neg (by simp), ih i hni, ← encodeChild_compress ((hc i).isInner hni)]
        rfl
    have hcollect := collect_ok (ofFn fun i : Fin 16 =>
        if (cs i).isNil then .ok (Rlp.encodeString []) else ((cs i).hash H).map encodeChild)
      (ofFn fun i : Fin 16 => Rlp.encode (stackChild H (stackItem H (ts i.castSucc))))
      (by exact congrArg ofFn (funext hmember))
    rw [hash, hcollect]
    have hall : stackEnc H (.full ts) = encodeMembers ((ofFn fun i : Fin 16 =>
        Rlp.encode (stackChild H (stackItem H (ts i.castSucc)))) ++ [Rlp.encodeString []]) := by
      rw [stackEnc, stackItem, ← encodeMembers_map, map_ofFn, ofFn_succ_last]
      have hlast : ts (Fin.last 16) = .nil := ht
      simp only [comp_apply, hlast]
      rfl
    simp only [hall]

/-! ## §3 — Inserting in increasing order -/

/-- **What is open in a stack trie**: the path through the last child of every branch, with the
key offsets of its nodes. -/
def Live : Nat → StackTrie → Prop
  | ko, .leafNode keyOffset _ _ => keyOffset = ko
  | ko, .extNode keyOffset k c => keyOffset = ko ∧ Live (ko + k.length) c
  | ko, .branchNode keyOffset cs => keyOffset = ko ∧
      ∀ i, (cs i).isNil = false → (∀ j, i < j → (cs j).isNil = true) → Live (ko + 1) (cs i)
  | _, _ => False

/-- **`Ahead t n`** — every key of `t` parts ways with the nibbles `n`, and reads the smaller letter
there. -/
def Ahead (t : Content) (n : Hex) : Prop :=
  ∀ w v, lookup t w = some v → ∃ p x y r s, w = p ++ x :: r ∧ n = p ++ y :: s ∧ x < y

theorem Ahead.of_append {k : Hex} (h : Ahead (.short k t) (k ++ n)) : Ahead t n := by
  intro w v hw
  obtain ⟨p, x, y, r, s, hp, hn, hxy⟩ := h (k ++ w) v (by rw [lookup_short_append, hw])
  obtain ⟨p', rfl⟩ := isPrefix_of_fork (ne_of_lt hxy) (hp ▸ prefix_append k w)
    (hn ▸ prefix_append k n)
  rw [append_assoc, append_cancel_left_eq] at hp hn
  exact ⟨p', x, y, r, s, hp, hn, hxy⟩

theorem Ahead.of_cons {ts : Fin 17 → Content} {i : Fin 17} (h : Ahead (.full ts) (i :: n)) :
    Ahead (ts i) n := by
  intro w v hw
  obtain ⟨p, x, y, r, s, hp, hn, hxy⟩ := h (i :: w) v hw
  cases p with
  | nil =>
    rw [nil_append, cons.injEq] at hp hn
    exact absurd (hp.1.symm.trans hn.1) (ne_of_lt hxy)
  | cons z p =>
    rw [cons_append, cons.injEq] at hp hn
    exact ⟨p, x, y, r, s, hp.2, hn.2, hxy⟩

/-- No child of a branch lies behind the letter that the next key reads. -/
theorem Ahead.le_of_lookup {ts : Fin 17 → Content} {i j : Fin 17} {w : Hex} {v : Bytes}
    (h : Ahead (.full ts) (i :: n)) (hw : lookup (ts j) w = some v) : j ≤ i := by
  obtain ⟨p, x, y, r, s, hp, hn, hxy⟩ := h (j :: w) v hw
  cases p with
  | nil =>
    rw [nil_append, cons.injEq] at hp hn
    rw [hp.1, hn.1]
    exact le_of_lt hxy
  | cons z p =>
    rw [cons_append, cons.injEq] at hp hn
    rw [hp.1, hn.1]

/-- A key ahead of an edge runs through its whole label, or leaves it for a larger letter. -/
theorem Ahead.label_cases {k w : Hex} {v : Bytes} (h : Ahead (.short k t) n)
    (hw : lookup t w = some v) :
    (∃ r, n = k ++ r) ∨ ∃ p x y r s, k ++ w = p ++ x :: r ∧ n = p ++ y :: s ∧ x < y ∧
      ∃ k', k = p ++ x :: k' := by
  obtain ⟨p, x, y, r, s, hp, hn, hxy⟩ := h (k ++ w) v (by rw [lookup_short_append, hw])
  rcases append_eq_append_iff.mp hp with ⟨a, ha, _⟩ | ⟨c, hc, hr⟩
  · exact .inl ⟨a ++ y :: s, by rw [hn, ha, append_assoc]⟩
  cases c with
  | nil =>
    rw [append_nil] at hc
    exact .inl ⟨y :: s, by rw [hn, hc]⟩
  | cons z c =>
    rw [cons_append, cons.injEq] at hr
    exact .inr ⟨p, x, y, r, s, hp, hn, hxy, c, by rw [hc, hr.1]⟩

theorem getDiffIndex_append : ∀ k r : Hex, getDiffIndex k (k ++ r) = .ok k.length
  | [], r => rfl
  | x :: k, r => by
    rw [cons_append, getDiffIndex, if_pos rfl, getDiffIndex_append k r]
    rfl

theorem getDiffIndex_fork {x y : Fin 17} (hxy : x ≠ y) : ∀ p k s : Hex,
    getDiffIndex (p ++ x :: k) (p ++ y :: s) = .ok p.length
  | [], k, s => by rw [nil_append, nil_append, getDiffIndex, if_neg hxy]; rfl
  | z :: p, k, s => by
    rw [cons_append, cons_append, getDiffIndex, if_pos rfl, getDiffIndex_fork hxy p k s]
    rfl

theorem getElem?_of_drop {r : Hex} {i : Nat} (h : key.drop i = x :: r) : key[i]? = some x := by
  rw [← head?_drop, h]
  rfl

theorem childIndex_castSucc {i : Nat} (j : Fin 16) (h : key[i]? = some j.castSucc) :
    childIndex key i = .ok j := by
  rw [childIndex, h]
  exact dif_pos j.isLt

/-- A letter other than the terminator is an index of the children. -/
theorem exists_castSucc (h : x ≠ terminator) : ∃ j : Fin 16, x = j.castSucc :=
  ⟨x.castPred h, (Fin.castSucc_castPred x h).symm⟩

/-- Writing one child of a branch and the same arm of its tree. -/
theorem denotes_update {cs : Fin 16 → StackTrie} {ts : Fin 17 → Content}
    (hc : ∀ i : Fin 16, Denotes H (cs i) (ts i.castSucc)) (ht : ts terminator = .nil) (j : Fin 16)
    {c : StackTrie} {t : Content} (h : Denotes H c t) : (∀ i : Fin 16, Denotes H (update cs j c i)
      (update ts j.castSucc t i.castSucc)) ∧
      update ts j.castSucc t terminator = .nil := by
  constructor
  · intro i
    by_cases hij : i = j
    · subst hij
      rw [update_self, update_self]
      exact h
    · rw [update_of_ne hij, update_of_ne (fun he => hij (Fin.castSucc_inj.mp he))]
      exact hc i
  · have hne : terminator ≠ j.castSucc := (Fin.castSucc_ne_last j).symm
    rw [update_of_ne hne]
    exact ht

/-- The last child that is not nil is the one just written, when nothing lies behind it. -/
theorem live_update {ko : Nat} {cs : Fin 16 → StackTrie} {j : Fin 16} {c : StackTrie}
    (hbehind : ∀ i, j < i → (cs i).isNil = true) (hn : c.isNil = false) (h : Live (ko + 1) c) :
    Live ko (.branchNode ko (update cs j c)) := by
  refine ⟨rfl, fun i hi hlast => ?_⟩
  have hij : i = j := by
    rcases lt_trichotomy i j with hlt | heq | hgt
    · have := hlast j hlt
      rw [update_self, hn] at this
      cases this
    · exact heq
    · rw [update_of_ne (ne_of_gt hgt), hbehind i hgt] at hi
      cases hi
  subst hij
  rw [update_self]
  exact h

/-- **Splitting**: the old subtree and the new leaf, below their common part. -/
theorem split_spec {ko : Nat} {p s : Hex} {y : Fin 17} {n : StackTrie} {u : Content}
    (value : Bytes) (k : Hex) (hkey : key.drop ko = p ++ y :: s) (hterm : terminator ∉ key)
    (hxy : x < y) (hn : Denotes H n u) (hnil : n.isNil = false) :
    ∃ st, split H ko (p ++ x :: k) p.length n key value = .ok st ∧
      Denotes H st (attach p (.full (pair x u y (attach (s ++ [terminator]) (.value value))))) ∧
      Live ko st := by
  have hy : y ≠ terminator := by
    rintro rfl
    have hmem : terminator ∈ key.drop ko := by
      rw [hkey]
      simp
    exact hterm (mem_of_mem_drop hmem)
  have hx : x ≠ terminator := fun hx => absurd hxy (by rw [hx]; exact not_lt.mpr (Fin.le_last y))
  obtain ⟨a, rfl⟩ := exists_castSucc hx
  obtain ⟨b, rfl⟩ := exists_castSucc hy
  have horig : childIndex (p ++ a.castSucc :: k) p.length = .ok a := by
    apply childIndex_castSucc
    simp
  have hrest : key.drop (ko + p.length) = b.castSucc :: s := by
    rw [← drop_drop, hkey]
    simp
  have hnew : childIndex key (ko + p.length) = .ok b :=
    childIndex_castSucc b (getElem?_of_drop hrest)
  have hleaf : key.drop (ko + p.length + 1) = s := by
    rw [← drop_drop, hrest]
    rfl
  have hbranch : Denotes H (.branchNode (ko + p.length) (update (update
      (fun _ => nil) a (hashedNode (compress H (stackEnc H u)))) b
        (leafNode (ko + p.length + 1) s value)))
      (.full (pair a.castSucc u b.castSucc (attach (s ++ [terminator]) (.value value)))) := by
    rw [attach_of_ne_nil (by simp)]
    obtain ⟨hc, ht⟩ := @denotes_update H (fun _ => nil) (fun _ => .nil) (fun _ => .nil) rfl a _ _
      (.hashed (hn.isInner hnil))
    obtain ⟨hc, ht⟩ := denotes_update hc ht b (.leaf (ko + p.length + 1) s value)
    exact .branch _ hc ht
  have hlive : Live (ko + p.length) (.branchNode (ko + p.length) (update (update
      (fun _ => nil) a (hashedNode (compress H (stackEnc H u)))) b
        (leafNode (ko + p.length + 1) s value))) := by
    refine live_update (fun i hi => ?_) rfl rfl
    have hai : i ≠ a := fun h => absurd hxy (not_lt.mpr (h ▸ le_of_lt hi))
    rw [update_of_ne hai]
    rfl
  rw [split, hash_spec hn hnil, horig, hnew]
  simp only [hleaf]
  cases p with
  | nil => exact ⟨_, if_pos rfl, hbranch, hlive⟩
  | cons z p =>
    refine ⟨_, if_neg (by simp), ?_, rfl, ?_⟩
    · rw [List.take_left' rfl, attach_cons]
      exact .ext _ _ trivial hbranch
    · rw [take_left' rfl]
      exact hlive

/-- Hashing the elder sibling changes nothing that the children stand for. -/
theorem hashElder_spec {cs : Fin 16 → StackTrie} {ts : Fin 17 → Content}
    (hc : ∀ i : Fin 16, Denotes H (cs i) (ts i.castSucc)) : ∀ m ≤ 16, ∃ elders,
      hashElder H cs m = .ok elders ∧ (∀ i : Fin 16, Denotes H (elders i) (ts i.castSucc)) ∧
      ∀ i : Fin 16, m ≤ i.val → elders i = cs i
  | 0, _ => ⟨cs, rfl, hc, fun _ _ => rfl⟩
  | m + 1, hm => by
    have hval : (Fin.ofNat 16 m).val = m := Nat.mod_eq_of_lt (by omega)
    cases hn : (cs (Fin.ofNat 16 m)).isNil with
    | true =>
      obtain ⟨elders, hok, hd, hsame⟩ := hashElder_spec hc m (by omega)
      refine ⟨elders, ?_, hd, fun i hi => hsame i (by omega)⟩
      rw [hashElder, if_pos hn, hok]
    | false =>
      refine ⟨update cs (Fin.ofNat 16 m) (hashedNode
        (compress H (stackEnc H (ts (Fin.ofNat 16 m).castSucc)))), ?_, fun i => ?_, fun i hi => ?_⟩
      · rw [hashElder, if_neg (by rw [hn]; simp), hash_spec (hc _) hn]
        rfl
      · by_cases him : i = Fin.ofNat 16 m
        · subst him
          rw [update_self]
          exact .hashed ((hc _).isInner hn)
        · rw [update_of_ne him]
          exact hc i
      · have him : i ≠ Fin.ofNat 16 m := by
          rintro rfl
          omega
        rw [update_of_ne him]

/-- **`insert` is the Patricia insertion**, when the key is ahead of the keys that are there: it
never panics, and the path to the new key is what is open afterwards. -/
theorem insert_spec (value : Bytes) (hterm : terminator ∉ key) (hd : Denotes H st t) :
    ∀ {ko : Nat} {n : Hex}, key.drop ko = n → Live ko st →
      Minimal terminator t → Ahead t n → ∃ st', st.insert H key value = .ok st' ∧
        Denotes H st' (Lib.Patricia.insert value t (n ++ [terminator])) ∧ Live ko st' := by
  induction hd with
  | nil | hashed _ => intro ko n _ hl; cases hl
  | leaf keyOffset k v =>
    intro ko n hkey hl hm ha
    obtain rfl : keyOffset = ko := hl
    obtain ⟨p, x, y, r, s, hp, hn, hxy⟩ := ha (k ++ [terminator]) v
      (by rw [lookup_short_self]; rfl)
    have hx : x ≠ terminator := fun hx => absurd hxy (by rw [hx]; exact not_lt.mpr (Fin.le_last y))
    obtain ⟨k', rfl, rfl⟩ : ∃ k', k = p ++ x :: k' ∧ r = k' ++ [terminator] := by
      rcases List.append_eq_append_iff.mp hp with ⟨a, ha, hb⟩ | ⟨c, hc, hb⟩
      · cases a with
        | nil =>
          rw [List.nil_append, List.cons.injEq] at hb
          exact absurd hb.1.symm hx
        | cons z a =>
          rw [List.cons_append, List.cons.injEq] at hb
          exact absurd hb.2.symm (by simp)
      · cases c with
        | nil =>
          rw [List.nil_append, List.cons.injEq] at hb
          exact absurd hb.1 hx
        | cons z c =>
          rw [List.cons_append, List.cons.injEq] at hb
          exact ⟨c, by rw [hc, hb.1], hb.2⟩
    subst hn
    have hold : Denotes H (.leafNode (p.length + 1) k' v) _ := .leaf (p.length + 1) k' v
    obtain ⟨st', hsplit, hd', hl'⟩ := split_spec value k' hkey hterm hxy hold rfl
    refine ⟨st', ?_, ?_, hl'⟩
    · rw [insert, hkey, getDiffIndex_fork (ne_of_lt hxy)]
      have hlt : ¬ p.length ≥ (p ++ x :: k').length := by
        rw [List.length_append, List.length_cons]
        omega
      have hdrop : (p ++ x :: k').drop (p.length + 1) = k' := by
        rw [← List.drop_drop, List.drop_left]
        rfl
      simp only [if_neg hlt, hdrop, hsplit]
    · rw [hp, List.append_assoc, List.cons_append, insert_short_fork value (ne_of_lt hxy)]
      rwa [attach_of_ne_nil (by simp) (Tree.value v)]
  | @ext keyOffset k c t hi hc ih =>
    intro ko n hkey hl hm ha
    obtain ⟨rfl, hl⟩ := hl
    obtain ⟨hk, hkn, ts, hmt⟩ : k ≠ [] ∧ terminator ∉ k ∧ ∃ ts, t = .full ts ∧
        Minimal terminator (.full ts) := by
      rcases hm with ⟨_, v, rfl⟩ | ⟨hk, hkn, ⟨ts, rfl⟩, hmt⟩
      · cases hi
      · exact ⟨hk, hkn, ts, rfl, hmt⟩
    obtain ⟨rfl, hmt⟩ := hmt
    obtain ⟨w, v, _, hw⟩ := hmt.exists_lookup
    have hcn : c.isNil = false := by
      rw [← Bool.not_eq_true, hc.isNil_iff]
      simp
    rcases ha.label_cases hw with ⟨r, rfl⟩ | ⟨p, x, y, r, s, _, rfl, hxy, k', rfl⟩
    · -- the key runs through the chunk
      have hrest : key.drop (keyOffset + k.length) = r := by
        rw [← List.drop_drop, hkey, List.drop_left]
      obtain ⟨st', hins, hd', hl'⟩ := ih hrest hl hmt ha.of_append
      refine ⟨.extNode keyOffset k st', ?_, ?_, rfl, hl'⟩
      · rw [insert, hkey, getDiffIndex_append]
        simp only [if_true, hins]
        rfl
      · rw [List.append_assoc, insert_short_append value (by simp)]
        refine .ext keyOffset k (isInner_of_minimal ?_) hd'
        have hkw : terminator ∉ r := fun hmem => hterm (List.mem_of_mem_drop (hrest ▸ hmem))
        exact hmt.insert value (word_concat_term hkw)
    -- the chunk is split
    have hold : Denotes H (if p.length < (p ++ x :: k').length - 1 then
        extNode (p.length + 1) ((p ++ x :: k').drop (p.length + 1)) c else c)
        (attach k' (.full ts)) ∧ (if p.length < (p ++ x :: k').length - 1 then
        extNode (p.length + 1) ((p ++ x :: k').drop (p.length + 1)) c else c).isNil = false := by
      have hdrop : (p ++ x :: k').drop (p.length + 1) = k' := by
        rw [← List.drop_drop, List.drop_left]
        rfl
      rw [hdrop]
      cases k' with
      | nil =>
        rw [if_neg (by simp), attach_nil]
        exact ⟨hc, hcn⟩
      | cons z k' =>
        rw [if_pos (by simp), attach_cons]
        exact ⟨.ext _ _ hi hc, rfl⟩
    obtain ⟨st', hsplit, hd', hl'⟩ := split_spec value k' hkey hterm hxy hold.1 hold.2
    refine ⟨st', ?_, ?_, hl'⟩
    · rw [insert, hkey, getDiffIndex_fork (ne_of_lt hxy)]
      have hne : ¬ p.length = (p ++ x :: k').length := by
        rw [List.length_append, List.length_cons]
        omega
      simp only [if_neg hne, hsplit]
    · rwa [List.append_assoc, List.cons_append, insert_short_fork value (ne_of_lt hxy)]
  | @branch keyOffset cs ts hc ht ih =>
    intro ko n hkey hl hm ha
    obtain ⟨rfl, hl⟩ := hl
    obtain ⟨w, v, _, hw⟩ := hm.exists_lookup
    obtain ⟨i, n, rfl⟩ : ∃ i n', n = i :: n' := by
      obtain ⟨p, x, y, r, s, _, rfl, _⟩ := ha w v hw
      cases p with
      | nil | cons z p => exact ⟨_, _, rfl⟩
    have hdrop : terminator ∉ i :: n := fun hmem => hterm (List.mem_of_mem_drop (hkey ▸ hmem))
    obtain ⟨hi, hn⟩ := not_or.mp (mt List.mem_cons.mpr hdrop)
    obtain ⟨j, rfl⟩ := exists_castSucc (Ne.symm hi)
    have hbehind : ∀ m : Fin 16, j < m → (cs m).isNil = true := by
      intro m hjm
      rw [(hc m).isNil_iff]
      by_contra hne
      obtain ⟨r, u, _, hu⟩ := (hm.arm hne).exists_lookup
      exact absurd (ha.le_of_lookup hu) (not_le.mpr hjm)
    have hrest : key.drop (keyOffset + 1) = n := by
      rw [← List.drop_drop, hkey]
      rfl
    obtain ⟨elders, helder, hde, hsame⟩ := hashElder_spec hc j.val (le_of_lt j.isLt)
    -- what becomes of the child the key goes to
    have hchild : ∃ c, (if (cs j).isNil then
        .ok (leafNode (keyOffset + 1) (key.drop (keyOffset + 1)) value)
          else insert H key value (cs j)) = .ok c ∧
        Denotes H c (Lib.Patricia.insert value (ts j.castSucc) (n ++ [terminator])) ∧
        Live (keyOffset + 1) c := by
      cases hnil : (cs j).isNil with
      | true =>
        refine ⟨.leafNode (keyOffset + 1) n value, by rw [if_pos rfl, hrest], ?_, rfl⟩
        rw [(hc j).isNil_iff.mp hnil, insert_nil (by simp)]
        exact .leaf _ n value
      | false =>
        have hmj : Minimal terminator (ts j.castSucc) :=
          minimal_arm_of_isInner hm ((hc j).isInner hnil)
        obtain ⟨c, hins, hd', hl'⟩ := ih j hrest (hl j hnil hbehind) hmj ha.of_cons
        exact ⟨c, by rw [if_neg (by simp), hins], hd', hl'⟩
    obtain ⟨c, hins, hdc, hlc⟩ := hchild
    have hcn : c.isNil = false := by
      cases c with
      | nil => cases hlc
      | _ => rfl
    refine ⟨.branchNode keyOffset (Function.update elders j c), ?_, ?_, ?_⟩
    · rw [insert, childIndex_castSucc j (getElem?_of_drop hkey)]
      simp only [helder, hins]
    · obtain ⟨hc', ht'⟩ := denotes_update hde ht j hdc
      exact .branch _ hc' ht'
    · exact live_update (fun m hm => by rw [hsame m (le_of_lt hm)]; exact hbehind m hm) hcn hlc

/-! ## §4 — Feeding a list of pairs -/

/-- `TryUpdate` for every pair of a list, in order. -/
def updateAll (H : Bytes → MxtChain.Hash) (st : StackTrie) :
    List (Slice × Slice) → Except Err StackTrie
  | [] => .ok st
  | (k, v) :: rest =>
    match st.TryUpdate H k.data v.data with
    | .error e => .error e
    | .ok st => updateAll H st rest

/-- **The pairs a stack trie is made for**: strictly increasing keys of which none is a beginning
of another, and no empty value. -/
structure Ordered (pairs : List (Slice × Slice)) : Prop where
  increasing : pairs.Pairwise fun a b => a.1.data < b.1.data
  prefixFree : ∀ a ∈ pairs, ∀ b ∈ pairs, a.1.data <+: b.1.data → a.1.data = b.1.data
  nonempty : ∀ a ∈ pairs, a.2.data ≠ []

/-- The bytes of two keys differ first in one nibble. -/
theorem exists_nibble_lt {a b : UInt8} (h : a < b) (r s : Hex) : ∃ p x y r' s',
    highNibble a :: lowNibble a :: r = p ++ x :: r' ∧
      highNibble b :: lowNibble b :: s = p ++ y :: s' ∧ x < y := by
  have hab : a.toNat < b.toNat := h
  by_cases hhigh : highNibble a = highNibble b
  · refine ⟨[highNibble a], lowNibble a, lowNibble b, r, s, rfl, by rw [hhigh]; rfl, ?_⟩
    have := congrArg Fin.val hhigh
    simp only [highNibble] at this
    exact Fin.mk_lt_mk.mpr (by omega)
  · refine ⟨[], highNibble a, highNibble b, _, _, rfl, rfl, ?_⟩
    have hne : ¬ a.toNat / 16 = b.toNat / 16 := fun he => hhigh (Fin.ext he)
    exact Fin.mk_lt_mk.mpr (by omega)

/-- A smaller key that is no beginning of the larger one reads a smaller nibble where they part. -/
theorem exists_fork_of_lt {a b : Bytes} (h : a < b) (hp : ¬ a <+: b) : ∃ p x y r s,
    keybytesToHex a = p ++ x :: r ∧ nibbles b = p ++ y :: s ∧ x < y := by
  have hlex : Lex (· < ·) a b := h
  induction hlex with
  | nil => exact absurd nil_prefix hp
  | rel hab => exact exists_nibble_lt hab _ _
  | @cons x as bs htail ih =>
    obtain ⟨p, y, z, r, s, hr, hs, hyz⟩ := ih htail
      (fun hpre => hp (cons_prefix_cons.mpr ⟨rfl, hpre⟩))
    refine ⟨highNibble x :: lowNibble x :: p, y, z, r, s, ?_, ?_, hyz⟩
    · rw [cons_append, cons_append, ← hr]
      rfl
    · rw [cons_append, cons_append, ← hs]
      rfl

theorem exists_mem_of_lastValue {key v : Bytes} : ∀ ws : List (Slice × Slice),
    lastValue ws key = some v → ∃ a ∈ ws, a.1.data = key
  | [], h => absurd h (by simp [lastValue])
  | (k, x) :: rest, h => by
    rw [lastValue] at h
    split at h
    · rename_i hk
      exact ⟨(k, x), mem_cons_self, hk⟩
    · obtain ⟨a, ha, hkey⟩ := exists_mem_of_lastValue rest h
      exact ⟨a, mem_cons_of_mem _ ha, hkey⟩

/-- The next key of an ordered list is ahead of the tree of the keys before it. -/
theorem ahead_contents {ws : List (Slice × Slice)} {k : Slice} (hlt : ∀ a ∈ ws, a.1.data < k.data)
    (hp : ∀ a ∈ ws, ¬ a.1.data <+: k.data) : Ahead (contents ws) (nibbles k.data) := by
  intro w v hw
  obtain ⟨key, rfl⟩ := exists_key_of_lookup ws hw
  rw [lookup_contents] at hw
  obtain ⟨a, ha, rfl⟩ := exists_mem_of_lastValue ws hw
  exact exists_fork_of_lt (hlt a ha) (hp a ha)

/-- **The stack trie stands for the tree of the pairs it was fed.** -/
def Fed (H : Bytes → MxtChain.Hash) (st : StackTrie) (t : Content) : Prop :=
  (st = NewStackTrie ∧ t = .nil) ∨ (Denotes H st t ∧ Live 0 st ∧ Minimal terminator t)

theorem TryUpdate_fed {ws : List (Slice × Slice)} {k v : Slice} (h : Fed H st (contents ws))
    (hv : v.data ≠ []) (hlt : ∀ a ∈ ws, a.1.data < k.data) (hp : ∀ a ∈ ws, ¬ a.1.data <+: k.data) :
    ∃ st', st.TryUpdate H k.data v.data = .ok st' ∧ Fed H st' (contents ((k, v) :: ws)) := by
  have hlen : ¬ v.data.length = 0 := fun h0 => hv (length_eq_zero_iff.mp h0)
  have hkey : (keybytesToHex k.data).dropLast = nibbles k.data := dropLast_concat
  have hw : contents ((k, v) :: ws) =
      Lib.Patricia.insert v.data (contents ws) (nibbles k.data ++ [terminator]) := by
    rw [contents, write, if_neg hv]
    rfl
  rw [TryUpdate, if_neg hlen, hkey, hw]
  have hword := word_keybytesToHex k.data
  rcases h with ⟨rfl, hn⟩ | ⟨hd, hl, hm⟩
  · refine ⟨_, rfl, .inr ?_⟩
    rw [hn, insert_nil (by simp)]
    exact ⟨.leaf 0 _ _, rfl, minimal_leaf hword v.data⟩
  · obtain ⟨st', hins, hd', hl'⟩ := insert_spec v.data (terminator_notMem_nibbles k.data) hd
      (drop_zero) hl hm (ahead_contents hlt hp)
    exact ⟨st', hins, .inr ⟨hd', hl', hm.insert v.data hword⟩⟩

/-- **Feeding an ordered list never panics** and leaves the stack trie with the tree of the list. -/
theorem updateAll_fed : ∀ {st : StackTrie} (ws : List (Slice × Slice))
    {pairs : List (Slice × Slice)}, Fed H st (contents ws) → Ordered (ws.reverse ++ pairs) →
      ∃ st', st.updateAll H pairs = .ok st' ∧ Fed H st' (contents (pairs.reverse ++ ws))
  | st, _, [], h, _ => ⟨st, rfl, h⟩
  | st, ws, (k, v) :: pairs, h, ho => by
    have hmem : (k, v) ∈ ws.reverse ++ (k, v) :: pairs := by simp
    have hlt : ∀ a ∈ ws, a.1.data < k.data := fun a ha =>
      (pairwise_append.mp ho.increasing).2.2 a (mem_reverse.mpr ha) (k, v)
        mem_cons_self
    have hp : ∀ a ∈ ws, ¬ a.1.data <+: k.data := fun a ha hpre => by
      have heq := ho.prefixFree a (by simp [ha]) (k, v) hmem hpre
      exact absurd (hlt a ha) (by rw [heq]; exact List.lt_irrefl _)
    obtain ⟨st1, hup, h1⟩ := TryUpdate_fed h (ho.nonempty (k, v) hmem) hlt hp
    have ho' : Ordered (((k, v) :: ws).reverse ++ pairs) := by
      rw [reverse_cons, append_assoc]
      exact ho
    obtain ⟨st', hrun, h'⟩ := updateAll_fed ((k, v) :: ws) h1 ho'
    refine ⟨st', ?_, ?_⟩
    · rw [updateAll, hup]
      exact hrun
    · rw [reverse_cons, append_assoc]
      exact h'

/-- The root hash of a tree in the stack trie's encoding. -/
def stackRoot (H : Bytes → MxtChain.Hash) : Content → MxtChain.Hash
  | .nil => emptyRoot
  | t => H (stackEnc H t)

theorem stackRoot_of_inner (h : IsInner t) : stackRoot H t = H (stackEnc H t) := by
  cases t with
  | nil | value v => cases h
  | short k c | full cs => rfl

theorem Hash_fed (h : Fed H st t) : ∃ st', st.Hash H = .ok (stackRoot H t, st') := by
  rcases h with ⟨rfl, rfl⟩ | ⟨hd, hl, hm⟩
  · refine ⟨.hashedNode emptyRoot.bytes, ?_⟩
    rfl
  have hnil : st.isNil = false := by
    rw [← Bool.not_eq_true, hd.isNil_iff]
    exact hm.ne_nil
  refine ⟨.hashedNode (compress H (stackEnc H t)), ?_⟩
  rw [Hash, hash_spec hd hnil, stackRoot_of_inner (isInner_of_minimal hm)]
  by_cases hs : (stackEnc H t).length < 32
  · simp only [compress, if_pos hs, ne_eq, if_pos (ne_of_lt hs), MxtChain.Hash.ofBytes_bytes]
  · simp only [compress, if_neg hs, MxtChain.Hash.length_bytes, ne_eq, not_true_eq_false,
      if_false, MxtChain.Hash.ofBytes_bytes]

/-! ## §5 — When the two encodings agree -/

/-- The encodings of all short and full nodes of a tree as a stack trie writes them. -/
def stackEncodings (H : Bytes → MxtChain.Hash) : Content → List Bytes
  | .nil => []
  | .value _ => []
  | .short k c => stackEnc H (.short k c) :: stackEncodings H c
  | .full cs => stackEnc H (.full cs) :: (ofFn fun i => stackEncodings H (cs i)).flatten

/-- **Every extension refers to its branch by hash**: no extension of the tree leads to a branch
with an encoding of less than 32 bytes. -/
def HashedBelow (H : Bytes → MxtChain.Hash) : Content → Prop
  | .nil => True
  | .value _ => True
  | .short _ c => (IsInner c → 32 ≤ (enc H c).length) ∧ HashedBelow H c
  | .full cs => ∀ i, HashedBelow H (cs i)

instance decidableHashedBelow (H : Bytes → MxtChain.Hash) : ∀ t, Decidable (HashedBelow H t)
  | .nil => isTrue trivial
  | .value _ => isTrue trivial
  | .short _ c =>
    have := decidableHashedBelow H c
    inferInstanceAs (Decidable ((IsInner c → 32 ≤ (enc H c).length) ∧ HashedBelow H c))
  | .full cs =>
    have := fun i => decidableHashedBelow H (cs i)
    inferInstanceAs (Decidable (∀ i, HashedBelow H (cs i)))

theorem stackEnc_mem (h : IsInner t) : stackEnc H t ∈ stackEncodings H t := by
  cases t with
  | nil | value v => cases h
  | short k c | full cs => exact mem_cons_self

theorem stackEncodings_arm_subset (cs : Fin 17 → Content) (i : Fin 17) :
    stackEncodings H (cs i) ⊆ stackEncodings H (.full cs) := by
  intro b hb
  refine mem_cons_of_mem _ (mem_flatten.mpr ⟨_, ?_, hb⟩)
  exact mem_ofFn.mpr ⟨i, rfl⟩

theorem stackChild_inner (h : IsInner t) : stackChild H (stackItem H t) =
    if (stackEnc H t).length < 32 then stackItem H t else .str (H (stackEnc H t)).bytes := by
  obtain ⟨items, hitems⟩ := exists_stackItem_list (H := H) h
  rw [stackEnc, hitems]
  rfl

/-- The two encodings write the same value in a branch for a node they agree on. -/
theorem stackChild_eq_refItem (hi : IsInner t) (h : stackItem H t = (collapsed H t).item) :
    stackChild H (stackItem H t) = refItem H t := by
  have henc : stackEnc H t = enc H t := by
    rw [stackEnc, h]
    rfl
  rw [stackChild_inner hi, henc]
  by_cases hs : (enc H t).length < 32
  · rw [if_pos hs, refItem_small hi hs, h]
  · rw [if_neg hs, refItem_large hi (not_lt.mp hs)]
    rfl

/-- **The encodings agree** if every extension refers to its branch by hash. -/
theorem stackItem_eq : ∀ {t : Content}, Minimal terminator t → HashedBelow H t →
    stackItem H t = (collapsed H t).item := by
  intro t
  induction t with
  | nil | value v => intro hm; cases hm
  | short k c ih =>
    intro hm hb
    rw [item_short k (ne_nil_of_minimal_short hm)]
    rcases hm with ⟨_, v, rfl⟩ | ⟨_, _, ⟨cs, rfl⟩, hc⟩
    · rfl
    have henc : stackEnc H (.full cs) = enc H (.full cs) := by
      rw [stackEnc, ih hc hb.2]
      rfl
    have hlarge := hb.1 trivial
    rw [stackItem, stackRef_inner (t := .full cs) trivial, henc, compress, if_neg (not_lt.mpr hlarge),
      refItem_large (t := .full cs) trivial hlarge]
    rfl
  | full cs ih =>
    intro hm hb
    rw [item_full, stackItem]
    refine congrArg (fun f => Rlp.Item.list (ofFn f)) (funext fun i => ?_)
    by_cases hi : IsInner (cs i)
    · exact stackChild_eq_refItem hi (ih i (minimal_arm_of_isInner hm hi) (hb i))
    · cases hci : cs i with
      | nil | value v => rfl
      | short k c | full cs' => exact absurd (hci ▸ trivial) hi

/-- A node that the two encodings refer to in the same way has the same encoding in both. -/
theorem stackEnc_eq_of_child (cf : CollisionFree H E) (hi : IsInner t) (et : encodings H t ⊆ E)
    (es : stackEncodings H t ⊆ E) (h : stackChild H (stackItem H t) = refItem H t) :
    stackEnc H t = enc H t := by
  obtain ⟨ss, hss⟩ := exists_stackItem_list (H := H) hi
  obtain ⟨ts, hts⟩ := exists_item_list (H := H) hi
  rw [stackChild_inner hi] at h
  rcases toRef_cases (H := H) t with ⟨_, hlt, _⟩ | ⟨hst, _⟩
  · rw [refItem_large hi hlt] at h
    split at h
    · rw [hss] at h
      cases h
    · exact cf.inj _ (mem_cons_of_mem _ (es (stackEnc_mem hi))) _
        (mem_cons_of_mem _ (et (enc_mem_encodings hi)))
        (MxtChain.Hash.ext_bytes (Rlp.Item.str.inj h))
  · rw [refItem_small hi (hst hi), hts] at h
    split at h
    · rw [stackEnc, h, ← hts]
      rfl
    · cases h

/-- **If the encodings agree, every extension refers to its branch by hash**: a branch of less
than 32 bytes is a list in one of them and a string in the other. -/
theorem hashedBelow_of_stackEnc (cf : CollisionFree H E) : ∀ {t : Content},
    Minimal terminator t → Storable t → encodings H t ⊆ E → stackEncodings H t ⊆ E →
      stackEnc H t = enc H t → HashedBelow H t := by
  intro t
  induction t with
  | nil | value v => intro hm; cases hm
  | short k c ih =>
    intro hm hs et es h
    have hl := length_enc_lt (H := H) hm hs
    have hitem : stackItem H (.short k c) = (collapsed H (.short k c)).item :=
      Rlp.encode_inj (by rw [← h] at hl; exact hl) hl h
    rw [item_short k (ne_nil_of_minimal_short hm), stackItem] at hitem
    simp only [Rlp.Item.list.injEq, cons.injEq, and_true, true_and] at hitem
    rcases hm with ⟨_, v, rfl⟩ | ⟨_, _, ⟨cs, rfl⟩, hc⟩
    · exact ⟨fun hi => absurd hi id, trivial⟩
    have et' := Subset.trans (encodings_short_subset (H := H) k (.full cs)) et
    have es' : stackEncodings H (.full cs) ⊆ E := fun b hb => es (mem_cons_of_mem _ hb)
    rw [stackRef_inner (t := .full cs) trivial] at hitem
    rcases toRef_cases (H := H) (.full cs) with ⟨hi, hlarge, _⟩ | ⟨hsmall, _⟩
    · rw [refItem_large hi hlarge, Rlp.Item.str.injEq] at hitem
      refine ⟨fun _ => hlarge, ih hc hs.child et' es' ?_⟩
      rw [compress] at hitem
      split at hitem
      · rename_i hlt
        rw [hitem, MxtChain.Hash.length_bytes] at hlt
        exact absurd hlt (lt_irrefl _)
      · exact cf.inj _ (mem_cons_of_mem _ (es' (stackEnc_mem trivial))) _
          (mem_cons_of_mem _ (et' (enc_mem_encodings trivial)))
          (MxtChain.Hash.ext_bytes hitem)
    · rw [refItem_small (t := .full cs) trivial (hsmall trivial), item_full] at hitem
      cases hitem
  | full cs ih =>
    intro hm hs et es h i
    have hl := length_enc_lt (H := H) hm hs
    have hitem : stackItem H (.full cs) = (collapsed H (.full cs)).item :=
      Rlp.encode_inj (by rw [← h] at hl; exact hl) hl h
    have harm := congrFun (ofFn_injective (Rlp.Item.list.inj hitem)) i
    by_cases hi : IsInner (cs i)
    · have et' := Subset.trans (encodings_arm_subset (H := H) cs i) et
      have es' := Subset.trans (stackEncodings_arm_subset (H := H) cs i) es
      exact ih i (minimal_arm_of_isInner hm hi) (hs.arm i) et' es'
        (stackEnc_eq_of_child cf hi et' es' harm)
    · cases hci : cs i with
      | nil | value v => trivial
      | short k c | full cs' => exact absurd (hci ▸ trivial) hi

/-- **The two roots of a tree agree exactly when every extension refers to its branch by hash.** -/
theorem stackRoot_eq_iff (cf : CollisionFree H E) (hc : Canon terminator t) (hs : Storable t)
    (et : encodings H t ⊆ E) (es : stackEncodings H t ⊆ E) :
    stackRoot H t = rootHash H t ↔ HashedBelow H t := by
  rcases hc with rfl | hm
  · exact ⟨fun _ => trivial, fun _ => rfl⟩
  have hi := isInner_of_minimal hm
  rw [stackRoot_of_inner hi, rootHash_of_inner hi]
  constructor
  · intro h
    exact hashedBelow_of_stackEnc cf hm hs et es
      (cf.inj _ (mem_cons_of_mem _ (es (stackEnc_mem hi))) _
        (mem_cons_of_mem _ (et (enc_mem_encodings hi))) h)
  · intro h
    rw [stackEnc, stackItem_eq hm h]
    rfl

/-! ## §6 — Stack trie and trie over the same pairs -/

/-- The root hash of a new stack trie after the updates of a list. -/
def rootOf (H : Bytes → MxtChain.Hash) (pairs : List (Slice × Slice)) : Except Err MxtChain.Hash :=
  match NewStackTrie.updateAll H pairs with
  | .error e => .error e
  | .ok st => (st.Hash H).map (·.1)

end StackTrie

namespace Trie

/-- `TryUpdate` for every pair of a list, in order. -/
def updateAll (t : Trie) : List (Slice × Slice) → Except Err Trie
  | [] => .ok t
  | (k, v) :: rest =>
    match t.TryUpdate k.data v.data with
    | .error e => .error e
    | .ok t => t.updateAll rest

/-- The root hash of a new trie after the updates of a list. -/
def rootOf (H : Bytes → MxtChain.Hash) (disk pre : Map MxtChain.Hash Bytes)
    (pairs : List (Slice × Slice)) : Except Err MxtChain.Hash :=
  match updateAll ⟨NewDatabase disk pre, .nil⟩ pairs with
  | .error e => .error e
  | .ok t => (t.Hash H).map (·.1)

end Trie

section Roots

variable {H : Bytes → Hash}

theorem updateAll_spec {E : List Bytes} : ∀ (pairs : List (Slice × Slice))
    (ws : List (Slice × Slice)) {t : Trie}, TrieOK H E t (contents ws) →
      hashed H ⟨ws, []⟩ (pairs.map fun a => .update a.1 a.2) ⊆ E →
        ∃ t', t.updateAll pairs = .ok t' ∧ TrieOK H E t' (contents (pairs.reverse ++ ws))
  | [], _, t, h, _ => ⟨t, rfl, h⟩
  | (k, v) :: pairs, ws, t, h, he => by
    have htail := Subset.trans (subset_append_right _ _) he
    have henc : encodings H (write (contents ws) k.data v.data) ⊆ E :=
      Subset.trans (encodings_subset_hashed ⟨ws, []⟩ (.update k v) _) htail
    obtain ⟨t1, hup, h1, _⟩ := TryUpdate_spec h k v henc
    obtain ⟨t', hrun, h'⟩ := updateAll_spec pairs ((k, v) :: ws) h1 htail
    refine ⟨t', ?_, ?_⟩
    · rw [Trie.updateAll, hup]
      exact hrun
    · rw [reverse_cons, append_assoc]
      exact h'

theorem Trie.rootOf_eq (H : Bytes → MxtChain.Hash) (disk pre : Map MxtChain.Hash Bytes)
    (pairs : List (Slice × Slice)) :
    Trie.rootOf H disk pre pairs = .ok (rootHash H (contents pairs.reverse)) := by
  obtain ⟨t, hup, hok⟩ := updateAll_spec (H := H) pairs [] (trieOK_empty (dbOK_new _ disk pre))
    (Subset.refl _)
  obtain ⟨t', hhash, _⟩ := Hash_spec hok
  rw [append_nil] at hhash
  rw [Trie.rootOf, hup]
  simp only [hhash]
  rfl

/-- The root of a stack trie is the root of the same tree in the stack trie's own encoding. -/
theorem StackTrie.rootOf_eq (H : Bytes → MxtChain.Hash) {pairs : List (Slice × Slice)} (ho : StackTrie.Ordered pairs) :
    StackTrie.rootOf H pairs = .ok (StackTrie.stackRoot H (contents pairs.reverse)) := by
  obtain ⟨st, hup, hfed⟩ := StackTrie.updateAll_fed (H := H) [] (.inl ⟨rfl, rfl⟩) ho
  obtain ⟨st', hhash⟩ := StackTrie.Hash_fed hfed
  rw [append_nil] at hhash
  rw [StackTrie.rootOf, hup]
  simp only [hhash]
  rfl

end Roots

/-- Two keys with a common nibble and values of one byte. -/
def smallPairs : List (Slice × Slice) :=
  [(byteSlice 0x10, byteSlice 0x01), (byteSlice 0x11, byteSlice 0x02)]

/-- Keccak-256 on the nodes of `smallPairs`, in the encodings of the trie and of the stack trie. -/
def keccakSmall : Bytes → Hash := tableHash [
  (1, 0x80, 0x56e81f171bcc55a6ff8345e692c0f86e5b48e01b996cadc001622fb5e363b421),
  (5, 0xc482201001, 0x8ff86d3946f4571bad90c3689d5d8df24c6a640d9e585893c6c753b7ad19f6fc),
  (3, 0xc22001, 0xce8c4b060e961e285a1c2d6af956fae96986f946102f23b71506524eea9e2450),
  (3, 0xc22002, 0x1e116569fc77f5d4721ac60cbbeee7bdf40344511d9c4b1ac6ac9e6a8ae3c4e7),
  (22, 0xd5c22001c22002808080808080808080808080808080,
    0xa45626d6e7428641deeba559fcbf847d6dd390b81ca58c7365155c88d9452dfa),
  (24, 0xd711d5c22001c22002808080808080808080808080808080,
    0xeefba3ad0e01d05b72ed200078e06f8f4a49f0bf8b7e205d880e49f4f6777f76),
  (25, 0xd81196d5c22001c22002808080808080808080808080808080,
    0x03ebd30e28a60a06e32f37486c5dfe590e007e0ebdf294b9c235485e7b1d211e)]

theorem ordered_smallPairs : StackTrie.Ordered smallPairs :=
  ⟨by decide, by decide, by decide⟩

end MxtChain.Trie
