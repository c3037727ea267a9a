/-
# MxtChain.Trie.ProofSpec — proofs for one key are complete and sound

The verifier compares nothing with the trie: it only follows hashes. What ties it to the trie is
that a store of preimages can hold, under the hash of a node of the trie, nothing but the encoding
of that node. So the verifier walks down the path of the key in the trie's own tree, as far as
the store goes.
-/
import MxtChain.Trie.Proof
import MxtChain.Trie.Session

namespace MxtChain.Trie

open Lib.Patricia List History

/-! ## §1 — The path of a key -/

/-- The inner nodes that a key passes, from the root down. -/
def trail : Content → Hex → List Content
  | .nil, _ => []
  | .value _, _ => []
  | .short k c, key => .short k c :: (if k <+: key then trail c (key.drop k.length) else [])
  | .full cs, [] => [.full cs]
  | .full cs, x :: r => .full cs :: trail (cs x) r

theorem trail_short_append (k r : Hex) (c : Content) :
    trail (.short k c) (k ++ r) = .short k c :: trail c r := by
  rw [trail, if_pos (prefix_append k r), drop_left]

variable {key k r s : Hex} {H : Bytes → Hash} {K : Content → Prop} {db : Database} {u c : Content}
  {us : List Content} {n : Node} {g : Hash} {p : ProofDb} {E : List Bytes}

theorem trail_short_of_not (h : ¬ k <+: key) (c : Content) :
    trail (.short k c) key = [.short k c] := by
  rw [trail, if_neg h]

variable {t : Content}

theorem mem_trail_self (hi : IsInner t) (key : Hex) : t ∈ trail t key := by
  cases t with
  | nil | value v => cases hi
  | short k c => exact mem_cons_self
  | full cs => cases key <;> exact mem_cons_self

theorem head_trail (hi : IsInner t) (key : Hex) : (trail t key).head? = some t := by
  cases t with
  | nil | value v => cases hi
  | short k c => rfl
  | full cs => cases key <;> rfl

/-- What the nodes of a trail are. -/
structure NodeOf (H : Bytes → Hash) (t u : Content) : Prop where
  minimal : Minimal terminator u
  storable : Storable u
  encs : encodings H u ⊆ encodings H t

theorem nodeOf_self (hm : Minimal terminator t) (hs : Storable t) : NodeOf H t t :=
  ⟨hm, hs, Subset.refl _⟩

theorem nodeOf_trail : ∀ {t u : Content} {key : Hex}, Part t → Storable t → u ∈ trail t key →
    NodeOf H t u := by
  intro t
  induction t with
  | nil | value v => intro u key _ _ hu; cases hu
  | short k c ih =>
    intro u key hp hs hu
    have hm := (isInner_iff_minimal hp).mp trivial
    rcases mem_cons.mp hu with rfl | hu
    · exact nodeOf_self hm hs
    split at hu
    · obtain ⟨h1, h2, h3⟩ := ih (part_child hm) hs.child hu
      exact ⟨h1, h2, Subset.trans h3 (encodings_short_subset k c)⟩
    · cases hu
  | full cs ih =>
    intro u key hp hs hu
    have hm := (isInner_iff_minimal hp).mp trivial
    cases key with
    | nil =>
      obtain rfl := mem_singleton.mp hu
      exact nodeOf_self hm hs
    | cons x r =>
      rcases mem_cons.mp hu with rfl | hu
      · exact nodeOf_self hm hs
      · obtain ⟨h1, h2, h3⟩ := ih x (part_arm hm x) (hs.arm x) hu
        exact ⟨h1, h2, Subset.trans h3 (encodings_arm_subset cs x)⟩

/-! ## §2 — What `Prove` writes -/

/-- A loaded node that stands for a tree. -/
def Shows (H : Bytes → Hash) (K : Content → Prop) (n : Node) (u : Content) : Prop :=
  (∃ known top, Rep H K known top n u) ∧ n.isHash = false

/-- What the specification says about the nodes on the path. -/
def Proves (H : Bytes → Hash) (K : Content → Prop) (db : Database) (fuel : Nat) (n : Node)
    (key : Hex) (t : Content) : Prop :=
  ∃ ns, Trie.proveNodes db fuel n key = .ok ns ∧ Forall₂ (Shows H K) ns (trail t key)

theorem proveNodes_nil (fuel : Nat) (key : Hex) :
    Trie.proveNodes db (fuel + 1) .nil key = .ok [] := by
  cases key <;> rfl

/-- It is enough to look at loaded nodes. -/
theorem proves_of_loaded (hb : Backed H db K) {known top : Bool}
    (hp : Part t) (hat : At t key)
    (h : ∀ n fuel, n.isHash = false → Rep H K known top n t → 2 * key.length ≤ fuel →
      Proves H K db (fuel + 1) n key t) {fuel : Nat} (hrep : Rep H K known top n t)
    (hf : need n key ≤ fuel) : Proves H K db fuel n key t := by
  obtain ⟨fuel, rfl, hf, hn⟩ | ⟨fuel, rfl, hm, rfl, hi, hl, hk⟩ := hrep.calls hf
  · exact h n fuel hn hrep hf
  obtain ⟨rn, hres, hnh, hrn⟩ := hb.load known _ hp hi hl hk []
  obtain ⟨ns, hns, hshow⟩ := h rn fuel hnh hrn hm
  refine ⟨ns, ?_, hshow⟩
  cases key with
  | nil => exact absurd (hat.word_of_isInner hi).2 id
  | cons x r =>
    rw [Trie.proveNodes]
    simp only [hres, hns]

/-- **`Prove` collects the nodes of the trail.** -/
theorem proveNodes_spec (hb : Backed H db K) : ∀ {t : Content} {known top : Bool} {n : Node}
    {key : Hex} (fuel : Nat), Rep H K known top n t → Part t → At t key → need n key ≤ fuel →
      Proves H K db fuel n key t := by
  intro t
  induction t with
  | nil =>
    intro known top n key fuel hrep hp hat hf
    refine proves_of_loaded hb hp hat (fun n fuel _ hrep _ => ?_) hrep hf
    obtain rfl := hrep.nil_right
    exact ⟨[], proveNodes_nil fuel key, .nil⟩
  | value v =>
    intro known top n key fuel hrep hp hat hf
    refine proves_of_loaded hb hp hat (fun n fuel _ hrep _ => ?_) hrep hf
    obtain rfl := hrep.value_right
    obtain rfl : key = [] := by
      rcases hat with ⟨ht, _⟩ | ⟨hk, _⟩
      · cases ht
      · exact hk
    exact ⟨[], rfl, .nil⟩
  | short k c ih =>
    intro known top n key fuel hrep hp hat hf
    refine proves_of_loaded hb hp hat (fun n fuel hnh hrep hf => ?_) hrep hf
    obtain ⟨ht, hw⟩ := hat.word_of_isInner trivial
    have hm := (isInner_iff_minimal hp).mp trivial
    have hshow : Shows H K n (.short k c) := ⟨⟨_, _, hrep⟩, hnh⟩
    cases hrep with
    | hash => exact nomatch hnh
    | @short _ _ _ n _ fl hchild hfl =>
      have hne : key ≠ [] := hw.ne_nil
      obtain ⟨x, rest, hkey⟩ := exists_cons_of_ne_nil hne
      by_cases hk : k <+: key
      · obtain ⟨r, rfl⟩ := hk
        have hcond := not_mismatch k r
        have hlen : 1 ≤ k.length := length_pos_iff.mpr ht.label_ne_nil
        obtain ⟨ns, hns, hall⟩ := ih fuel hchild (part_child hm) (At.child ht hw)
          (need_le hf (by rw [length_append]; omega))
        refine ⟨.short k n fl :: ns, ?_, ?_⟩
        · rw [hkey] at hcond ⊢
          rw [Trie.proveNodes]
          simp only [if_neg hcond]
          rw [← hkey, drop_left, hns]
        · rw [trail_short_append]
          exact .cons hshow hall
      · have hcond := mismatch hk
        refine ⟨[.short k n fl], ?_, ?_⟩
        · rw [hkey] at hcond ⊢
          rw [Trie.proveNodes]
          simp only [if_pos hcond]
        · rw [trail_short_of_not hk]
          exact .cons hshow .nil
  | full cs ih =>
    intro known top n key fuel hrep hp hat hf
    refine proves_of_loaded hb hp hat (fun n fuel hnh hrep hf => ?_) hrep hf
    obtain ⟨ht, hw⟩ := hat.word_of_isInner trivial
    have hm := (isInner_iff_minimal hp).mp trivial
    have hshow : Shows H K n (.full cs) := ⟨⟨_, _, hrep⟩, hnh⟩
    cases hrep with
    | hash => exact nomatch hnh
    | @full _ _ ns _ fl hchild hfl =>
      cases key with
      | nil => cases hw
      | cons x r =>
        obtain ⟨us, hus, hall⟩ := ih x fuel (hchild x) (part_arm hm x) (At.arm ht hw)
          (need_le hf (by rw [length_cons]; omega))
        refine ⟨.full ns fl :: us, ?_, .cons hshow hall⟩
        rw [Trie.proveNodes]
        simp only [hus]

theorem shows_proofHash (h : Shows H K n u) (hf : Formed u) :
    (Hasher.proofHash H n).1.rlp = enc H u ∧ (Hasher.proofHash H n).2.asHash =
      if (enc H u).length < 32 then none else some (hashOf H u) := by
  obtain ⟨⟨known, top, hrep⟩, hnh⟩ := h
  refine Hasher.proofHash_spec hrep hf ?_
  rintro g rfl
  exact nomatch hnh

/-- One step of the second loop: the node is written if it is the root or large. -/
theorem proveWrite_cons (h : Shows H K n u) (hf : Formed u) (i : Nat) (ns : List Node)
    (p : ProofDb) : Trie.proveWrite H 0 i (n :: ns) p = Trie.proveWrite H 0 (i + 1) ns
        (if i = 0 ∨ 32 ≤ (enc H u).length then p.insert (hashOf H u) (enc H u) else p) := by
  obtain ⟨hrlp, hhash⟩ := shows_proofHash h hf
  rw [Trie.proveWrite]
  simp only [hrlp, hhash]
  by_cases hl : (enc H u).length < 32
  · rw [if_pos hl]
    by_cases hi : i = 0
    · simp only [if_pos hi, if_pos (Or.inl hi)]
      rfl
    · have hno : ¬ (i = 0 ∨ 32 ≤ (enc H u).length) := not_or.mpr ⟨hi, not_le.mpr hl⟩
      simp only [if_neg hi, if_neg hno]
  · rw [if_neg hl, if_pos (Or.inr (not_lt.mp hl))]

/-- What is in the store was there before or is a node of the trail. -/
theorem lookup_proveWrite (hf : ∀ u ∈ us, Formed u) {buf : Bytes} :
    ∀ {ns : List Node} {i : Nat} {p : ProofDb}, Forall₂ (Shows H K) ns us →
      (Trie.proveWrite H 0 i ns p).lookup g = some buf →
        p.lookup g = some buf ∨ ∃ u ∈ us, g = hashOf H u ∧ buf = enc H u := by
  induction us with
  | nil =>
    intro ns i p h hl
    cases h
    exact .inl hl
  | cons u us ih =>
    intro ns i p h hl
    cases h with
    | cons hshow hrest =>
      rw [proveWrite_cons hshow (hf u mem_cons_self)] at hl
      rcases ih (fun w hw => hf w (mem_cons_of_mem _ hw)) hrest hl with hp | ⟨w, hw, he⟩
      · split at hp
        · by_cases hg : g = hashOf H u
          · rw [hg, AList.lookup_insert] at hp
            exact .inr ⟨u, mem_cons_self, hg, (Option.some.inj hp).symm⟩
          · rw [AList.lookup_insert_ne hg] at hp
            exact .inl hp
        · exact .inl hp
      · exact .inr ⟨w, mem_cons_of_mem _ hw, he⟩

/-- Nothing is removed from the store. -/
theorem proveWrite_keeps (hf : ∀ u ∈ us, Formed u) :
    ∀ {ns : List Node} {i : Nat} {p : ProofDb}, Forall₂ (Shows H K) ns us →
      p.lookup g ≠ none → (Trie.proveWrite H 0 i ns p).lookup g ≠ none := by
  induction us with
  | nil =>
    intro ns i p h hl
    cases h
    exact hl
  | cons u us ih =>
    intro ns i p h hl
    cases h with
    | cons hshow hrest =>
      rw [proveWrite_cons hshow (hf u mem_cons_self)]
      refine ih (fun w hw => hf w (mem_cons_of_mem _ hw)) hrest ?_
      split
      · by_cases hg : g = hashOf H u
        · rw [hg, AList.lookup_insert]
          simp
        · rw [AList.lookup_insert_ne hg]
          exact hl
      · exact hl

/-- Every large node of the trail is in the store, and so is the root. -/
theorem proveWrite_has (hf : ∀ u ∈ us, Formed u) :
    ∀ {ns : List Node} {i : Nat} {p : ProofDb}, Forall₂ (Shows H K) ns us → u ∈ us →
      32 ≤ (enc H u).length ∨ (i = 0 ∧ us.head? = some u) →
        (Trie.proveWrite H 0 i ns p).lookup (hashOf H u) ≠ none := by
  induction us with
  | nil => intro ns i p h hu; cases hu
  | cons w us ih =>
    intro ns i p h hu hcond
    have hf' : ∀ w ∈ us, Formed w := fun x hx => hf x (mem_cons_of_mem _ hx)
    cases h with
    | cons hshow hrest =>
      rw [proveWrite_cons hshow (hf w mem_cons_self)]
      by_cases huw : u = w
      · subst huw
        refine proveWrite_keeps hf' hrest ?_
        rw [if_pos (hcond.symm.imp And.left id), AList.lookup_insert]
        simp
      · have hmem := (mem_cons.mp hu).resolve_left huw
        refine ih hf' hrest hmem (.inl (hcond.resolve_right ?_))
        rintro ⟨_, hh⟩
        exact huw (Option.some.inj hh).symm

/-! ## §3 — What the verifier reads -/

/-- **A genuine store** for the encodings `E`: under the hash of one of them it holds that encoding
or nothing. -/
def Genuine (H : Bytes → Hash) (E : List Bytes) (p : ProofDb) : Prop :=
  ∀ e ∈ E, ∀ buf, p.lookup (H e) = some buf → buf = e

/-- A store of preimages is genuine if none of them collides with an encoding. -/
theorem genuine_of_preimages (hpre : ∀ g buf, p.lookup g = some buf → H buf = g)
    (hinj : ∀ g buf, p.lookup g = some buf → ∀ e ∈ E, H buf = H e → buf = e) : Genuine H E p :=
  fun e he buf hl => hinj _ buf hl e he (hpre _ buf hl)

/-- **What `get` finds** along a key in a loaded node: nothing, the value, or the hash of the next
node of the trail. -/
def Leads (H : Bytes → Hash) (t : Content) (key r : Hex) : Node → Prop
  | .nil => lookup t key = none
  | .value v => lookup t key = some v
  | .hash h => ∃ u, h = hashOf H u ∧ u ∈ trail t key ∧ 32 ≤ (enc H u).length ∧ At u r ∧
      lookup t key = lookup u r ∧ trail u r ⊆ trail t key
  | _ => False

theorem Leads.short (h : Leads H c r s n) : Leads H (.short k c) (k ++ r) s n := by
  cases n with
  | nil | value v => exact (lookup_short_append k r c).trans h
  | hash g =>
    obtain ⟨u, hu, hmem, hl, hat, hlook, hsub⟩ := h
    refine ⟨u, hu, ?_, hl, hat, (lookup_short_append k r c).trans hlook, ?_⟩
    · rw [trail_short_append]
      exact mem_cons_of_mem _ hmem
    · rw [trail_short_append]
      exact subset_cons_of_subset _ hsub
  | short _ _ _ | full _ _ => cases h

theorem Leads.full {cs : Fin 17 → Content} {x : Fin 17}
    (h : Leads H (cs x) r s n) : Leads H (.full cs) (x :: r) s n := by
  cases n with
  | nil | value v => exact h
  | hash g =>
    obtain ⟨u, hu, hmem, hl, hat, hlook, hsub⟩ := h
    exact ⟨u, hu, mem_cons_of_mem _ hmem, hl, hat, hlook, subset_cons_of_subset _ hsub⟩
  | short _ _ _ | full _ _ => cases h

/-- What the specification says about `get` on a loaded node. -/
def Finds (H : Bytes → Hash) (n : Node) (t : Content) (key : Hex) : Prop :=
  ∃ r m, get n key true = .ok (r, m) ∧ r.length ≤ key.length ∧ Leads H t key r m

/-- A child: a large one is a hash node, and `get` stops there. -/
theorem finds_loadedRef (hp : Part t) (hat : At t key)
    (h : IsInner t → Finds H (expandNode none (collapsed H t)) t key) :
    Finds H (loadedRef H t) t key := by
  rcases hp with rfl | ⟨v, rfl⟩ | hm
  · exact ⟨key, .nil, rfl, le_refl _, lookup_nil key⟩
  · obtain rfl : key = [] := by
      rcases hat with ⟨ht, _⟩ | ⟨hk, _⟩
      · cases ht
      · exact hk
    exact ⟨[], .value v, rfl, le_refl _, lookup_value_nil v⟩
  have hi := isInner_of_minimal hm
  rcases toRef_cases (H := H) t with ⟨_, hl, he⟩ | ⟨_, he⟩
  · rw [loadedRef, he]
    exact ⟨key, _, rfl, le_refl _, t, rfl, mem_trail_self hi key, hl, hat, rfl, Subset.refl _⟩
  · rw [loadedRef, he]
    exact h hi

/-- **`get` walks through the embedded nodes** of a loaded node and consumes a part of the key. -/
theorem get_spec : ∀ {t : Content} {key : Hex}, Minimal terminator t → Word terminator key →
    ∀ h, ∃ r m, get (expandNode h (collapsed H t)) key true = .ok (r, m) ∧
      r.length < key.length ∧ Leads H t key r m := by
  intro t
  induction t with
  | nil | value v => intro key hm; cases hm
  | short k c ih =>
    intro key hm hw h
    have ht := hm.typed
    have hkey : 1 ≤ key.length := length_pos_iff.mpr hw.ne_nil
    have hlab : compactToHex (hexToCompact k) = k := compactToHex_hexToCompact (validHex_label hm)
    have hnode : expandNode h (collapsed H (.short k c)) = .short k (loadedRef H c) ⟨h, false⟩ := by
      rw [collapsed, expandNode, hlab]
      rfl
    rw [hnode, get]
    by_cases hk : k <+: key
    · obtain ⟨r, rfl⟩ := hk
      have hcond := not_mismatch k r
      have hlen : 1 ≤ k.length := length_pos_iff.mpr ht.label_ne_nil
      have hp := part_child hm
      obtain ⟨s, m, hget, hle, hlead⟩ := finds_loadedRef (H := H) hp (At.child ht hw) fun hi => by
        obtain ⟨s, m, hget, hlt, hlead⟩ := ih ((isInner_iff_minimal hp).mp hi)
          ((At.child ht hw).word_of_isInner hi).2 none
        exact ⟨s, m, hget, le_of_lt hlt, hlead⟩
      refine ⟨s, m, ?_, by rw [length_append]; omega, hlead.short⟩
      rw [if_neg hcond, if_pos rfl, drop_left, hget]
    · have hcond := mismatch hk
      exact ⟨[], .nil, by rw [if_pos hcond], hkey, lookup_short_of_not hk c⟩
  | full cs ih =>
    intro key hm hw h
    have ht := hm.typed
    cases key with
    | nil => cases hw
    | cons x r =>
      have hnode : expandNode h (collapsed H (.full cs)) =
          .full (fun i => loadedRef H (cs i)) ⟨h, false⟩ := rfl
      have hp := part_arm hm x
      obtain ⟨s, m, hget, hle, hlead⟩ := finds_loadedRef (H := H) hp (At.arm ht hw) fun hi => by
        obtain ⟨s, m, hget, hlt, hlead⟩ := ih x ((isInner_iff_minimal hp).mp hi)
          ((At.arm ht hw).word_of_isInner hi).2 none
        exact ⟨s, m, hget, le_of_lt hlt, hlead⟩
      refine ⟨s, m, ?_, by rw [length_cons]; omega, hlead.full⟩
      rw [hnode, get]
      simp only [if_true, hget]

/-- **The verifier answers as the tree does**, or fails because the store has no entry for a node
of the trail. The induction is on the rounds; the rest of the key gets shorter in each of them. -/
theorem verifyLoop_spec (hg : Genuine H E p) : ∀ (fuel i : Nat)
    {t : Content} {key : Hex}, Minimal terminator t → Storable t → encodings H t ⊆ E →
      Word terminator key → key.length < fuel →
        verifyLoop p fuel i (hashOf H t) key = .ok (lookup t key) ∨
          (∃ u ∈ trail t key, (u = t ∨ 32 ≤ (enc H u).length) ∧ p.lookup (hashOf H u) = none) ∧
            ∃ msg, verifyLoop p fuel i (hashOf H t) key = .error (.failure msg)
  | 0, _, _, _, _, _, _, _, hf => absurd hf (by omega)
  | fuel + 1, i, t, key, hm, hs, he, hw, hf => by
    have hi := isInner_of_minimal hm
    rw [verifyLoop]
    cases hl : p.lookup (hashOf H t) with
    | none => exact .inr ⟨⟨t, mem_trail_self hi key, .inl rfl, hl⟩, _, rfl⟩
    | some buf =>
      obtain rfl := hg (enc H t) (he (enc_mem_encodings hi)) buf hl
      obtain ⟨r, m, hget, hlt, hlead⟩ := get_spec (H := H) hm hw (some (hashOf H t))
      simp only [decodeNode_enc hm hs, hget]
      cases m with
      | nil => exact .inl (by rw [show lookup t key = none from hlead])
      | value v => exact .inl (by rw [show lookup t key = some v from hlead])
      | short _ _ _ | full _ _ => cases hlead
      | hash g =>
        obtain ⟨u, rfl, hmem, hlarge, hat, hlook, hsub⟩ := hlead
        obtain ⟨hmu, hsu, heu⟩ := nodeOf_trail (H := H) (.inr (.inr hm)) hs hmem
        have hwu := (hat.word_of_isInner (isInner_of_minimal hmu)).2
        rcases verifyLoop_spec hg fuel (i + 1) hmu hsu (Subset.trans heu he) hwu (by omega)
          with hok | ⟨⟨w, hw', hcond, hnone⟩, msg, herr⟩
        · exact .inl (hok.trans (by rw [hlook]))
        refine .inr ⟨⟨w, hsub hw', .inr ?_, hnone⟩, msg, herr⟩
        rcases hcond with rfl | hcond
        · exact hlarge
        · exact hcond

/-! ## §4 — Completeness and soundness -/

section ProofSpec

variable {H : Bytes → Hash} {E : List Bytes} {t : Trie} {c : Content}

/-- `Prove` never fails, and what it writes are the encodings of the trail. -/
theorem Prove_spec (h : TrieOK H E t c) (key : Bytes) (p : ProofDb) : ∃ p',
    t.Prove H key 0 p = .ok p' ∧ (∀ g buf, p'.lookup g = some buf → p.lookup g = some buf ∨
        ∃ u ∈ trail c (keybytesToHex key), g = hashOf H u ∧ buf = enc H u) ∧
      (∀ g, p.lookup g ≠ none → p'.lookup g ≠ none) ∧
      ∀ u ∈ trail c (keybytesToHex key), u = c ∨ 32 ≤ (enc H u).length →
        p'.lookup (hashOf H u) ≠ none := by
  have hp := part_of_canon h.canon
  obtain ⟨ns, hns, hshow⟩ := proveNodes_spec (backed_stored H t.db) (depth (keybytesToHex key))
    h.rep hp (at_key h.canon key) (need_le_depth _ _)
  have hf : ∀ u ∈ trail c (keybytesToHex key), Formed u := fun u hu =>
    have hn := nodeOf_trail (H := H) hp h.storable hu
    formed_of_minimal hn.minimal hn.storable
  refine ⟨Trie.proveWrite H 0 0 ns p, by rw [Trie.Prove, hns], fun g buf hl =>
    lookup_proveWrite hf hshow hl, fun g hl => proveWrite_keeps hf hshow hl, fun u hu hc => ?_⟩
  refine proveWrite_has hf hshow hu (hc.symm.imp id ?_)
  rintro rfl
  refine ⟨rfl, head_trail ?_ _⟩
  exact isInner_of_minimal (nodeOf_trail (H := H) hp h.storable hu).minimal

/-- A store that holds encodings of nodes on the way of some keys is genuine. -/
theorem genuine_of_trail (cf : CollisionFree H E) (hp : Part c)
    (hs : Storable c) (he : encodings H c ⊆ E)
    (h : ∀ g buf, p.lookup g = some buf →
      ∃ key, ∃ u ∈ trail c key, g = hashOf H u ∧ buf = enc H u) :
    Genuine H (encodings H c) p := by
  intro e hmem buf hl
  obtain ⟨_, u, hu, hhash, rfl⟩ := h _ _ hl
  have hn := nodeOf_trail (H := H) hp hs hu
  exact (cf.inj _ (mem_cons_of_mem _ (he hmem)) _
    (mem_cons_of_mem _ (he (hn.encs (enc_mem_encodings (isInner_of_minimal hn.minimal)))))
    hhash).symm

theorem VerifyProof_spec (hm : Minimal terminator c) (hs : Storable c)
    (hg : Genuine H (encodings H c) p) (key : Bytes) (fuel : Nat)
    (hf : (keybytesToHex key).length < fuel) :
    VerifyProof fuel (hashOf H c) key p = .ok (lookup c (keybytesToHex key)) ∨
      (∃ u ∈ trail c (keybytesToHex key), (u = c ∨ 32 ≤ (enc H u).length) ∧
        p.lookup (hashOf H u) = none) ∧
          ∃ msg, VerifyProof fuel (hashOf H c) key p = .error (.failure msg) :=
  verifyLoop_spec hg fuel 0 hm hs (Subset.refl _) (word_keybytesToHex key) hf

end ProofSpec

/-- **Proofs for one key are complete and sound**, for every trie that any session can reach and
that is not empty. What `Prove` writes makes the verifier return the value of the key, or nothing
if there is none; and with any store of preimages the verifier returns that or an error. -/
theorem proof_complete_and_sound (H : Bytes → Hash) (disk pre : Map Hash Bytes) (ops : List Op)
    (key : Bytes) (cf : CollisionFree H (hashed H start ops))
    (hne : ∃ k v, lastValue (start.after ops).live k = some v) :
    ∃ s outs root t, (Session.start disk pre).run H ops = .ok (s, outs) ∧
      s.trie.Hash H = .ok (root, t) ∧
      (∃ p, s.trie.Prove H key 0 ∅ = .ok p ∧ ∀ fuel, 2 * key.length + 1 < fuel →
        VerifyProof fuel root key p = .ok (lastValue (start.after ops).live key)) ∧
      ∀ p : ProofDb, (∀ g buf, p.lookup g = some buf → H buf = g) →
        (∀ g buf, p.lookup g = some buf →
          ∀ e ∈ encodings H (contents (start.after ops).live), H buf = H e → buf = e) →
        ∀ fuel, 2 * key.length + 1 < fuel →
          VerifyProof fuel root key p = .ok (lastValue (start.after ops).live key) ∨
            ∃ msg, VerifyProof fuel root key p = .error (.failure msg) := by
  obtain ⟨s, hrun, hok⟩ := run_refines cf ops (sessionOK_start disk pre) (Subset.refl _)
  have htrie := hok.trie
  have hm : Minimal terminator (contents (start.after ops).live) := by
    refine htrie.canon.resolve_left fun hnil => ?_
    obtain ⟨k, v, hv⟩ := hne
    rw [← lookup_contents, hnil] at hv
    cases hv
  obtain ⟨t, hhash, _⟩ := Hash_spec htrie
  rw [rootHash_of_inner (isInner_of_minimal hm)] at hhash
  refine ⟨s, _, _, t, hrun, hhash, ?_, fun p hpre hinj fuel hf => ?_⟩
  · obtain ⟨p, hprove, hfrom, _, hhas⟩ := Prove_spec htrie key ∅
    have hfrom' : ∀ g buf, p.lookup g = some buf → ∃ key, ∃ u ∈ trail _ key,
        g = hashOf H u ∧ buf = enc H u :=
      fun g buf hl => ⟨_, (hfrom g buf hl).resolve_left (by simp)⟩
    have hg := genuine_of_trail cf (part_of_canon htrie.canon) htrie.storable htrie.encs hfrom'
    refine ⟨p, hprove, fun fuel hf => ?_⟩
    rw [← lookup_contents]
    refine (VerifyProof_spec hm htrie.storable hg key fuel (by simpa using hf)).resolve_right ?_
    rintro ⟨⟨u, hu, hcond, hnone⟩, _⟩
    exact hhas u hu hcond hnone
  · rw [← lookup_contents]
    exact (VerifyProof_spec hm htrie.storable (genuine_of_preimages hpre hinj) key fuel
      (by simpa using hf)).imp id And.right

theorem proof_complete_and_sound_present : ∃ s outs root t p,
    (Session.start ∅ ∅).run keccakSample oneOrder = .ok (s, outs) ∧
      s.trie.Hash keccakSample = .ok (root, t) ∧
      s.trie.Prove keccakSample keyA.data 0 ∅ = .ok p ∧
      VerifyProof 4 root keyA.data p = .ok (some [0x78]) := by
  obtain ⟨s, outs, root, t, hrun, hhash, ⟨p, hprove, hverify⟩, _⟩ :=
    proof_complete_and_sound keccakSample ∅ ∅ oneOrder keyA.data (by decide +kernel)
      ⟨keyA.data, [0x78], rfl⟩
  exact ⟨s, outs, root, t, p, hrun, hhash, hprove, hverify 4 (by decide)⟩

end MxtChain.Trie
