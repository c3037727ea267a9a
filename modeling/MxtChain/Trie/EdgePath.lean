/-
# MxtChain.Trie.EdgePath — loading the path of a key from a proof

A node made from a proof is loaded along some keys and has hash nodes everywhere else. Where they
are is what decides whether a walk along a key can go on.
-/
import MxtChain.Lib.Patricia.Skeleton
import MxtChain.Trie.ProofSpec
import MxtChain.Trie.RangeProof

namespace MxtChain.Trie

open Lib.Patricia List Function

/-! ## §1 — Where the hash nodes are -/

/-- A key meets no hash node if no path to one is a beginning of the key. -/
theorem open_iff : ∀ {n : Node} {key : Hex}, Open n key ↔ ∀ q, HashAt n q → ¬ q <+: key := by
  intro n
  induction n with
  | nil | value v => intro key; exact ⟨fun _ _ h => absurd h id, fun _ => trivial⟩
  | hash h =>
    intro key
    exact ⟨fun ho => absurd ho id, fun hall => hall [] rfl nil_prefix⟩
  | short k n fl ih =>
    intro key
    constructor
    · rintro ho q ⟨r, rfl, hr⟩ hq
      obtain ⟨s, rfl⟩ : k <+: key := IsPrefix.trans (prefix_append k r) hq
      have hs := ho (prefix_append k s)
      rw [drop_left] at hs
      exact ih.mp hs r hr ((prefix_append_right_inj k).mp hq)
    · rintro hall ⟨s, rfl⟩
      rw [drop_left]
      exact ih.mpr fun r hr hrs => hall (k ++ r) ⟨r, rfl, hr⟩
        ((prefix_append_right_inj k).mpr hrs)
  | full ns fl ih =>
    intro key
    cases key with
    | nil =>
      refine ⟨?_, fun _ => trivial⟩
      rintro _ q ⟨x, r, rfl, _⟩ hq
      exact absurd (prefix_nil.mp hq) (by simp)
    | cons y s =>
      constructor
      · rintro ho q ⟨x, r, rfl, hr⟩ hq
        obtain ⟨rfl, hrs⟩ := cons_prefix_cons.mp hq
        exact (ih x).mp ho r hr hrs
      · intro hall
        exact (ih y).mpr fun r hr hrs => hall (y :: r) ⟨y, r, rfl, hr⟩
          (cons_prefix_cons.mpr ⟨rfl, hrs⟩)

variable {top allow known known' : Bool} {n m m1 : Node} {u c t t' : Content}
  {us : Fin 17 → Content} {H : Bytes → Hash} {p : ProofDb} {key pre r k : Hex}
  {relink : Node → Node} {fuel : Nat} {fl : NodeFlag} {K : Content → Prop} {α : Type}

/-- A hash node stands for the subtree at the end of its path. -/
theorem Rep.of_hashAt (h : Rep H K known top n t) : ∀ {q : Hex}, HashAt n q →
      ∃ u, K u ∧ IsInner u ∧ ∀ r, lookup t (q ++ r) = lookup u r := by
  induction h with
  | nil | value v => intro q hq; cases hq
  | hash hi _ hk =>
    rintro q rfl
    exact ⟨_, hk, hi, fun r => rfl⟩
  | short _ _ ih =>
    rintro q ⟨r, rfl, hr⟩
    obtain ⟨u, hk, hi, hl⟩ := ih hr
    refine ⟨u, hk, hi, fun s => ?_⟩
    rw [append_assoc, lookup_short_append]
    exact hl s
  | full _ _ ih =>
    rintro q ⟨x, r, rfl, hr⟩
    obtain ⟨u, hk, hi, hl⟩ := ih x hr
    exact ⟨u, hk, hi, hl⟩

/-! ## §2 — Loading a node -/

theorem NodeOf.child (h : NodeOf H c (.short k u)) (hi : IsInner u) : NodeOf H c u :=
  ⟨(isInner_iff_minimal (part_child h.minimal)).mp hi, h.storable.child,
    Subset.trans (encodings_short_subset k u) h.encs⟩

theorem NodeOf.arm (h : NodeOf H c (.full us)) {i : Fin 17}
    (hi : IsInner (us i)) : NodeOf H c (us i) :=
  ⟨(isInner_iff_minimal (part_arm h.minimal i)).mp hi, h.storable.arm i,
    Subset.trans (encodings_arm_subset us i) h.encs⟩

theorem below_nodeOf : ∀ {u : Content}, (IsInner u → NodeOf H c u) → Below H (NodeOf H c) u := by
  intro u
  induction u with
  | nil | value v => intro _; trivial
  | short k u ih =>
    intro h
    exact ⟨fun hi _ => (h trivial).child hi, ih fun hi => (h trivial).child hi⟩
  | full us ih =>
    intro h i
    exact ⟨fun hi _ => (h trivial).arm hi, ih i fun hi => (h trivial).arm hi⟩

/-- **A genuine store gives back a node of the trie**, or has nothing under its hash. -/
theorem resolveNode_spec (hg : Genuine H (encodings H c) p) (hu : NodeOf H c u)
    (known : Bool) (hl : top = false → 32 ≤ (enc H u).length) :
    (∃ n, resolveNode p (hashOf H u) = .ok n ∧ n.isHash = false ∧
      Rep H (NodeOf H c) known top n u) ∨
    p.lookup (hashOf H u) = none ∧ ∃ msg, resolveNode p (hashOf H u) = .error (.failure msg) := by
  have hi := isInner_of_minimal hu.minimal
  rw [resolveNode]
  cases hlook : p.lookup (hashOf H u) with
  | none => exact .inr ⟨rfl, _, rfl⟩
  | some buf =>
    obtain rfl := hg (enc H u) (hu.encs (enc_mem_encodings hi)) buf hlook
    refine .inl ⟨expandNode (some (hashOf H u)) (collapsed H u),
      by simp only [decodeNode_enc hu.minimal hu.storable], isHash_expandNode hi _, ?_⟩
    exact rep_expandNode (.inr (.inr hu.minimal)) (below_nodeOf fun _ => hu)
      fun _ => flagOK_loaded hl hu

/-! ## §3 — The path of a key -/

/-- A large node of the trail is not in the store. -/
def Lacks (H : Bytes → Hash) (p : ProofDb) (t : Content) (key : Hex) : Prop :=
  ∃ u ∈ trail t key, 32 ≤ (enc H u).length ∧ p.lookup (hashOf H u) = none

/-- **What the specification says about loading a path**: the node stands for the same tree, the
key can be followed in it, and no hash node is anywhere but at or below an old one; or there is an
error, for a reason. -/
def Loads (H : Bytes → Hash) (c : Content) (p : ProofDb) (allow known top : Bool) (n : Node)
    (t : Content) (key : Hex) (res : Except Err (Node × Option Bytes)) : Prop :=
  (∃ n', res = .ok (n', lookup t key) ∧ (allow = true ∨ lookup t key ≠ none) ∧
    n'.isHash = false ∧ Rep H (NodeOf H c) known top n' t ∧ Open n' key ∧
    ∀ q, HashAt n' q → ∃ q', q' <+: q ∧ HashAt n q') ∨
  (∃ msg, res = .error (.failure msg)) ∧ ((allow = false ∧ lookup t key = none) ∨ Lacks H p t key)

/-- **The child `m` of `n` that the key leads to**, with the path `pre` to it and the rest `r` of
the key, and the node that `n` becomes when the child is replaced. -/
structure Link (H : Bytes → Hash) (c : Content) (known top : Bool) (n : Node) (t : Content)
    (key : Hex) (m : Node) (t' : Content) (pre r : Hex) (relink : Node → Node) : Prop where
  get_eq : get n key false = .ok (r, m)
  link_eq : ∀ m', linkChild n key m' = .ok (relink m')
  self : relink m = n
  rep : ∃ known', Rep H (NodeOf H c) known' false m t' ∧ ∀ m',
    Rep H (NodeOf H c) known' false m' t' → Rep H (NodeOf H c) known top (relink m') t
  isHash : ∀ m', (relink m').isHash = false
  isOpen : ∀ m', Open m' r → Open (relink m') key
  hashAt : ∀ m' q, HashAt (relink m') q → (∃ s, q = pre ++ s ∧ HashAt m' s) ∨ HashAt n q
  hashAt_self : ∀ s, HashAt m s → HashAt n (pre ++ s)
  lookup_eq : lookup t key = lookup t' r
  trail_sub : trail t' r ⊆ trail t key

theorem Link.descend (hl : Link H c known top n t key m t' pre r relink)
    (hrep : ∀ m', Rep H (NodeOf H c) known' false m' t' →
      Rep H (NodeOf H c) known top (relink m') t)
    (hfrom : ∀ q, HashAt m1 q → ∃ q', q' <+: q ∧ HashAt m q')
    (h : Loads H c p allow known' false m1 t' r (pathLoop p allow fuel m1 r)) :
    Loads H c p allow known top n t key
      (match linkChild n key m1 with
        | .error e => .error e
        | .ok _ =>
          match pathLoop p allow fuel m1 r with
          | .error e => .error e
          | .ok (child, val) => (linkChild n key child).map fun parent => (parent, val)) := by
  rw [hl.link_eq]
  rcases h with ⟨m2, hres, hfound, _, hrep2, hopen, hhash⟩ | ⟨⟨msg, hres⟩, hwhy⟩
  · refine .inl ⟨relink m2, ?_, ?_, hl.isHash m2, hrep m2 hrep2, hl.isOpen m2 hopen, ?_⟩
    · simp only [hres, hl.link_eq, Except.map, hl.lookup_eq]
    · rwa [hl.lookup_eq]
    · intro q hq
      rcases hl.hashAt m2 q hq with ⟨s, rfl, hs⟩ | hq
      · obtain ⟨s1, hs1, h1⟩ := hhash s hs
        obtain ⟨s0, hs0, h0⟩ := hfrom s1 h1
        exact ⟨pre ++ s0, (prefix_append_right_inj pre).mpr (hs0.trans hs1), hl.hashAt_self s0 h0⟩
      · exact ⟨q, prefix_rfl, hq⟩
  · refine .inr ⟨⟨msg, by simp only [hres]⟩, hwhy.imp ?_ ?_⟩
    · rintro ⟨ha, hnone⟩
      exact ⟨ha, hl.lookup_eq.trans hnone⟩
    · rintro ⟨u, hu, hlarge, hnone⟩
      exact ⟨u, hl.trail_sub hu, hlarge, hnone⟩

/-- Nothing is at the end of the path. -/
theorem loads_nothing (hn : n.isHash = false) (hrep : Rep H (NodeOf H c) known top n t)
    (hopen : Open n key) (hnone : lookup t key = none) :
    Loads H c p allow known top n t key (if allow = true then .ok (n, none)
      else .error (.failure "the node is not contained in trie")) := by
  cases allow with
  | true =>
    exact .inl ⟨n, by rw [hnone, if_pos rfl], .inl rfl, hn, hrep, hopen,
      fun q hq => ⟨q, prefix_rfl, hq⟩⟩
  | false => exact .inr ⟨⟨_, if_neg (by simp)⟩, .inl ⟨rfl, hnone⟩⟩

/-- **One round of the loop.** -/
theorem Link.loads (hg : Genuine H (encodings H c) p)
    (hl : Link H c known top n t key m t' pre r relink) (hp : Part t') (hs : Storable t')
    (hu : IsInner t' → NodeOf H c t') (hat : At t' r)
    (ih : ∀ known' m', m'.isHash = false → Rep H (NodeOf H c) known' false m' t' →
      Minimal terminator t' →
      Loads H c p allow known' false m' t' r (pathLoop p allow fuel m' r)) :
    Loads H c p allow known top n t key (pathLoop p allow (fuel + 1) n key) := by
  obtain ⟨known', hrep, hrelink⟩ := hl.rep
  have hself : ∀ q, HashAt m q → ∃ q', q' <+: q ∧ HashAt m q' :=
    fun q hq => ⟨q, prefix_rfl, hq⟩
  have hnh : n.isHash = false := hl.self ▸ hl.isHash m
  rw [pathLoop]
  simp only [hl.get_eq]
  rcases hp with rfl | ⟨v, rfl⟩ | hm
  · -- the path ends at nothing
    obtain rfl := hrep.nil_right
    exact loads_nothing hnh (hl.self ▸ hrelink _ hrep) (hl.self ▸ hl.isOpen .nil trivial)
      (hl.lookup_eq.trans (lookup_nil r))
  · -- the path ends at a value, which is not empty
    obtain rfl := hrep.value_right
    obtain rfl : r = [] := by
      rcases hat with ⟨ht, _⟩ | ⟨hk, _⟩
      · cases ht
      · exact hk
    have hv : v.length > 0 := length_pos_iff.mpr hs.value.1
    have hlook : lookup t key = some v := hl.lookup_eq.trans (lookup_value_nil v)
    simp only [if_pos hv, hl.link_eq, hl.self]
    exact .inl ⟨n, by rw [hlook], .inr (by simp [hlook]), hnh, hl.self ▸ hrelink _ hrep,
      hl.self ▸ hl.isOpen (.value v) trivial, fun q hq => ⟨q, prefix_rfl, hq⟩⟩
  have hi := isInner_of_minimal hm
  cases hmh : m.isHash with
  | false =>
    have hstep := hl.descend hrelink hself (ih known' m hmh hrep hm)
    cases hrep with
    | nil | value v => cases hm
    | hash => cases hmh
    | short _ _ | full _ _ => exact hstep
  | true =>
    cases hrep with
    | nil | value v => cases hm
    | short _ _ | full _ _ => cases hmh
    | hash _ hlarge hk =>
      rcases resolveNode_spec hg (hu hi) known' hlarge with
        ⟨m1, hres, hm1, hrep1⟩ | ⟨hnone, msg, hres⟩
      · simp only [hres]
        exact hl.descend hrelink (fun q _ => ⟨[], nil_prefix, rfl⟩)
          (ih known' m1 hm1 hrep1 hm)
      · simp only [hres]
        exact .inr ⟨⟨msg, rfl⟩, .inr ⟨t', hl.trail_sub (mem_trail_self hi r), hlarge rfl, hnone⟩⟩

theorem link_short (hrep : Rep H (NodeOf H c) (known || fl.hash.isSome) false n u)
    (hfl : FlagOK H (NodeOf H c) known top fl (.short k u)) :
    Link H c known top (.short k n fl) (.short k u) (k ++ r) n u k r (.short k · fl) where
  get_eq := by
    have hcond := not_mismatch k r
    rw [get, if_neg hcond, if_neg (by simp), drop_left]
  link_eq _ := rfl
  self := rfl
  rep := ⟨_, hrep, fun _ h => .short h hfl⟩
  isHash _ := rfl
  isOpen m' ho _ := by rwa [drop_left]
  hashAt _ _ hq := .inl hq
  hashAt_self s hs := ⟨s, rfl, hs⟩
  lookup_eq := lookup_short_append k r u
  trail_sub := by
    rw [trail_short_append]
    exact subset_cons_self _ _

theorem link_full {x : Fin 17} {ns : Fin 17 → Node}
    (hrep : ∀ i, Rep H (NodeOf H c) (known || fl.hash.isSome) false (ns i) (us i))
    (hfl : FlagOK H (NodeOf H c) known top fl (.full us)) :
    Link H c known top (.full ns fl) (.full us) (x :: r) (ns x) (us x) [x] r
      (fun m => .full (update ns x m) fl) where
  get_eq := by rw [get]; simp
  link_eq _ := rfl
  self := by rw [update_eq_self]
  rep := by
    refine ⟨_, hrep x, fun m' h => .full (fun i => ?_) hfl⟩
    by_cases hi : i = x
    · subst hi
      rwa [update_self]
    · rw [update_of_ne hi]
      exact hrep i
  isHash _ := rfl
  isOpen m' ho := by rwa [Open, update_self]
  hashAt m' q := by
    rintro ⟨i, s, rfl, hs⟩
    by_cases hi : i = x
    · subst hi
      rw [update_self] at hs
      exact .inl ⟨s, rfl, hs⟩
    · rw [update_of_ne hi] at hs
      exact .inr ⟨i, s, rfl, hs⟩
  hashAt_self s hs := ⟨x, s, rfl, hs⟩
  lookup_eq := rfl
  trail_sub := subset_cons_self _ _

/-- **`proofToPath` loads the path of a key.** The induction is on the tree; each round goes down
by one node. -/
theorem pathLoop_spec (hg : Genuine H (encodings H c) p) (allow : Bool) : ∀ {t : Content}
    {known top : Bool} {n : Node} {key : Hex} (fuel : Nat), NodeOf H c t → n.isHash = false →
      Rep H (NodeOf H c) known top n t → Word terminator key → key.length < fuel →
        Loads H c p allow known top n t key (pathLoop p allow fuel n key) := by
  intro t
  induction t with
  | nil | value v => intro known top n key fuel hu; exact absurd hu.minimal id
  | short k u ih =>
    intro known top n key fuel hu hnh hrep hw hf
    have ht := hu.minimal.typed
    obtain ⟨fuel, rfl⟩ := Nat.exists_eq_add_of_le' (le_trans (by omega) hf : 1 ≤ fuel)
    have hrep' := hrep
    cases hrep with
    | hash => cases hnh
    | @short _ _ _ n _ fl hchild hfl =>
      by_cases hk : k <+: key
      · obtain ⟨r, rfl⟩ := hk
        have hlen : 1 ≤ k.length := length_pos_iff.mpr ht.label_ne_nil
        rw [length_append] at hf
        exact (link_short hchild hfl).loads hg (part_child hu.minimal) hu.storable.child hu.child
          (At.child ht hw) fun known' m' hm' hr' hmin => ih fuel (hu.child (isInner_of_minimal hmin))
            hm' hr' ((At.child ht hw).word_of_isInner (isInner_of_minimal hmin)).2 (by omega)
      · have hcond := mismatch hk
        rw [pathLoop, get, if_pos hcond]
        exact loads_nothing rfl hrep' (fun h => absurd h hk) (lookup_short_of_not hk u)
  | full us ih =>
    intro known top n key fuel hu hnh hrep hw hf
    have ht := hu.minimal.typed
    obtain ⟨fuel, rfl⟩ := Nat.exists_eq_add_of_le' (le_trans (by omega) hf : 1 ≤ fuel)
    cases hrep with
    | hash => cases hnh
    | @full _ _ ns _ fl hchild hfl =>
      obtain ⟨x, r, rfl⟩ := exists_cons_of_ne_nil hw.ne_nil
      rw [length_cons] at hf
      exact (link_full hchild hfl).loads hg (part_arm hu.minimal x) (hu.storable.arm x) hu.arm
        (At.arm ht hw) fun known' m' hm' hr' hmin => ih x fuel (hu.arm (isInner_of_minimal hmin))
          hm' hr' ((At.arm ht hw).word_of_isInner (isInner_of_minimal hmin)).2 (by omega)

/-! ## §4 — What is behind a key -/

/-- `bytes.Compare` decides at the letter where the two strings part. -/
theorem bytesCompare_append [LinearOrder α] (p : List α) (a b : List α) :
    bytesCompare (p ++ a) (p ++ b) = bytesCompare a b := by
  induction p with
  | nil => rfl
  | cons x p ih => rw [cons_append, cons_append, bytesCompare, if_neg (lt_irrefl x),
      if_neg (lt_irrefl x), ih]

theorem bytesCompare_cons_of_ne [LinearOrder α] {x y : α} (h : x ≠ y) (a b : List α) :
    bytesCompare (x :: a) (y :: b) = if x < y then .lt else .gt := by
  rw [bytesCompare]
  rcases lt_or_gt_of_ne h with hlt | hgt
  · rw [if_pos hlt, if_pos hlt]
  · rw [if_neg (not_lt.mpr (le_of_lt hgt)), if_pos hgt, if_neg (not_lt.mpr (le_of_lt hgt))]

/-- **`hasRightElement` reads off the shape of the tree** whether something is behind the key. -/
theorem rightElement_spec : ∀ {t : Content} {known top : Bool} {n : Node} {key : Hex},
    Rep H K known top n t → At t key → Open n key →
      ∃ b, rightElement n key = .ok b ∧ (b = true ↔ RightOf terminator t key) := by
  intro t
  induction t with
  | nil =>
    intro known top n key hrep _ _
    obtain rfl := hrep.nil_right
    exact ⟨false, rfl, by simp [RightOf]⟩
  | value v =>
    intro known top n key hrep _ _
    obtain rfl := hrep.value_right
    exact ⟨false, rfl, by simp [RightOf]⟩
  | short k c ih =>
    intro known top n key hrep hat hopen
    obtain ⟨ht, hw⟩ := hat.word_of_isInner trivial
    cases hrep with
    | hash => cases hopen
    | @short _ _ _ n _ fl hchild hfl =>
      rw [rightElement]
      rcases word_label_cases hw ht with ⟨r, rfl⟩ | ⟨p, a, b, k', r, hab, rfl, rfl, _⟩
      · have hcond := not_mismatch k r
        have ho := hopen (prefix_append k r)
        rw [drop_left] at ho
        rw [if_neg hcond, drop_left, rightOf_short_append]
        exact ih hchild (At.child ht hw) ho
      have hnot : ¬ p ++ a :: k' <+: p ++ b :: r := by
        rw [prefix_append_right_inj, cons_prefix_cons]
        exact fun h => hab h.1
      refine ⟨_, if_pos (mismatch hnot), ?_⟩
      rw [rightOf_short_of_not hnot, decide_eq_true_eq, bytesCompare_append,
        bytesCompare_cons_of_ne hab, before_append_left, before_cons]
      rcases lt_or_gt_of_ne hab with hlt | hgt
      · simp [hlt, hab.symm, not_lt.mpr (le_of_lt hlt)]
      · simp [hgt, not_lt.mpr (le_of_lt hgt)]
  | full cs ih =>
    intro known top n key hrep hat hopen
    obtain ⟨ht, hw⟩ := hat.word_of_isInner trivial
    cases hrep with
    | hash => cases hopen
    | @full _ _ ns _ fl hchild hfl =>
      obtain ⟨x, r, rfl⟩ := exists_cons_of_ne_nil hw.ne_nil
      have hsome : (∃ i : Fin 17, x < i ∧ i < 16 ∧ (ns i).isNil = false) ↔
          ∃ i, x < i ∧ i ≠ terminator ∧ cs i ≠ .nil := by
        refine exists_congr fun i => and_congr_right fun _ => ?_
        rw [← Bool.not_eq_true, (hchild i).isNil_iff]
        exact and_congr_left fun _ => ⟨fun h => ne_of_lt h, fun h => by
          have : i ≠ 16 := h
          omega⟩
      rw [rightElement, RightOf]
      by_cases hright : ∃ i : Fin 17, x < i ∧ i < 16 ∧ (ns i).isNil = false
      · exact ⟨true, if_pos hright, by simp [hsome.mp hright]⟩
      · rw [if_neg hright]
        obtain ⟨b, hres, hb⟩ := ih x (hchild x) (At.arm ht hw) hopen
        exact ⟨b, hres, hb.trans ⟨.inr, fun h => h.resolve_left fun h' => hright (hsome.mpr h')⟩⟩

end MxtChain.Trie
