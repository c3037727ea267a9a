/-
# MxtChain.Trie.TrieSpec — the trie operations act on the tree like the Patricia operations

Each recursive operation of `trie.go` is compared with the operation of the same name on Patricia
trees. The node it is given stands for a tree; the node it returns stands for the tree that the
Patricia operation returns, and no call fails. The inductions are on the tree: below a hash node
the operation continues on a loaded node that stands for the same tree.
-/
import MxtChain.Lib.Patricia.Delete
import MxtChain.Trie.DatabaseView

namespace MxtChain.Trie

open Lib.Patricia Function
open List hiding lookup_nil

/-! ## §1 — Loading a node -/

/-- **The trees of `K` can be loaded** from the database, and so can what is below them. -/
def Backed (H : Bytes → Hash) (db : Database) (K : Content → Prop) : Prop :=
  ∀ u, IsInner u → K u → Below H K u ∧ ∀ path, Trie.resolveHash db (hashOf H u) path =
    .ok (expandNode (some (hashOf H u)) (collapsed H u))

theorem backed_stored (H : Bytes → Hash) (db : Database) : Backed H db (Stored H db) :=
  fun _ hi hs => ⟨below_stored hs.2, fun path => resolveHash_of_holds hi hs.1 path⟩

def Node.isHash : Node → Bool
  | .hash _ => true
  | _ => false

variable {t c : Content} {H : Bytes → Hash} {K : Content → Prop} {db : Database}
  {k r key path q p : Hex} {x a b : Fin 17} {cs : Fin 17 → Content} {fuel pos : Nat} {n rn : Node}
  {known top : Bool} {ns : Fin 17 → Node} {fl : NodeFlag} {v : Bytes}

theorem isHash_expandNode (hi : IsInner t) (h : Option Hash) :
    (expandNode h (collapsed H t)).isHash = false := by
  cases t with
  | nil | value v => cases hi
  | short k c | full cs => rfl

/-- Loading a hash node gives a node that is not a hash and stands for the same tree. -/
theorem Backed.load (hb : Backed H db K) (known top : Bool) (hp : Part t)
    (hi : IsInner t) (hl : top = false → 32 ≤ (enc H t).length) (hk : K t) (path : Hex) :
    ∃ rn, Trie.resolveHash db (hashOf H t) path = .ok rn ∧ rn.isHash = false ∧
      Rep H K known top rn t := by
  obtain ⟨hbelow, hres⟩ := hb t hi hk
  exact ⟨_, hres path, isHash_expandNode hi _,
    rep_expandNode hp hbelow fun _ => flagOK_loaded hl hk⟩

/-- **Where a key is read**: a word in a typed tree, or the end of the word at a value or at
nothing. -/
def At (t : Content) (key : Hex) : Prop :=
  (Typed terminator t ∧ Word terminator key) ∨ (key = [] ∧ (t = .nil ∨ ∃ v, t = .value v))

theorem At.child (h : Typed terminator (.short k c)) (hw : Word terminator (k ++ r)) : At c r := by
  rcases h with ⟨hk, hv⟩ | ⟨_, hn, hc⟩
  · rw [word_append_of_word hk] at hw
    exact .inr ⟨hw, .inr hv⟩
  · exact .inl ⟨hc, (word_append_of_notMem hn).mp hw⟩

theorem At.arm (h : Typed terminator (.full cs)) (hw : Word terminator (x :: r)) : At (cs x) r := by
  rcases hw with ⟨rfl, rfl⟩ | ⟨hx, hr⟩
  · exact .inr ⟨rfl, h.2⟩
  · exact .inl ⟨h.1 x hx, hr⟩

theorem At.word_of_isInner (h : At t key) (hi : IsInner t) :
    Typed terminator t ∧ Word terminator key := by
  rcases h with h | ⟨_, rfl | ⟨v, rfl⟩⟩
  · exact h
  · cases hi
  · cases hi

/-- The number of nested calls that a key of this length takes; loading a hash node takes one. -/
def need (n : Node) (key : Hex) : Nat := 2 * key.length + 1 + n.isHash.toNat

theorem need_le_add_two (n : Node) (key : Hex) : need n key ≤ 2 * key.length + 2 := by
  unfold need
  cases n.isHash <;> simp

theorem need_le_depth (n : Node) (key : Hex) : need n key ≤ depth key := need_le_add_two n key

/-- The rest of a key, one letter or more later, needs two calls less. -/
theorem need_le (h : 2 * key.length ≤ fuel) (hr : r.length < key.length) : need n r ≤ fuel :=
  le_trans (need_le_add_two n r) (by omega)

/-- A node is loaded, or it is the hash of a known tree. -/
theorem Rep.loaded_or (h : Rep H K known top n t) : n.isHash = false ∨ n = .hash (hashOf H t) ∧
      IsInner t ∧ (top = false → 32 ≤ (enc H t).length) ∧ K t := by
  cases h with
  | hash hi hl hk => exact .inr ⟨rfl, hi, hl, hk⟩
  | _ => exact .inl rfl

/-- The calls there are enough of: one for a loaded node, one more for a hash. -/
theorem Rep.calls (h : Rep H K known top n t) (hf : need n key ≤ fuel) :
    (∃ m, fuel = m + 1 ∧ 2 * key.length ≤ m ∧ n.isHash = false) ∨
      ∃ m, fuel = m + 2 ∧ 2 * key.length ≤ m ∧ n = .hash (hashOf H t) ∧
        IsInner t ∧ (top = false → 32 ≤ (enc H t).length) ∧ K t := by
  rcases h.loaded_or with hn | ⟨rfl, hi, hl, hk⟩
  · rw [need, hn] at hf
    obtain ⟨m, rfl⟩ := Nat.exists_eq_add_of_le' (le_trans (by omega) hf : 1 ≤ fuel)
    exact .inl ⟨m, rfl, by omega, hn⟩
  · rw [need, Node.isHash, Bool.toNat_true] at hf
    obtain ⟨m, rfl⟩ := Nat.exists_eq_add_of_le' (le_trans (by omega) hf : 2 ≤ fuel)
    exact .inr ⟨m, rfl, by omega, rfl, hi, hl, hk⟩

/-! ## §2 — Lookup -/

/-- What the specification says about a lookup. -/
def Gets (H : Bytes → Hash) (K : Content → Prop) (db : Database) (known top : Bool) (fuel : Nat)
    (n : Node) (key : Hex) (pos : Nat) (t : Content) : Prop :=
  ∃ n' b, Trie.tryGet db fuel n key pos = .ok (lookup t (key.drop pos), n', b) ∧
    Rep H K known top n' t

/-- It is enough to look at loaded nodes. -/
theorem gets_of_loaded (hb : Backed H db K)
    (hp : Part t)
    (h : ∀ n fuel, n.isHash = false → Rep H K known top n t → 2 * (key.drop pos).length ≤ fuel →
      Gets H K db known top (fuel + 1) n key pos t)
    (hrep : Rep H K known top n t) (hf : need n (key.drop pos) ≤ fuel) :
    Gets H K db known top fuel n key pos t := by
  obtain ⟨fuel, rfl, hf, hn⟩ | ⟨fuel, rfl, hm, rfl, hi, hl, hk⟩ := hrep.calls hf
  · exact h n fuel hn hrep hf
  · obtain ⟨rn, hres, hnh, hrn⟩ := hb.load known _ hp hi hl hk (key.take pos)
    obtain ⟨n', b, hget, hrep'⟩ := h rn fuel hnh hrn hm
    exact ⟨n', true, by rw [Trie.tryGet]; simp only [hres, hget], hrep'⟩

/-- **`tryGet` is `lookup`.** -/
theorem tryGet_spec (hb : Backed H db K) : ∀ {t : Content} {known top : Bool} {n : Node}
    {key : Hex} (pos fuel : Nat), Rep H K known top n t → Part t → At t (key.drop pos) →
    need n (key.drop pos) ≤ fuel → Gets H K db known top fuel n key pos t := by
  intro t
  induction t with
  | nil =>
    intro known top n key pos fuel hrep hp _ hf
    refine gets_of_loaded hb hp (fun n fuel _ hrep _ => ?_) hrep hf
    obtain rfl := hrep.nil_right
    exact ⟨.nil, false, by simp only [Trie.tryGet, lookup_nil], .nil⟩
  | value v =>
    intro known top n key pos fuel hrep hp hat hf
    refine gets_of_loaded hb hp (fun n fuel _ hrep _ => ?_) hrep hf
    obtain rfl := hrep.value_right
    have hkey : key.drop pos = [] := by
      rcases hat with ⟨ht, _⟩ | ⟨hk, _⟩
      · cases ht
      · exact hk
    exact ⟨.value v, false, by simp only [Trie.tryGet, hkey, lookup_value_nil], .value v⟩
  | short k c ih =>
    intro known top n key pos fuel hrep hp hat hf
    refine gets_of_loaded hb hp (fun n fuel hnh hrep hf => ?_) hrep hf
    obtain ⟨ht, hw⟩ := hat.word_of_isInner trivial
    have hm := (isInner_iff_minimal hp).mp trivial
    cases hrep with
    | hash => cases hnh
    | @short _ _ _ n _ fl hrep hfl =>
      by_cases hk : k <+: key.drop pos
      · obtain ⟨r, hr⟩ := hk
        have hdrop : key.drop (pos + k.length) = r := by
          rw [← List.drop_drop, ← hr, List.drop_left]
        have hcond : ¬ (key.length - pos < k.length ∨ k ≠ (key.drop pos).take k.length) := by
          rw [← List.length_drop, ← hr]
          exact not_mismatch k r
        have hlen : 1 ≤ k.length := List.length_pos_iff.mpr ht.label_ne_nil
        obtain ⟨n', b, hget, hrep'⟩ := ih (pos + k.length) fuel hrep
          (part_child hm) (hdrop ▸ At.child ht (hr ▸ hw)) (by
            rw [hdrop]
            refine need_le hf ?_
            rw [← hr, List.length_append]
            omega)
        rw [hdrop] at hget
        have hlook : lookup (.short k c) (key.drop pos) = lookup c r := by
          rw [← hr, lookup_short_append]
        cases b with
        | true =>
          refine ⟨.short k n' fl, true, ?_, .short hrep' hfl⟩
          simp only [Trie.tryGet, if_neg hcond, hget, hlook]
        | false =>
          refine ⟨.short k n fl, false, ?_, .short hrep hfl⟩
          simp only [Trie.tryGet, if_neg hcond, hget, hlook]
      · have hcond : key.length - pos < k.length ∨ k ≠ (key.drop pos).take k.length := by
          rw [← List.length_drop]
          exact mismatch hk
        refine ⟨.short k n fl, false, ?_, .short hrep hfl⟩
        simp only [Trie.tryGet, if_pos hcond, lookup_short_of_not hk]
  | full cs ih =>
    intro known top n key pos fuel hrep hp hat hf
    refine gets_of_loaded hb hp (fun n fuel hnh hrep hf => ?_) hrep hf
    obtain ⟨ht, hw⟩ := hat.word_of_isInner trivial
    have hm := (isInner_iff_minimal hp).mp trivial
    cases hrep with
    | hash => cases hnh
    | @full _ _ ns _ fl hrep hfl =>
      cases hd : key.drop pos with
      | nil =>
        rw [hd] at hw
        cases hw
      | cons x r =>
        have hx : key[pos]? = some x := by rw [← List.head?_drop, hd]; rfl
        have hdrop : key.drop (pos + 1) = r := by rw [← List.drop_drop, hd]; rfl
        obtain ⟨n', b, hget, hrep'⟩ := ih x (pos + 1) fuel (hrep x)
          (part_arm hm x) (hdrop ▸ At.arm ht (hd ▸ hw)) (by
            rw [hdrop]
            refine need_le hf ?_
            rw [hd, List.length_cons]
            omega)
        rw [hdrop] at hget
        cases b with
        | true =>
          refine ⟨.full (Function.update ns x n') fl, true, ?_, .full (fun i => ?_) hfl⟩
          · simp only [Trie.tryGet, hx, hget, hd, lookup_full_cons]
          · by_cases hi : i = x
            · subst hi
              rw [Function.update_self]
              exact hrep'
            · rw [Function.update_of_ne hi]
              exact hrep i
        | false =>
          refine ⟨.full ns fl, false, ?_, .full hrep hfl⟩
          simp only [Trie.tryGet, hx, hget, hd, lookup_full_cons]

/-! ## §3 — Insertion -/

/-- No hash node is met on the way that the key takes from `n`. -/
def Open : Node → Hex → Prop
  | .nil, _ => True
  | .value _, _ => True
  | .hash _, _ => False
  | .short k n _, key => k <+: key → Open n (key.drop k.length)
  | .full _ _, [] => True
  | .full ns _, x :: r => Open (ns x) r

/-- **`HashAt n q`** — there is a hash node at the end of the path `q`. -/
def HashAt : Node → Hex → Prop
  | .nil, _ => False
  | .value _, _ => False
  | .hash _, q => q = []
  | .short k n _, q => ∃ r, q = k ++ r ∧ HashAt n r
  | .full ns _, q => ∃ x r, q = x :: r ∧ HashAt (ns x) r

/-- What makes an insertion possible: everything can be loaded, or nothing has to be. -/
def Access (H : Bytes → Hash) (db : Database) (K : Content → Prop) (n : Node) (t : Content)
    (key : Hex) : Prop := Open n key ∨ (Backed H db K ∧ Part t)

theorem Access.child
    (h : Access H db K (.short k n fl) (.short k c) (k ++ r)) : Access H db K n c r := by
  rcases h with h | ⟨hb, hp⟩
  · have ho := h (prefix_append k r)
    rw [drop_left] at ho
    exact .inl ho
  · exact .inr ⟨hb, part_child ((isInner_iff_minimal hp).mp trivial)⟩

theorem Access.arm
    (h : Access H db K (.full ns fl) (.full cs) (x :: r)) : Access H db K (ns x) (cs x) r := by
  rcases h with h | ⟨hb, hp⟩
  · exact .inl h
  · exact .inr ⟨hb, part_arm ((isInner_iff_minimal hp).mp trivial) x⟩

/-- What the specification says about an insertion. Along a path without hash nodes none is
loaded, and none is made. -/
def Inserts (H : Bytes → Hash) (K : Content → Prop) (db : Database) (top : Bool) (fuel : Nat)
    (n : Node) (path key : Hex) (v : Bytes) (t : Content) : Prop :=
  ∃ dirty n', Trie.insert db fuel n path key (.value v) = .ok (dirty, n') ∧
    Rep H K false top n' (insert v t key) ∧ (dirty = false → insert v t key = t) ∧
      (Open n key → ∀ q, HashAt n' q → HashAt n q)

/-- A node below a label, if there is one. -/
def attachNode (k : Hex) (n : Node) : Node :=
  match k with
  | [] => n
  | x :: r => .short (x :: r) n newFlag

theorem rep_attachNode (h : Rep H K known false n c) (hk : k = [] → top = false) :
    Rep H K false top (attachNode k n) (attach k c) := by
  cases k with
  | nil =>
    rw [hk rfl]
    exact h.forget
  | cons x r => exact .short h.forget (flagOK_newFlag top _)

theorem hashAt_attachNode (h : HashAt (attachNode k n) q) : ∃ r, q = k ++ r ∧ HashAt n r := by
  cases k with
  | nil => exact ⟨q, rfl, h⟩
  | cons x k => exact h

/-- Inserting into nil makes a short node, unless the key is used up. -/
theorem insert_into_nil (fuel : Nat) (path key : Hex) (n : Node) :
    Trie.insert db (fuel + 1) .nil path key n = .ok (true, attachNode key n) := by
  cases key with
  | nil => cases n <;> rfl
  | cons x r => rfl

/-- It is enough to look at loaded nodes. -/
theorem inserts_of_loaded
    (h : ∀ n fuel, n.isHash = false → Rep H K known top n t → Access H db K n t key →
      2 * key.length ≤ fuel → Inserts H K db top (fuel + 1) n path key v t)
    (hrep : Rep H K known top n t) (hacc : Access H db K n t key) (hat : At t key)
    (hf : need n key ≤ fuel) : Inserts H K db top fuel n path key v t := by
  obtain ⟨fuel, rfl, hf, hn⟩ | ⟨fuel, rfl, hm, rfl, hi, hl, hk⟩ := hrep.calls hf
  · exact h n fuel hn hrep hacc hf
  obtain ⟨hb, hp⟩ := hacc.resolve_left id
  obtain ⟨rn, hres, hnh, hrn⟩ := hb.load known _ hp hi hl hk path
  obtain ⟨dirty, n', hins, hrep', hsame, _⟩ := h rn fuel hnh hrn (.inr ⟨hb, hp⟩) hm
  obtain ⟨x, r, rfl⟩ := exists_cons_of_ne_nil (hat.word_of_isInner hi).2.ne_nil
  cases dirty with
  | true =>
    exact ⟨true, n', by rw [Trie.insert]; simp only [hres, hins], hrep', hsame, nofun⟩
  | false =>
    refine ⟨false, rn, by rw [Trie.insert]; simp only [hres, hins], ?_, hsame, nofun⟩
    rw [hsame rfl]
    exact hrn.forget

/-- The branch that a short node becomes where the key leaves its label. -/
theorem insert_fork (hab : a ≠ b) (hrep : Rep H K known false n c) (fuel : Nat) :
    Inserts H K db top (fuel + 2) (.short (p ++ a :: k) n fl) path (p ++ b :: r) v
      (.short (p ++ a :: k) c) := by
  have hml : prefixLen (p ++ b :: r) (p ++ a :: k) = p.length :=
    prefixLen_append_fork p k r (Ne.symm hab)
  have hne : ¬ p.length = (p ++ a :: k).length := by simp
  have hbranch : Rep H K false (top && p.isEmpty)
      (.full (update (update (fun _ => .nil) a (attachNode k n)) b
        (attachNode r (.value v))) newFlag)
      (.full (pair a (attach k c) b (attach r (.value v)))) := by
    refine .full (fun i => ?_) (flagOK_newFlag _ _)
    by_cases hib : i = b
    · subst hib
      rw [update_self, pair_right]
      exact rep_attachNode (.value v : Rep H K false false _ _) fun _ => rfl
    rw [update_of_ne hib]
    by_cases hia : i = a
    · subst hia
      rw [update_self, pair_left hab]
      exact rep_attachNode hrep fun _ => rfl
    · rw [update_of_ne hia, pair_other hia hib]
      exact .nil
  obtain ⟨x, s, hxs⟩ := exists_cons_of_ne_nil (append_ne_nil_of_right_ne_nil p
    (cons_ne_nil b r))
  refine ⟨true, attachNode p (.full (update (update (fun _ => .nil) a
    (attachNode k n)) b (attachNode r (.value v))) newFlag), ?_, ?_,
    fun h => absurd h (by simp), fun _ q hq => ?_⟩
  · rw [hxs, Trie.insert]
    simp only [← hxs, hml, if_neg hne, drop_left, insert_into_nil, take_left]
    cases p with
    | nil | cons y p => rfl
  · rw [insert_short_fork v hab]
    cases p with
    | nil => simpa [attachNode] using hbranch
    | cons y p => exact rep_attachNode (by simpa using hbranch) (by simp)
  · -- the old subtree is found where it was, and the new leaf has no hash node
    obtain ⟨_, rfl, i, s', rfl, hs'⟩ := hashAt_attachNode hq
    by_cases hib : i = b
    · subst hib
      rw [update_self] at hs'
      obtain ⟨_, _, hv⟩ := hashAt_attachNode hs'
      cases hv
    rw [update_of_ne hib] at hs'
    by_cases hia : i = a
    · subst hia
      rw [update_self] at hs'
      obtain ⟨r', rfl, hr'⟩ := hashAt_attachNode hs'
      exact ⟨r', by rw [append_assoc, cons_append], hr'⟩
    · rw [update_of_ne hia] at hs'
      cases hs'

/-- A key that runs through the label of a short node goes on below it. -/
theorem insert_through (v : Bytes) (hne : k ++ r ≠ []) :
    Trie.insert db (fuel + 1) (.short k n fl) path (k ++ r) (.value v) =
      match Trie.insert db fuel n (path ++ k) r (.value v) with
      | .error e => .error e
      | .ok (false, _) => .ok (false, .short k n fl)
      | .ok (true, nn) => .ok (true, .short k nn newFlag) := by
  obtain ⟨x, s, hxs⟩ := exists_cons_of_ne_nil hne
  rw [hxs, Trie.insert]
  simp only [← hxs, prefixLen_append_self, if_true, take_left, drop_left] <;> rfl

/-- **`Trie.insert` is `insert`.** -/
theorem insert_spec (v : Bytes) : ∀ {t : Content} {known top : Bool} {n : Node} (path : Hex)
    {key : Hex} (fuel : Nat), Rep H K known top n t → Access H db K n t key → At t key →
    need n key ≤ fuel → Inserts H K db top fuel n path key v t := by
  intro t
  induction t with
  | nil =>
    intro known top n path key fuel hrep hacc hat hf
    refine inserts_of_loaded (fun n fuel _ hrep _ _ => ?_) hrep hacc hat hf
    obtain rfl := hrep.nil_right
    refine ⟨true, attachNode key (.value v), insert_into_nil fuel path key _, ?_,
      fun h => absurd h (by simp), fun _ q hq => ?_⟩
    · cases key with
      | nil => exact .value v
      | cons x r => exact .short (.value v) (flagOK_newFlag top _)
    · obtain ⟨_, _, hv⟩ := hashAt_attachNode hq
      exact hv
  | value w =>
    intro known top n path key fuel hrep hacc hat hf
    refine inserts_of_loaded (fun n fuel _ hrep _ _ => ?_) hrep hacc hat hf
    obtain rfl := hrep.value_right
    have hkey : key = [] := by
      rcases hat with ⟨ht, _⟩ | ⟨hk, _⟩
      · cases ht
      · exact hk
    subst hkey
    refine ⟨decide (w ≠ v), .value v, rfl, .value v, fun h => ?_, fun _ q hq => hq⟩
    rw [insert_key_nil, not_not.mp (of_decide_eq_false h)]
  | short k c ih =>
    intro known top n path key fuel hrep hacc hat hf
    refine inserts_of_loaded (fun n fuel hnh hrep hacc hf => ?_) hrep hacc hat hf
    obtain ⟨ht, hw⟩ := hat.word_of_isInner trivial
    cases hrep with
    | hash => cases hnh
    | @short _ _ _ n _ fl hchild hfl =>
      rcases word_label_cases hw ht with ⟨r, rfl⟩ | ⟨p, a, b, k', r, hab, rfl, rfl, _⟩
      · have hlen : 1 ≤ k.length := length_pos_iff.mpr ht.label_ne_nil
        obtain ⟨dirty, n', hins, hrep', hsame, hno⟩ := ih (path ++ k) fuel
          hchild hacc.child (At.child ht hw) (need_le hf (by rw [length_append]; omega))
        rw [Inserts, insert_through v hw.ne_nil, hins, insert_short_append v hw.ne_nil]
        cases dirty with
        | true =>
          refine ⟨true, _, rfl, .short hrep' (flagOK_newFlag top _), fun h => absurd h (by simp),
            fun ho q hq => ?_⟩
          obtain ⟨s', rfl, hs'⟩ := hq
          have ho' := ho (prefix_append k r)
          rw [drop_left] at ho'
          exact ⟨s', rfl, hno ho' s' hs'⟩
        | false =>
          rw [hsame rfl]
          exact ⟨false, _, rfl, (Rep.short hchild hfl).forget, fun _ => rfl, fun _ _ hq => hq⟩
      · obtain ⟨fuel, rfl⟩ := Nat.exists_eq_add_of_le' (le_trans (by simp; omega) hf : 1 ≤ fuel)
        exact insert_fork hab hchild fuel
  | full cs ih =>
    intro known top n path key fuel hrep hacc hat hf
    refine inserts_of_loaded (fun n fuel hnh hrep hacc hf => ?_) hrep hacc hat hf
    obtain ⟨ht, hw⟩ := hat.word_of_isInner trivial
    cases hrep with
    | hash => cases hnh
    | @full _ _ ns _ fl hrep hfl =>
      obtain ⟨x, r, rfl⟩ := exists_cons_of_ne_nil hw.ne_nil
      obtain ⟨dirty, n', hins, hrep', hsame, hno⟩ := ih x (path ++ [x]) fuel (hrep x)
        hacc.arm (At.arm ht hw) (need_le hf (by simp))
      rw [Inserts, Trie.insert]
      simp only [hins, insert_full_cons]
      cases dirty with
      | true =>
        refine ⟨true, _, rfl, .full (fun i => ?_) (flagOK_newFlag top _),
          fun h => absurd h (by simp), fun ho q hq => ?_⟩
        · by_cases hi : i = x
          · subst hi
            rw [update_self, update_self]
            exact hrep'
          · rw [update_of_ne hi, update_of_ne hi]
            exact (hrep i).forget
        · obtain ⟨i, s', rfl, hs'⟩ := hq
          by_cases hi : i = x
          · subst hi
            rw [update_self] at hs'
            exact ⟨i, s', rfl, hno ho s' hs'⟩
          · rw [update_of_ne hi] at hs'
            exact ⟨i, s', rfl, hs'⟩
      | false =>
        rw [hsame rfl, update_eq_self]
        exact ⟨false, _, rfl, (Rep.full hrep hfl).forget, fun _ => rfl, fun _ _ hq => hq⟩

/-! ## §4 — Deletion -/

/-- Once a child was found, the loop looks for a second one. -/
theorem onlyChild_some (ns : Fin 17 → Node) (p : Fin 17) : ∀ is : List (Fin 17),
    Trie.onlyChild ns is (some p) = if ∀ i ∈ is, (ns i).isNil = true then some p else none
  | [] => by simp [Trie.onlyChild]
  | i :: is => by
    rw [Trie.onlyChild]
    by_cases hi : (ns i).isNil = true
    · simp [hi, onlyChild_some ns p is]
    · simp [hi]

/-- The loop finds a child if it is the only one. -/
theorem onlyChild_none (ns : Fin 17 → Node) (p : Fin 17) : ∀ is : List (Fin 17), is.Nodup →
    (Trie.onlyChild ns is none = some p ↔
      p ∈ is ∧ (ns p).isNil = false ∧ ∀ i ∈ is, i ≠ p → (ns i).isNil = true)
  | [], _ => by simp [Trie.onlyChild]
  | i :: is, hnd => by
    rw [nodup_cons] at hnd
    rw [Trie.onlyChild]
    by_cases hi : (ns i).isNil = true
    · rw [if_pos hi, onlyChild_none ns p is hnd.2]
      constructor
      · rintro ⟨hp, hn, hall⟩
        refine ⟨mem_cons_of_mem _ hp, hn, fun j hj hjp => ?_⟩
        rcases mem_cons.mp hj with rfl | hj
        · exact hi
        · exact hall j hj hjp
      · rintro ⟨hp, hn, hall⟩
        rcases mem_cons.mp hp with rfl | hp
        · rw [hi] at hn
          cases hn
        · exact ⟨hp, hn, fun j hj => hall j (mem_cons_of_mem _ hj)⟩
    rw [if_neg hi, onlyChild_some]
    constructor
    · intro h
      split at h
      · rename_i hall
        obtain rfl := Option.some.inj h
        refine ⟨mem_cons_self, Bool.not_eq_true _ ▸ hi, fun j hj hji => ?_⟩
        exact hall j ((mem_cons.mp hj).resolve_left hji)
      · cases h
    · rintro ⟨hp, hn, hall⟩
      have hip : i = p := by
        by_contra hne
        exact hi (hall i mem_cons_self hne)
      subst hip
      rw [if_pos]
      intro j hj
      exact hall j (mem_cons_of_mem _ hj) fun h => hnd.1 (h ▸ hj)

/-- The loop finds the only arm of the branching that the node stands for. -/
theorem onlyChild_eq_some (hrep : ∀ i, Rep H K known false (ns i) (cs i)) {p : Fin 17} :
    Trie.onlyChild ns (finRange 17) none = some p ↔ OnlyArm cs p := by
  rw [onlyChild_none ns p _ (nodup_finRange 17), OnlyArm]
  have hnil : ∀ i, (ns i).isNil = true ↔ cs i = .nil := fun i => (hrep i).isNil_iff
  simp only [mem_finRange, true_and, hnil, forall_const, ← Bool.not_eq_true]

theorem onlyChild_eq_none (hrep : ∀ i, Rep H K known false (ns i) (cs i))
    (h : Trie.onlyChild ns (finRange 17) none = none) : collapse cs = .full cs := by
  rw [collapse, dif_neg]
  rintro ⟨p, hp⟩
  rw [(onlyChild_eq_some hrep).mpr hp] at h
  cases h

/-- What the specification says about a deletion. A node that changed is loaded. -/
def Deletes (H : Bytes → Hash) (K : Content → Prop) (db : Database) (top : Bool) (fuel : Nat)
    (n : Node) (path key : Hex) (t : Content) : Prop :=
  ∃ dirty n', Trie.delete db fuel n path key = .ok (dirty, n') ∧
    Rep H K false top n' (delete t key) ∧ (dirty = false → delete t key = t) ∧
    (dirty = true → n'.isHash = false)

/-- It is enough to look at loaded nodes. -/
theorem deletes_of_loaded (hb : Backed H db K) (hp : Part t)
    (h : ∀ n fuel, n.isHash = false → Rep H K known top n t → 2 * key.length ≤ fuel →
      Deletes H K db top (fuel + 1) n path key t) (hrep : Rep H K known top n t)
    (hf : need n key ≤ fuel) : Deletes H K db top fuel n path key t := by
  obtain ⟨fuel, rfl, hf, hn⟩ | ⟨fuel, rfl, hm, rfl, hi, hl, hk⟩ := hrep.calls hf
  · exact h n fuel hn hrep hf
  obtain ⟨rn, hres, hnh, hrn⟩ := hb.load known _ hp hi hl hk path
  obtain ⟨dirty, n', hdel, hrep', hsame, hload⟩ := h rn fuel hnh hrn hm
  cases dirty with
  | true => exact ⟨true, n', by rw [Trie.delete]; simp only [hres, hdel], hrep', hsame, hload⟩
  | false =>
    refine ⟨false, rn, by rw [Trie.delete]; simp only [hres, hdel], ?_, hsame, nofun⟩
    rw [hsame rfl]
    exact hrn.forget

/-- A label in front of a node: two short nodes in a row become one. -/
def mergeNode (k : Hex) (n : Node) : Node :=
  match n with
  | .short k' n' _ => .short (k ++ k') n' newFlag
  | n => .short k n newFlag

theorem isHash_mergeNode (k : Hex) (n : Node) : (mergeNode k n).isHash = false := by
  cases n <;> rfl

/-- Merging acts on the tree, provided that the node shows whether it is a short node. -/
theorem rep_mergeNode (h : Rep H K known false n c)
    (hn : n.isHash = false) : Rep H K false top (mergeNode k n) (merge k c) := by
  cases h with
  | nil => exact .short .nil (flagOK_newFlag top _)
  | value v => exact .short (.value v) (flagOK_newFlag top _)
  | short hrep hfl => exact .short hrep.forget (flagOK_newFlag top _)
  | full hrep hfl => exact .short (Rep.full hrep hfl).forget (flagOK_newFlag top _)
  | hash => exact nomatch hn

/-- What `delete` makes of the only child `n` of a full node, after loading it as `rn`: only the
reference is kept if the child is not a short node. -/
def reduceNode (pos : Fin 17) (n rn : Node) : Node :=
  match rn with
  | .short ckey cval _ => .short (pos :: ckey) cval newFlag
  | _ => .short [pos] n newFlag

theorem isHash_reduceNode (pos : Fin 17) (n rn : Node) : (reduceNode pos n rn).isHash = false := by
  cases rn <;> rfl

theorem rep_reduceNode {pos : Fin 17} (hn : Rep H K known false n c)
    (hrn : Rep H K known false rn c) (h : rn.isHash = false) :
    Rep H K false top (reduceNode pos n rn) (merge [pos] c) := by
  cases hrn with
  | nil | value v => exact .short hn.forget (flagOK_newFlag top _)
  | short hrep hfl => exact .short hrep.forget (flagOK_newFlag top _)
  | full hrep hfl => exact .short hn.forget (flagOK_newFlag top _)
  | hash => exact nomatch h

theorem resolve_spec (hb : Backed H db K) (hrep : Rep H K known false n t) (hp : Part t)
    (path : Hex) :
    ∃ rn, Trie.resolve db n path = .ok rn ∧ rn.isHash = false ∧ Rep H K known false rn t := by
  cases hrep with
  | nil => exact ⟨_, rfl, rfl, .nil⟩
  | value v => exact ⟨_, rfl, rfl, .value v⟩
  | short hrep hfl => exact ⟨_, rfl, rfl, .short hrep hfl⟩
  | full hrep hfl => exact ⟨_, rfl, rfl, .full hrep hfl⟩
  | hash hi hl hk => exact hb.load known _ hp hi hl hk path

/-- **`Trie.delete` at a short node**, in terms of the deletion below. -/
theorem delete_short_step (fuel : Nat) (hr : r ≠ []) :
    Trie.delete db (fuel + 1) (.short k n fl) path (k ++ r) =
      match Trie.delete db fuel n (path ++ k) r with
      | .error e => .error e
      | .ok (false, _) => .ok (false, .short k n fl)
      | .ok (true, child) => .ok (true, mergeNode k child) := by
  have h1 : ¬ k.length < k.length := lt_irrefl _
  have h2 : ¬ k.length = (k ++ r).length := by
    rw [length_append]
    have := length_pos_iff.mpr hr
    omega
  rw [Trie.delete]
  simp only [prefixLen_append_self, if_neg h1, if_neg h2, take_left, drop_left]
  cases Trie.delete db fuel n (path ++ k) r with
  | error e => rfl
  | ok res =>
    obtain ⟨dirty, child⟩ := res
    cases dirty with
    | false => rfl
    | true => cases child <;> rfl

/-- The part of `delete` after the child of a full node was changed. -/
def reduceFull (db : Database) (ns : Fin 17 → Node) (path : Hex) : Except Err (Bool × Node) :=
  match Trie.onlyChild ns (finRange 17) none with
  | none => .ok (true, .full ns newFlag)
  | some pos =>
    if pos ≠ 16 then
      match Trie.resolve db (ns pos) path with
      | .error e => .error e
      | .ok rn => .ok (true, reduceNode pos (ns pos) rn)
    else .ok (true, .short [pos] (ns pos) newFlag)

theorem delete_full_step (fuel : Nat) : Trie.delete db (fuel + 1) (.full ns fl) path (x :: r) =
      match Trie.delete db fuel (ns x) (path ++ [x]) r with
      | .error e => .error e
      | .ok (false, _) => .ok (false, .full ns fl)
      | .ok (true, nn) => reduceFull db (update ns x nn) path := by
  rw [Trie.delete]
  cases Trie.delete db fuel (ns x) (path ++ [x]) r with
  | error e => rfl
  | ok res =>
    obtain ⟨dirty, nn⟩ := res
    cases dirty with
    | false => rfl
    | true =>
      simp only [reduceFull]
      cases Trie.onlyChild (update ns x nn) (finRange 17) none with
      | none => rfl
      | some pos =>
        by_cases hpos : pos = 16
        · simp [hpos]
        simp only [ne_eq, hpos, not_false_eq_true, if_true]
        cases Trie.resolve db (update ns x nn pos) path with
        | error e => rfl
        | ok rn => cases rn <;> rfl

/-- **The collapse of a full node** that has one child left. -/
theorem reduceFull_spec (hb : Backed H db K) (top : Bool) (path : Hex)
    (hrep : ∀ i, Rep H K false false (ns i) (cs i))
    (hp : ∀ i, Part (cs i)) (hlast : cs terminator = .nil ∨ ∃ v, cs terminator = .value v) :
    ∃ n', reduceFull db ns path = .ok (true, n') ∧ Rep H K false top n' (collapse cs) ∧
      n'.isHash = false := by
  rw [reduceFull]
  cases hone : Trie.onlyChild ns (finRange 17) none with
  | none =>
    rw [onlyChild_eq_none hrep hone]
    exact ⟨_, rfl, .full (fun i => (hrep i).forget) (flagOK_newFlag top _), rfl⟩
  | some pos =>
    have harm := (onlyChild_eq_some hrep).mp hone
    rw [collapse_of_onlyArm harm]
    by_cases hpos : pos = 16
    · subst hpos
      obtain ⟨v, hv⟩ : ∃ v, cs 16 = .value v := hlast.resolve_left harm.1
      refine ⟨.short [16] (ns 16) newFlag, by simp, ?_, rfl⟩
      have hr := hrep 16
      rw [hv] at hr ⊢
      exact .short hr.forget (flagOK_newFlag top _)
    · obtain ⟨rn, hres, hnh, hrn⟩ := resolve_spec hb (hrep pos) (hp pos) path
      refine ⟨reduceNode pos (ns pos) rn, ?_, rep_reduceNode (hrep pos) hrn hnh,
        isHash_reduceNode _ _ _⟩
      simp only [ne_eq, hpos, not_false_eq_true, if_true, hres]

theorem part_delete (hp : Part t) (hat : At t key) : Part (delete t key) := by
  rcases hp with rfl | ⟨v, rfl⟩ | hm
  · exact .inl rfl
  · exact .inl rfl
  · exact (hm.delete (hat.word_of_isInner (isInner_of_minimal hm)).2).imp id .inr

/-- **`Trie.delete` is `delete`.** -/
theorem delete_spec (hb : Backed H db K) : ∀ {t : Content} {known top : Bool} {n : Node}
    (path : Hex) {key : Hex} (fuel : Nat), Rep H K known top n t → Part t → At t key →
    need n key ≤ fuel → Deletes H K db top fuel n path key t := by
  intro t
  induction t with
  | nil =>
    intro known top n path key fuel hrep hp _ hf
    refine deletes_of_loaded hb hp (fun n fuel _ hrep _ => ?_) hrep hf
    obtain rfl := hrep.nil_right
    exact ⟨false, .nil, rfl, .nil, fun _ => rfl, nofun⟩
  | value v =>
    intro known top n path key fuel hrep hp _ hf
    refine deletes_of_loaded hb hp (fun n fuel _ hrep _ => ?_) hrep hf
    obtain rfl := hrep.value_right
    exact ⟨true, .nil, rfl, .nil, fun h => absurd h (by simp), fun _ => rfl⟩
  | short k c ih =>
    intro known top n path key fuel hrep hp hat hf
    refine deletes_of_loaded hb hp (fun n fuel hnh hrep hf => ?_) hrep hf
    obtain ⟨ht, hw⟩ := hat.word_of_isInner trivial
    have hm := (isInner_iff_minimal hp).mp trivial
    cases hrep with
    | hash => cases hnh
    | @short _ _ _ n _ fl hchild hfl =>
      rcases word_label_cases hw ht with ⟨r, rfl⟩ | ⟨p, a, b, k', r, hab, rfl, rfl, _⟩
      · by_cases hr : r = []
        · subst hr
          refine ⟨true, .nil, ?_, ?_, fun h => absurd h (by simp), fun _ => rfl⟩
          · rw [Trie.delete]
            simp [prefixLen_self]
          · rw [append_nil, delete_short_self]
            exact .nil
        have hlen : 1 ≤ k.length := length_pos_iff.mpr ht.label_ne_nil
        obtain ⟨dirty, n', hdel, hrep', hsame, hload⟩ := ih (path ++ k) fuel hchild
          (part_child hm) (At.child ht hw) (need_le hf (by rw [length_append]; omega))
        rw [Deletes, delete_short_step fuel hr, hdel, delete_short_append hr]
        cases dirty with
        | true =>
          exact ⟨true, _, rfl, rep_mergeNode hrep' (hload rfl), fun h => absurd h (by simp),
            fun _ => isHash_mergeNode k n'⟩
        | false =>
          -- the word goes on, so the edge leads to a branching
          obtain ⟨cs, rfl⟩ : ∃ cs, c = .full cs := by
            rcases hm with ⟨hwk, _⟩ | ⟨_, _, hc, _⟩
            · exact absurd ((word_append_of_word hwk).mp hw) hr
            · exact hc
          rw [hsame rfl]
          exact ⟨false, _, rfl, (Rep.short hchild hfl).forget, fun _ => rfl, nofun⟩
      · have hml : prefixLen (p ++ b :: r) (p ++ a :: k') = p.length :=
          prefixLen_append_fork p k' r (Ne.symm hab)
        have hnp : ¬ p ++ a :: k' <+: p ++ b :: r := by
          rintro ⟨s, hs⟩
          rw [append_assoc, append_cancel_left_eq, cons_append, cons.injEq] at hs
          exact hab hs.1
        refine ⟨false, .short (p ++ a :: k') n fl, ?_, ?_, fun _ => delete_short_of_not hnp c,
          nofun⟩
        · rw [Trie.delete]
          simp [hml]
        · rw [delete_short_of_not hnp]
          exact (Rep.short hchild hfl).forget
  | full cs ih =>
    intro known top n path key fuel hrep hp hat hf
    refine deletes_of_loaded hb hp (fun n fuel hnh hrep hf => ?_) hrep hf
    obtain ⟨ht, hw⟩ := hat.word_of_isInner trivial
    have hm := (isInner_iff_minimal hp).mp trivial
    cases hrep with
    | hash => cases hnh
    | @full _ _ ns _ fl hchild hfl =>
      obtain ⟨x, r, rfl⟩ := exists_cons_of_ne_nil hw.ne_nil
      obtain ⟨dirty, n', hdel, hrep', hsame, hload⟩ := ih x (path ++ [x]) fuel (hchild x)
        (part_arm hm x) (At.arm ht hw) (need_le hf (by simp))
      rw [Deletes, delete_full_step, hdel, delete_full_cons]
      cases dirty with
      | true =>
        have hrep'' : ∀ i, Rep H K false false (update ns x n' i)
            (update cs x (delete (cs x) r) i) := by
          intro i
          by_cases hi : i = x
          · subst hi
            rw [update_self, update_self]
            exact hrep'
          · rw [update_of_ne hi, update_of_ne hi]
            exact (hchild i).forget
        have hpart : ∀ i, Part (update cs x (delete (cs x) r) i) := by
          intro i
          by_cases hi : i = x
          · subst hi
            rw [update_self]
            exact part_delete (part_arm hm i) (At.arm ht hw)
          · rw [update_of_ne hi]
            exact part_arm hm i
        have hlast : update cs x (delete (cs x) r) terminator = .nil ∨
            ∃ v, update cs x (delete (cs x) r) terminator = .value v := by
          by_cases hi : terminator = x
          · subst hi
            rcases hm.2.1 with hn | ⟨v, hv⟩
            · rw [hn]
              exact .inl rfl
            · rw [hv]
              exact .inl rfl
          · rw [update_of_ne hi]
            exact hm.2.1
        obtain ⟨n'', hred, hrn, hnh'⟩ := reduceFull_spec hb top path hrep'' hpart hlast
        exact ⟨true, n'', hred, hrn, fun h => absurd h (by simp), fun _ => hnh'⟩
      | false =>
        obtain ⟨i, j, hij, hi, hj⟩ := hm.2.2
        rw [hsame rfl, update_eq_self, collapse_of_two hij hi hj]
        exact ⟨false, _, rfl, (Rep.full hchild hfl).forget, fun _ => rfl, nofun⟩

end MxtChain.Trie
