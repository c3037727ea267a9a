/-
# MxtChain.Trie.Cut — cutting the inside of a range out of a loaded trie

`unset` removes one side of the path of a key together with its end, `unsetInternal` everything
between two keys. What they leave is described by the entries that stay and by the shape: a
skeleton of the tree, in which branches may be left with one child or none.
-/
import MxtChain.Trie.EdgePath

namespace MxtChain.Trie

open Lib.Patricia Function
open List hiding lookup

/-! ## §1 — What is left of a tree -/

variable {known top : Bool} {c u t : Content} {cs us : Fin 17 → Content}
  {k l left r right p key : Hex} {P Q : Hex → Prop} {n' n : Node} {fl : NodeFlag} {H : Bytes → Hash}
  {K : Content → Prop} {x i a b y : Fin 17} {ns ns' : Fin 17 → Node}

/-- **The node `n` of the tree `t` was cut**: the node `n'` stands for the skeleton `u`, which has
the entries of `t` with `P` and no others. -/
structure Cut (H : Bytes → Hash) (K : Content → Prop) (top : Bool) (n : Node) (t : Content)
    (n' : Node) (u : Content) (P : Hex → Prop) : Prop where
  rep : Rep H K false top n' u
  skel : Skel terminator t u
  formed : u = .nil ∨ Formed u
  lookup_iff : ∀ w v, lookup u w = some v ↔ lookup t w = some v ∧ P w
  hashAt : ∀ q, HashAt n' q → HashAt n q

theorem cut_all (h : Rep H K known top n t) (hc : Canon terminator t)
    (hs : Storable t) (hP : ∀ w v, lookup t w = some v → P w) : Cut H K top n t n t P where
  rep := h.forget
  skel := .refl hc
  formed := hc.imp id fun hm => formed_of_minimal hm hs
  lookup_iff w v := ⟨fun hw => ⟨hw, hP w v hw⟩, And.left⟩
  hashAt _ hq := hq

theorem cut_none (hP : ∀ w v, lookup t w = some v → ¬ P w) : Cut H K top n t .nil .nil P where
  rep := .nil
  skel := .nil t
  formed := .inl rfl
  lookup_iff w v := ⟨fun hw => absurd hw (by simp), fun hw => absurd hw.2 (hP w v hw.1)⟩
  hashAt _ hq := absurd hq id

theorem Cut.congr (h : Cut H K top n t n' u P) (hQ : ∀ w, Q w ↔ P w) : Cut H K top n t n' u Q :=
  { h with lookup_iff := fun w v => (h.lookup_iff w v).trans (and_congr_right' (hQ w).symm) }

theorem Cut.short (hk : terminator ∉ k) (h : Cut H K false n c n' u P) (hu : u ≠ .nil)
    (hQ : ∀ s, Q (k ++ s) ↔ P s) :
    Cut H K top (.short k n fl) (.short k c) (.short k n' dirtyFlag) (.short k u) Q where
  rep := .short h.rep (flagOK_newFlag top _)
  skel := .short hk h.skel
  formed := .inr (.inr ⟨hk, h.formed.resolve_left hu⟩)
  lookup_iff w v := by
    rw [lookup_short_eq_some, lookup_short_eq_some]
    constructor
    · rintro ⟨s, rfl, hs⟩
      have := (h.lookup_iff s v).mp hs
      exact ⟨⟨s, rfl, this.1⟩, (hQ s).mpr this.2⟩
    · rintro ⟨⟨s, rfl, hs⟩, hq⟩
      exact ⟨s, rfl, (h.lookup_iff s v).mpr ⟨hs, (hQ s).mp hq⟩⟩
  hashAt q := by
    rintro ⟨s, rfl, hs⟩
    exact ⟨s, rfl, h.hashAt s hs⟩

theorem Cut.full {P : Fin 17 → Hex → Prop} (hlast : cs terminator = .nil)
    (h : ∀ i, Cut H K false (ns i) (cs i) (ns' i) (us i) (P i)) (hQ : ∀ i s, Q (i :: s) ↔ P i s) :
    Cut H K top (.full ns fl) (.full cs) (.full ns' dirtyFlag) (.full us) Q where
  rep := .full (fun i => (h i).rep) (flagOK_newFlag top _)
  skel := .full (fun i _ => (h i).skel) hlast (hlast ▸ (h terminator).skel).of_nil
  formed := .inr ⟨fun i _ => (h i).formed, .inl (hlast ▸ (h terminator).skel).of_nil⟩
  lookup_iff w v := by
    cases w with
    | nil => simp
    | cons i s =>
      rw [lookup_full_cons, lookup_full_cons, hQ]
      exact (h i).lookup_iff s v
  hashAt q := by
    rintro ⟨i, s, rfl, hs⟩
    exact ⟨i, s, rfl, (h i).hashAt s hs⟩

/-! ## §2 — One side of a path -/

/-- What `unset` leaves: the words on the other side of the key. -/
def Spared (removeLeft : Bool) (key w : Hex) : Prop :=
  if removeLeft then Before key w else Before w key

theorem spared_append (rl : Bool) (p a b : Hex) : Spared rl (p ++ a) (p ++ b) ↔ Spared rl a b := by
  cases rl <;> simp [Spared]

theorem spared_cons_self (rl : Bool) (x : Fin 17) (a b : Hex) :
    Spared rl (x :: a) (x :: b) ↔ Spared rl a b :=
  spared_append rl [x] a b

theorem spared_cons_of_ne (rl : Bool) (h : i ≠ x) (a b : Hex) :
    Spared rl (x :: a) (i :: b) ↔ if rl then x < i else i < x := by
  cases rl <;> simp [Spared, h, h.symm]

theorem not_spared_self (rl : Bool) (w : Hex) : ¬ Spared rl w w := by
  cases rl <;> simpa [Spared] using Before.irrefl w

/-- **What the specification says about `unset`.** The slot of a branch is never cleared. -/
def Unsets (H : Bytes → Hash) (K : Content → Prop) (rl : Bool) (n : Node) (t : Content)
    (key : Hex) : Prop :=
  ∃ o u, unset rl n key = .ok o ∧ Cut H K false n t o.slot u (Spared rl key) ∧
    ∀ cs, t = .full cs → ∃ n', o = .keep n' ∧ u ≠ .nil

/-- Where the key leaves the label of a short node, all or nothing is cut off. -/
theorem unsets_fork (rl : Bool) (hab : a ≠ b)
    (hrep : Rep H K known false (.short (p ++ a :: k) n fl) (.short (p ++ a :: k) c))
    (hm : Minimal terminator (.short (p ++ a :: k) c)) (hs : Storable (.short (p ++ a :: k) c)) :
    Unsets H K rl (.short (p ++ a :: k) n fl) (.short (p ++ a :: k) c) (p ++ b :: r) := by
  have hnot : ¬ p ++ a :: k <+: p ++ b :: r := by
    rw [List.prefix_append_right_inj, List.cons_prefix_cons]
    exact fun h => hab h.1
  have hcond := mismatch hnot
  have hspared : ∀ w v, lookup (.short (p ++ a :: k) c) w = some v →
      (Spared rl (p ++ b :: r) w ↔ if rl then b < a else a < b) := by
    intro w v hw
    obtain ⟨s, rfl, _⟩ := lookup_short_eq_some.mp hw
    rw [List.append_assoc, spared_append, List.cons_append, spared_cons_of_ne rl hab]
  rw [Unsets, unset, if_pos hcond, bytesCompare_append, bytesCompare_cons_of_ne hab]
  by_cases hdrop : (if a < b then Ordering.lt else .gt) = (if rl = true then Ordering.lt else .gt)
  · rw [if_pos hdrop]
    refine ⟨.drop, .nil, rfl, cut_none fun w v hw => ?_, fun cs h => absurd h (by simp)⟩
    rcases lt_or_gt_of_ne hab with hlt | hgt <;> cases rl <;> grind
  rw [if_neg hdrop]
  refine ⟨.keep _, _, rfl, cut_all hrep hm.canon hs fun w v hw => ?_,
    fun cs h => absurd h (by simp)⟩
  rcases lt_or_gt_of_ne hab with hlt | hgt <;> cases rl <;> grind

/-- The arms of a branch whose keys all go on. -/
theorem canon_arm (hm : Minimal terminator (.full cs))
    (hlast : cs terminator = .nil) (i : Fin 17) : Canon terminator (cs i) := by
  by_cases hi : i = terminator
  · rw [hi, hlast]
    exact canon_nil _
  · exact hm.1 i hi

/-- **`unset` spares what is on the other side of the key**, and nothing else. -/
theorem unset_spec (rl : Bool) : ∀ {t : Content} {known : Bool} {n : Node} {key : Hex},
    Canon terminator t → Storable t → Uniform key.length t → Word terminator key →
      Rep H K known false n t → Open n key → Unsets H K rl n t key := by
  intro t
  induction t with
  | nil =>
    intro known n key hc hs hu hw hrep hopen
    obtain rfl := hrep.nil_right
    exact ⟨.keep .nil, .nil, rfl, cut_none fun w v h => absurd h (by simp),
      fun cs h => absurd h (by simp)⟩
  | value v => intro known n key hc; exact absurd (hc.resolve_left (by simp)) id
  | short k c ih =>
    intro known n key hc hs hu hw hrep hopen
    have hm : Minimal terminator (.short k c) := hc.resolve_left (by simp)
    have hrep' := hrep
    cases hrep with
    | hash => cases hopen
    | @short _ _ _ n _ fl hchild hfl =>
      rcases word_label_cases hw hm.typed with ⟨r, rfl⟩ | ⟨p, a, b, k', r, hab, rfl, rfl, _⟩
      · have hcond := not_mismatch k r
        rw [Unsets, unset, if_neg hcond]
        rcases hm with ⟨hk, v, rfl⟩ | ⟨_, hn, ⟨cs, rfl⟩, hm'⟩
        · -- the end of the path
          obtain rfl := hchild.value_right
          obtain rfl : r = [] := (word_append_of_word hk).mp hw
          refine ⟨.drop, .nil, rfl, cut_none fun w v hw' => ?_, fun cs h => absurd h (by simp)⟩
          obtain ⟨s, rfl, hs'⟩ := lookup_short_eq_some.mp hw'
          cases s with
          | nil => exact not_spared_self rl _
          | cons y s => cases hs'
        have ho := hopen (prefix_append k r)
        rw [drop_left] at ho
        rw [length_append] at hu
        obtain ⟨o, u, hres, hcut, hfull⟩ := ih hm'.canon hs.child hu.child
          ((word_append_of_notMem hn).mp hw) hchild ho
        obtain ⟨n', rfl, hne⟩ := hfull cs rfl
        have hval : n.isValue = false := by
          cases hchild with
          | hash | full _ _ => rfl
        refine ⟨.keep (.short k n' dirtyFlag), .short k u, ?_, ?_, fun cs h => absurd h (by simp)⟩
        · rw [hval, if_neg (by simp), drop_left, hres]
          rfl
        · exact hcut.short hn hne fun s => spared_append rl k r s
      · exact unsets_fork rl hab hrep' hm hs
  | full cs ih =>
    intro known n key hc hs hu hw hrep hopen
    have hm : Minimal terminator (.full cs) := hc.resolve_left (by simp)
    cases hrep with
    | hash => cases hopen
    | @full _ _ ns _ fl hchild hfl =>
      obtain ⟨x, r, rfl⟩ := exists_cons_of_ne_nil hw.ne_nil
      obtain ⟨hx, hr⟩ := hu.head_ne hm hw
      have hlast := hu.term_arm hm
      obtain ⟨o, ux, hres, hcut, _⟩ := ih x (hm.1 x hx) (hs.arm x)
        ((length_cons ▸ hu : Uniform (r.length + 1) (.full cs)).arm x) hr (hchild x) hopen
      rw [Unsets, unset]
      simp only [hres]
      have harm : ∀ i, ∃ u, Cut H K false (ns i) (cs i)
          (update (fun i => if rl = true then (if i < x then Node.nil else ns i)
            else (if x < i ∧ i < 16 then Node.nil else ns i)) x o.slot i) u
          fun s => Spared rl (x :: r) (i :: s) := by
        intro i
        by_cases hix : i = x
        · subst hix
          rw [update_self]
          exact ⟨ux, hcut.congr fun s => spared_cons_self rl i r s⟩
        rw [update_of_ne hix]
        have hcanon := canon_arm hm hlast i
        have hlast' : i = 16 → ∀ w v, lookup (cs i) w ≠ some v := by
          rintro rfl w v h
          rw [show cs 16 = .nil from hlast] at h
          cases h
        split_ifs with h1 h2 h3
        · refine ⟨.nil, cut_none fun w v _ => ?_⟩
          rw [spared_cons_of_ne rl hix, if_pos h1]
          exact not_lt.mpr (le_of_lt h2)
        · refine ⟨cs i, cut_all (hchild i) hcanon (hs.arm i) fun w v _ => ?_⟩
          rw [spared_cons_of_ne rl hix, if_pos h1]
          exact lt_of_le_of_ne (not_lt.mp h2) (Ne.symm hix)
        · refine ⟨.nil, cut_none fun w v _ => ?_⟩
          rw [spared_cons_of_ne rl hix, if_neg h1]
          exact not_lt.mpr (le_of_lt h3.1)
        · refine ⟨cs i, cut_all (hchild i) hcanon (hs.arm i) fun w v hw' => ?_⟩
          rw [spared_cons_of_ne rl hix, if_neg h1]
          have : i ≠ 16 := fun h => hlast' h w v hw'
          by_contra hcon
          exact h3 ⟨lt_of_le_of_ne (not_lt.mp hcon) (Ne.symm hix), by omega⟩
      choose us hus using harm
      exact ⟨_, .full us, rfl, Cut.full hlast hus fun _ _ => Iff.rfl,
        fun _ _ => ⟨_, rfl, by simp⟩⟩

/-! ## §3 — Between two paths -/

theorem label_cases (hw : Word terminator key) (ht : Typed terminator (.short k c)) :
    (bytesCompare (key.take k.length) k = .eq ∧ ∃ r, key = k ++ r) ∨
    (bytesCompare (key.take k.length) k = .lt ∧ ¬ k <+: key ∧ ∀ s, Before key (k ++ s)) ∨
    (bytesCompare (key.take k.length) k = .gt ∧ ¬ k <+: key ∧ ∀ s, Before (k ++ s) key) := by
  rcases word_label_cases hw ht with ⟨r, rfl⟩ | ⟨p, a, b, k', r, hab, rfl, rfl, _⟩
  · refine .inl ⟨?_, r, rfl⟩
    have := bytesCompare_append k [] []
    rwa [append_nil, take_left] at *
  have hnot : ¬ p ++ a :: k' <+: p ++ b :: r := by
    rw [prefix_append_right_inj, cons_prefix_cons]
    exact fun h => hab h.1
  have htake : (p ++ b :: r).take (p ++ a :: k').length = p ++ b :: r.take k'.length := by
    rw [length_append, take_length_add_append, length_cons, take_succ_cons]
  rw [htake, bytesCompare_append, bytesCompare_cons_of_ne hab.symm]
  rcases lt_or_gt_of_ne hab with hlt | hgt
  · refine .inr (.inr ⟨if_neg (not_lt.mpr (le_of_lt hlt)), hnot, fun s => ?_⟩)
    rw [append_assoc, cons_append]
    exact before_fork hlt p _ _
  · refine .inr (.inl ⟨if_pos hgt, hnot, fun s => ?_⟩)
    rw [append_assoc, cons_append]
    exact before_fork hgt p _ _

/-- **Where `unsetInternal` clears the slot of its own node**: at a leaf, and at a short node whose
label neither key runs through. -/
def Severed : Content → Hex → Hex → Prop
  | .short k c, left, right => (∃ v, c = .value v) ∨ (¬ k <+: left ∧ ¬ k <+: right)
  | _, _, _ => False

/-- **What the specification says about `unsetInternal`.** -/
def Clears (H : Bytes → Hash) (K : Content → Prop) (top : Bool) (n : Node) (t : Content)
    (left right : Hex) : Prop :=
  (∃ o u, unsetInternal n left right = .ok o ∧
    Cut H K top n t o.slot u (fun w => ¬ Between left right w) ∧
    (Severed t left right → o = .drop) ∧
    (¬ Severed t left right → ∃ n', o = .keep n' ∧ u ≠ .nil)) ∨
  unsetInternal n left right = .error (.failure "empty range") ∧
    ∀ w v, lookup t w = some v → ¬ Between left right w

theorem clears_drop (hres : unsetInternal n left right = .ok .drop)
    (hsev : Severed (.short k c) left right)
    (hb : ∀ s v, lookup c s = some v → Between left right (k ++ s)) :
    Clears H K top n (.short k c) left right := by
  refine .inl ⟨.drop, .nil, hres, cut_none fun w v hw => ?_, fun _ => rfl,
    fun h => absurd hsev h⟩
  obtain ⟨s, rfl, hs⟩ := lookup_short_eq_some.mp hw
  exact not_not.mpr (hb s v hs)

theorem clears_short
    (hres : unsetInternal (.short k n fl) left right = .ok (.keep (.short k n' dirtyFlag)))
    (hpre : k <+: left ∨ k <+: right) (hk : terminator ∉ k)
    (hcut : Cut H K false n (.full cs) n' u P) (hu : u ≠ .nil)
    (hQ : ∀ s, ¬ Between left right (k ++ s) ↔ P s) :
    Clears H K top (.short k n fl) (.short k (.full cs)) left right := by
  refine .inl ⟨_, .short k u, hres, hcut.short hk hu hQ, ?_, fun _ => ⟨_, rfl, by simp⟩⟩
  rintro (⟨v, hv⟩ | ⟨hl, hr⟩)
  · cases hv
  · exact absurd hpre (not_or.mpr ⟨hl, hr⟩)

theorem isValue_of_rep_full (h : Rep H K known top n (.full cs)) : n.isValue = false := by
  cases h with
  | hash | full _ _ => rfl

/-- Two keys that run through the label of a short node go on below it. -/
theorem unsetInternal_through (n : Node) (fl : NodeFlag)
    (hl : bytesCompare ((k ++ l).take k.length) k = .eq)
    (hr : bytesCompare ((k ++ r).take k.length) k = .eq) :
    unsetInternal (.short k n fl) (k ++ l) (k ++ r) =
      match unsetInternal n l r with
      | .error e => .error e
      | .ok o =>
        match o.only with
        | .error e => .error e
        | .ok val => .ok (.keep (.short k val dirtyFlag)) := by
  rw [unsetInternal]
  simp only [hl, hr, and_self, if_true, drop_left] <;> rfl

/-- At a short node: the two keys compare with its label in nine ways, four of which are excluded
by their order. -/
theorem clears_at_short (hm : Minimal terminator (.short k c))
    (hs : Storable (.short k c)) (hu : Uniform left.length (.short k c))
    (hlen : left.length = right.length) (hl : Word terminator left) (hr : Word terminator right)
    (hlr : Before left right) (hchild : Rep H K known false n c) (hol : Open (.short k n fl) left)
    (hor : Open (.short k n fl) right) (ih : ∀ l r, left = k ++ l → right = k ++ r → Minimal terminator c →
      Clears H K false n c l r) : Clears H K top (.short k n fl) (.short k c) left right := by
  rcases label_cases hl hm.typed with ⟨hcl, l, rfl⟩ | ⟨hcl, hnl, hbl⟩ | ⟨hcl, hnl, hbl⟩ <;>
    rcases label_cases hr hm.typed with ⟨hcr, r, rfl⟩ | ⟨hcr, hnr, hbr⟩ | ⟨hcr, hnr, hbr⟩
  · -- both keys run through the label
    rw [before_append_left] at hlr
    rcases hm with ⟨hk, v, rfl⟩ | ⟨_, hn, ⟨cs, rfl⟩, hm'⟩
    · rw [word_append_of_word hk] at hl
      rw [hl] at hlr
      exact absurd hlr (not_before_nil_left r)
    have hstep := unsetInternal_through n fl hcl hcr
    rcases ih l r rfl rfl hm' with ⟨o, u, hres, hcut, _, hkeep⟩ | ⟨hres, hnone⟩
    · obtain ⟨n', rfl, hne⟩ := hkeep id
      refine clears_short (by rw [hstep, hres]; rfl) (.inl (prefix_append k l)) hn hcut hne
        fun s => ?_
      rw [Between, Between, before_append_left, before_append_left]
    · refine .inr ⟨by rw [hstep, hres], fun w v hw => ?_⟩
      obtain ⟨s, rfl, hs'⟩ := lookup_short_eq_some.mp hw
      rw [Between, before_append_left, before_append_left]
      exact hnone s v hs'
  · exact absurd (hbr l) hlr.asymm
  · -- only the left key runs through the label
    rcases hm with ⟨hk, v, rfl⟩ | ⟨_, hn, ⟨cs, rfl⟩, hm'⟩
    · obtain rfl := hchild.value_right
      obtain rfl : l = [] := (word_append_of_word hk).mp hl
      refine clears_drop ?_ (.inl ⟨v, rfl⟩) fun s w hs' => ?_
      · rw [unsetInternal]
        simp only [hcl, hcr]
        rfl
      · cases s with
        | nil => exact ⟨Before.irrefl _, (hbr []).asymm⟩
        | cons y s => cases hs'
    have ho := hol (prefix_append k l)
    rw [drop_left] at ho
    rw [length_append] at hu
    obtain ⟨o, u, hres, hcut, hfull⟩ := unset_spec false hm'.canon hs.child hu.child
      ((word_append_of_notMem hn).mp hl) hchild ho
    obtain ⟨n', rfl, hne⟩ := hfull cs rfl
    refine clears_short ?_ (.inl (prefix_append k l)) hn hcut hne fun s => ?_
    · rw [unsetInternal]
      simp only [hcl, hcr, isValue_of_rep_full hchild, drop_left]
      simp [hres, Outcome.only, Outcome.slot]
    · rw [Between, before_append_left, not_and, not_not]
      exact ⟨fun h => by_contra fun h' => (hbr s).asymm (h h'), fun h h' => absurd h h'⟩
  · -- only the right key runs through the label
    rcases hm with ⟨hk, v, rfl⟩ | ⟨_, hn, ⟨cs, rfl⟩, hm'⟩
    · obtain rfl := hchild.value_right
      obtain rfl : r = [] := (word_append_of_word hk).mp hr
      refine clears_drop ?_ (.inl ⟨v, rfl⟩) fun s w hs' => ?_
      · rw [unsetInternal]
        simp only [hcl, hcr]
        rfl
      · cases s with
        | nil => exact ⟨(hbl []).asymm, Before.irrefl _⟩
        | cons y s => cases hs'
    have ho := hor (prefix_append k r)
    rw [drop_left] at ho
    rw [hlen, length_append] at hu
    obtain ⟨o, u, hres, hcut, hfull⟩ := unset_spec true hm'.canon hs.child hu.child
      ((word_append_of_notMem hn).mp hr) hchild ho
    obtain ⟨n', rfl, hne⟩ := hfull cs rfl
    refine clears_short ?_ (.inr (prefix_append k r)) hn hcut hne fun s => ?_
    · rw [unsetInternal]
      simp only [hcl, hcr, isValue_of_rep_full hchild, drop_left]
      simp [hres, Outcome.only, Outcome.slot]
    · rw [Between, before_append_left, not_and, not_not]
      exact ⟨fun h => h (hbl s).asymm, fun h _ => h⟩
  · -- both keys are before the label
    refine .inr ⟨?_, fun w v hw => ?_⟩
    · rw [unsetInternal]
      simp [hcl, hcr]
    · obtain ⟨s, rfl, _⟩ := lookup_short_eq_some.mp hw
      exact fun h => h.2 (hbr s)
  · -- the label is between the keys
    refine clears_drop ?_ (.inr ⟨hnl, hnr⟩) fun s v _ => ⟨(hbl s).asymm, (hbr s).asymm⟩
    rw [unsetInternal]
    simp [hcl, hcr]
  · exact absurd (hbl r) hlr.asymm
  · exact absurd ((hbr []).trans (hbl [])) hlr.asymm
  · -- both keys are behind the label
    refine .inr ⟨?_, fun w v hw => ?_⟩
    · rw [unsetInternal]
      simp [hcl, hcr]
    · obtain ⟨s, rfl, _⟩ := lookup_short_eq_some.mp hw
      exact fun h => h.1 (hbl s)

/-- Children on loaded paths are not compared as slices. -/
theorem differ_eq (y : Fin 17) (hrep : Rep H K known false (ns x) (cs x))
    (hc : Canon terminator (cs x)) (ho : Open (ns x) l) : differ ns x y = .ok (decide (x ≠ y)) := by
  rw [differ]
  cases hn : ns x with
  | nil | short k n fl | full ns fl => rfl
  | hash h =>
    rw [hn] at ho
    cases ho
  | value v =>
    rw [hn] at hrep
    generalize cs x = t at hrep hc
    cases hrep
    exact absurd (hc.resolve_left (by simp)) id

/-- At a branch where the keys part: the children between them go, and one side of each path. -/
theorem clears_at_fork (hm : Minimal terminator (.full cs))
    (hs : Storable (.full cs)) (hu : Uniform (l.length + 1) (.full cs))
    (hlen : l.length = r.length) (hl : Word terminator l) (hr : Word terminator r) (hxy : x < y)
    (hchild : ∀ i, Rep H K known false (ns i) (cs i)) (hol : Open (ns x) l) (hor : Open (ns y) r) :
    Clears H K top (.full ns fl) (.full cs) (x :: l) (y :: r) := by
  have hlast := hu.term_arm hm
  have hcanon := canon_arm hm hlast
  obtain ⟨ox, ux, hresx, hcutx, _⟩ := unset_spec false (hcanon x) (hs.arm x) (hu.arm x) hl
    (hchild x) hol
  obtain ⟨oy, uy, hresy, hcuty, _⟩ := unset_spec true (hcanon y) (hs.arm y) (hlen ▸ hu.arm y) hr
    (hchild y) hor
  have hdiff : (if (ns x).isNil = true ∨ (ns y).isNil = true then .ok true else differ ns x y) =
      (.ok true : Except Err Bool) := by
    rw [differ_eq y (hchild x) (hcanon x) hol, decide_eq_true (ne_of_lt hxy), ite_self]
  have harm : ∀ i, ∃ u, Cut H K false (ns i) (cs i)
      (update (update (fun i => if x < i ∧ i < y then .nil else ns i) x ox.slot)
        y oy.slot i) u fun s => ¬ Between (x :: l) (y :: r) (i :: s) := by
    intro i
    by_cases hiy : i = y
    · subst hiy
      rw [update_self]
      refine ⟨uy, hcuty.congr fun s => ?_⟩
      simp [Between, Spared, not_lt.mpr (le_of_lt hxy), ne_of_gt hxy]
    rw [update_of_ne hiy]
    by_cases hix : i = x
    · subst hix
      rw [update_self]
      refine ⟨ux, hcutx.congr fun s => ?_⟩
      simp [Between, Spared, not_lt.mpr (le_of_lt hxy), ne_of_gt hxy]
    rw [update_of_ne hix]
    split_ifs with hbetween
    · refine ⟨.nil, cut_none fun w v _ => ?_⟩
      simp [Between, not_lt.mpr (le_of_lt hbetween.1), not_lt.mpr (le_of_lt hbetween.2), hix,
        Ne.symm hiy]
    · refine ⟨cs i, cut_all (hchild i) (hcanon i) (hs.arm i) fun w v _ => ?_⟩
      rcases lt_or_gt_of_ne hix with hlt | hgt
      · simp [Between, hlt]
      · have : y < i := lt_of_le_of_ne (not_lt.mp fun h => hbetween ⟨hgt, h⟩) (Ne.symm hiy)
        simp [Between, this]
  choose us hus using harm
  refine .inl ⟨_, .full us, ?_, Cut.full hlast hus fun _ _ => Iff.rfl, fun h => absurd h id,
    fun _ => ⟨_, rfl, by simp⟩⟩
  rw [unsetInternal]
  simp only [hdiff, lt_irrefl, false_and, and_false, if_false, hresx,
    update_of_ne (ne_of_gt hxy), hresy]

/-- At a branch where both keys take the same way. -/
theorem clears_at_same (hm : Minimal terminator (.full cs)) (hs : Storable (.full cs))
    (hlast : cs terminator = .nil) (hx : x ≠ terminator)
    (hchild : ∀ i, Rep H K known false (ns i) (cs i)) (hol : Open (ns x) l)
    (ih : Minimal terminator (cs x) → Clears H K false (ns x) (cs x) l r) :
    Clears H K top (.full ns fl) (.full cs) (x :: l) (x :: r) := by
  have hcanon := canon_arm hm hlast
  have hspared : ∀ {i : Fin 17} (s : Hex), i ≠ x → ¬ Between (x :: l) (x :: r) (i :: s) := by
    intro i s hix
    rcases lt_or_gt_of_ne hix with h | h <;> simp [Between, h]
  rcases hm.1 x hx with hnil | hmx
  · -- there is nothing on the way of the keys
    have hn : ns x = .nil := (hnil ▸ hchild x : Rep H K known false (ns x) .nil).nil_right
    have hclear : (fun i => if x < i ∧ i < x then Node.nil else ns i) = ns := by
      funext i
      exact if_neg fun h => absurd (h.1.trans h.2) (lt_irrefl x)
    have hupd : update ns x .nil = ns := by rw [← hn, update_eq_self]
    refine .inl ⟨.keep (.full ns dirtyFlag), .full cs, ?_,
      Cut.full hlast (fun i => cut_all (hchild i) (hcanon i) (hs.arm i)
        fun w v hw => ?_) fun _ _ => Iff.rfl, fun h => absurd h id, fun _ => ⟨_, rfl, by simp⟩⟩
    · rw [unsetInternal]
      simp [hn, Node.isNil, hclear, unset, Outcome.slot, hupd]
    · refine hspared w ?_
      rintro rfl
      rw [hnil] at hw
      cases hw
  have hsame : (if (ns x).isNil = true ∨ (ns x).isNil = true then .ok true else differ ns x x) =
      (.ok false : Except Err Bool) := by
    have hnn : (ns x).isNil ≠ true := fun h => hmx.ne_nil ((hchild x).isNil_iff.mp h)
    rw [if_neg (by simpa using hnn), differ_eq x (hchild x) (hcanon x) hol]
    simp
  rcases ih hmx with ⟨o, ux, hres, hcut, _, _⟩ | ⟨hres, hnone⟩
  · have harm : ∀ i, ∃ u, Cut H K false (ns i) (cs i) (update ns x o.slot i) u
        fun s => ¬ Between (x :: l) (x :: r) (i :: s) := by
      intro i
      by_cases hix : i = x
      · subst hix
        rw [update_self]
        exact ⟨ux, hcut.congr fun s => by simp [Between]⟩
      · rw [update_of_ne hix]
        exact ⟨cs i, cut_all (hchild i) (hcanon i) (hs.arm i) fun w v _ => hspared w hix⟩
    choose us hus using harm
    refine .inl ⟨_, .full us, ?_, Cut.full hlast hus fun _ _ => Iff.rfl, fun h => absurd h id,
      fun _ => ⟨_, rfl, by simp⟩⟩
    rw [unsetInternal]
    simp only [hsame, hres]
  · refine .inr ⟨?_, fun w v hw => ?_⟩
    · rw [unsetInternal]
      simp only [hsame, hres]
    · cases w with
      | nil => cases hw
      | cons i s =>
        by_cases hix : i = x
        · subst hix
          have := hnone s v hw
          simpa [Between] using this
        · exact hspared s hix

/-- **`unsetInternal` spares what is not between its two keys**, and nothing else. -/
theorem unsetInternal_spec : ∀ {t : Content} {known top : Bool} {n : Node} {left right : Hex},
    Minimal terminator t → Storable t → Uniform left.length t → left.length = right.length →
      Word terminator left → Word terminator right → Before left right →
        Rep H K known top n t → Open n left → Open n right → Clears H K top n t left right := by
  intro t
  induction t with
  | nil | value v => intro known top n left right hm; cases hm
  | short k c ih =>
    intro known top n left right hm hs hu hlen hl hr hlr hrep hol hor
    cases hrep with
    | hash => cases hol
    | @short _ _ _ n _ fl hchild hfl =>
      refine clears_at_short hm hs hu hlen hl hr hlr hchild hol hor fun l r hle hre hmc => ?_
      subst hle hre
      have hn : terminator ∉ k := by
        rcases hm with ⟨_, v, rfl⟩ | ⟨_, hn, _⟩
        · cases hmc
        · exact hn
      have hol' := hol (prefix_append k l)
      have hor' := hor (prefix_append k r)
      rw [drop_left] at hol' hor'
      rw [length_append] at hu
      rw [length_append, length_append, Nat.add_left_cancel_iff] at hlen
      exact ih hmc hs.child hu.child hlen ((word_append_of_notMem hn).mp hl)
        ((word_append_of_notMem hn).mp hr) ((before_append_left k l r).mp hlr) hchild hol' hor'
  | full cs ih =>
    intro known top n left right hm hs hu hlen hl hr hlr hrep hol hor
    cases hrep with
    | hash => cases hol
    | @full _ _ ns _ fl hchild hfl =>
      obtain ⟨x, l, rfl⟩ := exists_cons_of_ne_nil hl.ne_nil
      obtain ⟨y, r, rfl⟩ := exists_cons_of_ne_nil hr.ne_nil
      obtain ⟨hx, hl'⟩ := hu.head_ne hm hl
      obtain ⟨_, hr'⟩ := (hlen ▸ hu).head_ne hm hr
      have hlast := hu.term_arm hm
      rw [length_cons, length_cons, Nat.add_right_cancel_iff] at hlen
      rcases before_cons.mp hlr with hxy | ⟨rfl, hlr'⟩
      · exact clears_at_fork hm hs hu hlen hl' hr' hxy hchild hol hor
      · exact clears_at_same hm hs hlast hx hchild hol fun hmx =>
          ih x hmx (hs.arm x) (hu.arm x) hlen hl' hr' hlr' (hchild x) hol hor

end MxtChain.Trie
