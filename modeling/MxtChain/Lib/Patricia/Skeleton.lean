/-
# MxtChain.Lib.Patricia.Skeleton — trees with parts cut out, and putting them back

A skeleton of a minimal tree `t` has some subtrees of `t` replaced by the minimal trees of a part
of their keys, possibly none. Its branchings may be left with one arm or with no arm at all, so it
is not minimal itself. Writing keys of `t` into a skeleton gives a skeleton again, and a skeleton
with all keys of `t` is `t`. No key ends at a branching that was taken over into a skeleton.
-/
import MxtChain.Lib.Patricia.Order

namespace MxtChain.Lib.Patricia

open List

variable {κ ν : Type} [LinearOrder κ] {t u : Tree κ ν} {term : κ}

/-- **`Skel term t u`** — `u` is a skeleton of `t`. -/
inductive Skel (term : κ) : Tree κ ν → Tree κ ν → Prop
  | part {t u : Tree κ ν} : Canon term u → (∀ w v, lookup u w = some v → lookup t w = some v) →
      Skel term t u
  | short {k : List κ} {t u : Tree κ ν} : term ∉ k → Skel term t u →
      Skel term (.short k t) (.short k u)
  | full {ts us : κ → Tree κ ν} : (∀ i, i ≠ term → Skel term (ts i) (us i)) → ts term = .nil →
      us term = .nil → Skel term (.full ts) (.full us)

theorem Skel.refl (h : Canon term t) : Skel term t t :=
  .part h fun _ _ hw => hw

theorem Skel.nil (t : Tree κ ν) : Skel term t .nil :=
  .part (canon_nil term) fun _ _ hw => absurd hw (by simp)

/-- The skeleton of nothing is nothing. -/
theorem Skel.of_nil (h : Skel term .nil u) : u = .nil := by
  cases h with
  | part hc hsub =>
    refine hc.resolve_right fun hm => ?_
    obtain ⟨w, v, _, hw⟩ := hm.exists_lookup
    exact absurd (hsub w v hw) (by simp)

/-- **Writing a key of the tree into a skeleton gives a skeleton.** -/
theorem Skel.insert (h : Skel term t u) : ∀ {w : List κ} {v : ν},
    Word term w → Patricia.lookup t w = some v → Skel term t (Patricia.insert v u w) := by
  induction h with
  | @part t u hc hsub =>
    intro w v hw hl
    refine .part (hc.insert v hw).canon fun w' v' hw' => ?_
    have hword := (hc.insert v hw).typed.word_of_lookup hw'
    rw [lookup_insert v hc.typed hw hword] at hw'
    split at hw'
    · rename_i he
      rw [he, hl, hw']
    · exact hsub w' v' hw'
  | short hk _ ih =>
    intro w v hw hl
    obtain ⟨r, rfl, hr⟩ := lookup_short_eq_some.mp hl
    rw [insert_short_append v hw.ne_nil]
    exact .short hk (ih ((word_append_of_notMem hk).mp hw) hr)
  | @full ts us harms hts hus ih =>
    intro w v hw hl
    cases w with
    | nil => cases hw
    | cons x r =>
      rw [lookup_full_cons] at hl
      rcases hw with ⟨rfl, rfl⟩ | ⟨hx, hr⟩
      · rw [hts] at hl
        cases hl
      refine .full (fun i hi => ?_) hts ?_
      · by_cases hix : i = x
        · subst hix
          rw [Function.update_self]
          exact ih i hi hr hl
        · rw [Function.update_of_ne hix]
          exact harms i hi
      · rw [Function.update_of_ne (Ne.symm hx)]
        exact hus

/-- **A skeleton with all keys of its tree is the tree.** -/
theorem Skel.complete (h : Skel term t u) : Canon term t →
    (∀ w v, Patricia.lookup t w = some v → Patricia.lookup u w = some v) → u = t := by
  induction h with
  | @part t u hc hsub =>
    intro ht hall
    refine hc.ext ht fun w _ => ?_
    cases hu : Patricia.lookup u w with
    | some v => exact (hsub w v hu).symm
    | none =>
      cases htw : Patricia.lookup t w with
      | none => rfl
      | some v =>
        rw [hall w v htw] at hu
        cases hu
  | @short k t u hk _ ih =>
    intro ht hall
    have hm : Minimal term (.short k t) := ht.resolve_left (by simp)
    rcases hm with ⟨hw, _⟩ | ⟨_, _, _, hm⟩
    · exact absurd hw.term_mem hk
    · rw [ih hm.canon fun w v hw => ?_]
      have := hall (k ++ w) v (by rw [lookup_short_append, hw])
      rwa [lookup_short_append] at this
  | @full ts us _ hts hus ih =>
    intro ht hall
    have hm : Minimal term (.full ts) := ht.resolve_left (by simp)
    congr 1
    funext i
    by_cases hi : i = term
    · rw [hi, hts, hus]
    · exact ih i hi (hm.1 i hi) fun w v hw => hall (i :: w) v hw

/-- What the shape of a skeleton has behind a path, the shape of its tree has as well. -/
theorem Skel.rightOf (h : Skel term t u) : ∀ {n : Nat} {key : List κ},
    Uniform n t → Word term key → key.length = n → RightOf term u key → RightOf term t key := by
  induction h with
  | @part t u hc hsub =>
    intro n key hn hkey hlen hr
    obtain ⟨w, v, hw, hb⟩ := exists_of_rightOf hc hkey hr
    have hl := hn w v (hsub w v hw)
    exact rightOf_of_lookup hkey (hc.typed.word_of_lookup hw) (hlen.trans hl.symm) (hsub w v hw) hb
  | @short k t u hk _ ih =>
    intro n key hn hkey hlen hr
    by_cases hp : k <+: key
    · obtain ⟨r, rfl⟩ := hp
      rw [rightOf_short_append] at hr ⊢
      rw [length_append] at hlen
      subst hlen
      exact ih hn.child ((word_append_of_notMem hk).mp hkey) rfl hr
    · rw [rightOf_short_of_not hp] at hr ⊢
      exact hr
  | @full ts us hskel hts hus ih =>
    intro n key hn hkey hlen hr
    cases key with
    | nil => cases hr
    | cons x r =>
      rcases hr with ⟨i, hxi, hi, hne⟩ | hr
      · refine .inl ⟨i, hxi, hi, fun hnil => hne ?_⟩
        exact (hnil ▸ hskel i hi : Skel term .nil (us i)).of_nil
      rcases hkey with ⟨rfl, rfl⟩ | ⟨hx, hkey⟩
      · rw [hus] at hr
        cases hr
      · subst hlen
        exact .inr (ih x hx (hn.arm x) hkey rfl hr)

/-! ## Writing a list of keys. -/

/-- The tree with all the given keys written. -/
def insertAll (t : Tree κ ν) (ps : List (List κ × ν)) : Tree κ ν :=
  ps.foldl (fun t p => insert p.2 t p.1) t

@[simp] theorem insertAll_cons (t : Tree κ ν) (p : List κ × ν) (ps : List (List κ × ν)) :
    insertAll t (p :: ps) = insertAll (insert p.2 t p.1) ps := rfl

theorem lookup_insertAll_of_notMem {w : List κ} (hw : Word term w) :
    ∀ {ps : List (List κ × ν)} {t : Tree κ ν}, Typed term t → (∀ p ∈ ps, Word term p.1) →
      w ∉ ps.map Prod.fst → lookup (insertAll t ps) w = lookup t w := by
  intro ps
  induction ps with
  | nil => intro t _ _ _; rfl
  | cons p ps ih =>
    intro t ht hps hnot
    rw [map_cons, mem_cons, not_or] at hnot
    have hp := hps p mem_cons_self
    rw [insertAll_cons, ih (typed_insert p.2 ht hp) (fun q hq => hps q (mem_cons_of_mem _ hq))
      hnot.2, lookup_insert p.2 ht hp hw, if_neg hnot.1]

theorem lookup_insertAll_of_mem {w : List κ} {v : ν} : ∀ {ps : List (List κ × ν)}
    {t : Tree κ ν}, Typed term t → (∀ p ∈ ps, Word term p.1) → (ps.map Prod.fst).Nodup →
      (w, v) ∈ ps → lookup (insertAll t ps) w = some v := by
  intro ps
  induction ps with
  | nil => intro t _ _ _ h; cases h
  | cons p ps ih =>
    intro t ht hps hnd hmem
    rw [map_cons, nodup_cons] at hnd
    have hp := hps p mem_cons_self
    have ht' := typed_insert p.2 ht hp
    have hps' : ∀ q ∈ ps, Word term q.1 := fun q hq => hps q (mem_cons_of_mem _ hq)
    rcases mem_cons.mp hmem with rfl | hmem
    · rw [insertAll_cons, lookup_insertAll_of_notMem hp ht' hps' hnd.1, lookup_insert v ht hp hp,
        if_pos rfl]
    · exact ih ht' hps' hnd.2 hmem

/-- Writing keys of the tree into a skeleton, one after the other. -/
theorem Skel.insertAll : ∀ {ps : List (List κ × ν)} {u : Tree κ ν},
    Skel term t u → (∀ p ∈ ps, Word term p.1 ∧ Patricia.lookup t p.1 = some p.2) →
      Skel term t (Patricia.insertAll u ps) := by
  intro ps
  induction ps with
  | nil => intro u h _; exact h
  | cons p ps ih =>
    intro u h hps
    have hp := hps p mem_cons_self
    exact ih (h.insert hp.1 hp.2) fun q hq => hps q (mem_cons_of_mem _ hq)

theorem Skel.typed (h : Skel term t u) : Typed term t → Typed term u := by
  induction h with
  | part hc _ => intro _; exact hc.typed
  | short hk _ ih =>
    intro ht
    have hne := ht.label_ne_nil
    exact (typed_short_of_notMem hne hk).mpr (ih ((typed_short_of_notMem hne hk).mp ht))
  | full _ _ hus ih => intro ht; exact ⟨fun i hi => ih i hi (ht.1 i hi), .inl hus⟩

end MxtChain.Lib.Patricia
