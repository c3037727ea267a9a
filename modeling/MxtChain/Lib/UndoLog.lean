/-
# MxtChain.Lib.UndoLog — undoing a log of changes, up to what a cache may have grown.

A state is changed step by step, and each change leaves an entry from which it can be undone.
Between the changes the state may also grow in ways no reader can see (a value is loaded, a cache
is filled), and those are not undone: so undoing brings back the old state only up to `grows`, a
reflexive and transitive relation. `Logged s es t` says that the entries `es`, newest first, lead
from `t` back to `s` in this sense; it composes, it can be cut at any entry, and it is not disturbed
by further growth.
-/
import Mathlib.Logic.Basic

namespace MxtChain.Lib.UndoLog

variable {σ ε : Type*} {I : σ → Prop} {s t u : σ} {saved newer : List σ}

/-- Undo the entries of a log, newest first. -/
def unwind (undo : ε → σ → Option σ) : List ε → σ → Option σ
  | [], s => some s
  | e :: es, s => (undo e s).bind (unwind undo es)

/-- The entry leads back from `t`, and from everything `t` can grow to, to what `s` can grow to. -/
def Undoes (undo : ε → σ → Option σ) (grows : σ → σ → Prop) (e : ε) (t s : σ) : Prop :=
  ∀ t', grows t t' → ∃ s', undo e t' = some s' ∧ grows s s'

/-- The entries, newest first, lead back from the last state to the first. -/
inductive Logged (undo : ε → σ → Option σ) (grows : σ → σ → Prop) (s : σ) : List ε → σ → Prop
  | start {t : σ} : grows s t → Logged undo grows s [] t
  | entry {es : List ε} {t u : σ} {e : ε} : Logged undo grows s es t →
      Undoes undo grows e u t → Logged undo grows s (e :: es) u

namespace Logged

variable {undo : ε → σ → Option σ} {grows : σ → σ → Prop} {s t u : σ} {es fs : List ε}

variable (htrans : ∀ a b c, grows a b → grows b c → grows a c)
include htrans

theorem grow (h : Logged undo grows s es t) (hg : grows t u) : Logged undo grows s es u := by
  cases h with
  | start hs => exact .start (htrans _ _ _ hs hg)
  | entry hs he => exact .entry hs fun t' ht' => he t' (htrans _ _ _ hg ht')

theorem append (h : Logged undo grows s es t) (h' : Logged undo grows t fs u) :
    Logged undo grows s (fs ++ es) u := by
  induction h' with
  | start hg => exact h.grow htrans hg
  | entry _ he ih => exact .entry ih he

/-- Undoing the whole log leads back to the first state. -/
theorem unwind_all (hrefl : ∀ a, grows a a) (h : Logged undo grows s es u) :
    ∃ t, unwind undo es u = some t ∧ grows s t := by
  induction es generalizing u with
  | nil =>
    cases h with
    | start hg => exact ⟨u, rfl, hg⟩
  | cons e es ih =>
    cases h with
    | entry hs he =>
      obtain ⟨t, ht, hgrow⟩ := he u (hrefl u)
      obtain ⟨v, hv, hback⟩ := ih (hs.grow htrans hgrow)
      refine ⟨v, ?_, hback⟩
      simp only [unwind, ht, Option.bind_some, hv]

end Logged

/-! ## Saved states

`log s` is the log kept in a state. A state `Back`s another if what its log has more than the
other's leads back to the other; a tower of saved states, newest first, is one in which each leads
back to the next. -/

variable (undo : ε → σ → Option σ) (grows : σ → σ → Prop) (log : σ → List ε)

/-- What the log of `t` has more than that of `s` leads back from `t` to `s`. -/
def Back (s t : σ) : Prop := ∃ es, log t = es ++ log s ∧ Logged undo grows s es t

variable {undo grows log}

theorem Back.trans (htrans : ∀ a b c, grows a b → grows b c → grows a c)
    (h : Back undo grows log s t) (h' : Back undo grows log t u) : Back undo grows log s u := by
  obtain ⟨es, hes, hlog⟩ := h
  obtain ⟨fs, hfs, hlog'⟩ := h'
  refine ⟨fs ++ es, ?_, hlog.append htrans hlog'⟩
  rw [hfs, hes, List.append_assoc]

/-- As many entries undone as the log has more. -/
theorem Back.unwind (htrans : ∀ a b c, grows a b → grows b c → grows a c)
    (hrefl : ∀ a, grows a a) (h : Back undo grows log s t) :
    (∃ u, unwind undo ((log t).take ((log t).length - (log s).length)) t = some u ∧
      grows s u) ∧ (log t).drop ((log t).length - (log s).length) = log s := by
  obtain ⟨es, hes, hlog⟩ := h
  have hlen : (log t).length - (log s).length = es.length := by
    rw [hes, List.length_append]
    omega
  rw [hlen, hes, List.take_left, List.drop_left]
  exact ⟨hlog.unwind_all htrans hrefl, rfl⟩

variable (undo grows log) in
/-- Saved states with a property, newest first, each on the way back from the one before. -/
inductive Tower (I : σ → Prop) : List σ → σ → Prop
  | nil {s : σ} : Tower I [] s
  | cons {saved : List σ} {s t : σ} : Tower I saved s → I s → Back undo grows log s t →
      Tower I (s :: saved) t

namespace Tower

theorem step (htrans : ∀ a b c, grows a b → grows b c → grows a c)
    (h : Tower undo grows log I saved s) (hst : Back undo grows log s t) :
    Tower undo grows log I saved t := by
  cases h with
  | nil => exact .nil
  | cons hrest hI hback => exact .cons hrest hI (hback.trans htrans hst)

/-- Any saved state can be gone back to, and then the older ones are still saved. -/
theorem back (htrans : ∀ a b c, grows a b → grows b c → grows a c)
    (h : Tower undo grows log I (newer ++ s :: saved) t) :
    Back undo grows log s t ∧ I s ∧ Tower undo grows log I saved s := by
  induction newer generalizing t with
  | nil =>
    cases h with
    | cons hrest hI hback => exact ⟨hback, hI, hrest⟩
  | cons n newer ih =>
    cases h with
    | cons hrest _ hback =>
      obtain ⟨hback', hI, hsaved⟩ := ih hrest
      exact ⟨hback'.trans htrans hback, hI, hsaved⟩

end Tower

end MxtChain.Lib.UndoLog
