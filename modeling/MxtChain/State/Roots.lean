/-
# MxtChain.State.Roots — the root of a block does not depend on when the tries are written.

A state database is opened over a trie, with or without a snapshot of it. It runs the transactions
of a block, each ended by `Finalise` or by `IntermediateRoot`, and computes the root of the last one.
The ledger knows nothing of the choice: the account trie is the one of the accounts that the
operations describe. This needs the accounts that were put in the place of others to be changed in
the same transaction; where one is not, the choice shows.
-/
import MxtChain.State.Simulation

set_option linter.unusedSectionVars false

namespace MxtChain.State

open Lib List Option World

variable {S C : Type} [StorageHash S] [CodeHash C] [DecidableEq S] [DecidableEq C]
  {db : Database S C} {trie : Address → Option (Account S C)} {snap : Option (Snap S C)}
  {s t : StateDB S C} {d : Bool} {acc : Account S C} {a : Address} {l m l' m' : Ledger S C}

/-! ## §1 — Opening a state database -/

/-- The database has what the trie refers to, and the snapshot, where it can be read, holds what the
trie holds. -/
structure Opened (db : Database S C) (trie : Address → Option (Account S C))
    (snap : Option (Snap S C)) : Prop where
  emptyTrie : db.storage emptyRoot = fun _ => Hash.zero
  codes : ∀ hash code, db.code hash = some code → keccak256Hash code = hash
  balance : ∀ a acc, trie a = some acc → 0 ≤ acc.balance
  root : ∀ a acc, trie a = some acc → storageRoot (db.storage acc.root) = acc.root
  code : ∀ a acc, trie a = some acc → acc.codeHash = emptyCodeHash ∨ (db.code acc.codeHash).isSome
  snapAccount : ∀ sn, snap = some sn → ∀ a acc, sn.account a = some acc →
    acc = (trie a).map Account.slim
  snapStorage : ∀ sn, snap = some sn → ∀ a key v, sn.storage a key = some v →
    v = (trie a).elim Hash.zero fun acc => db.storage acc.root key

def World.ofTrie (db : Database S C) (trie : Address → Option (Account S C)) : World C where
  accounts := fun a => (trie a).map fun acc => {
    nonce := acc.nonce
    balance := acc.balance
    codeHash := acc.codeHash
    code := ((newObject acc).Code db).1
    suicided := false
    state := db.storage acc.root
    committed := db.storage acc.root }
  created := fun _ => False
  written := fun _ => False
  refund := 0
  thash := Hash.zero
  bhash := Hash.zero
  txIndex := 0
  logs := fun _ => []
  logSize := 0
  preimages := fun _ => none

def Ledger.ofTrie (db : Database S C) (trie : Address → Option (Account S C)) : Ledger S C :=
  ⟨{ world := World.ofTrie db trie }, trie⟩

namespace Opened

variable (h : Opened db trie snap)
include h

theorem readAccount (a : Address) : (StateDB.New db trie snap).readAccount a = trie a := by
  simp only [StateDB.readAccount, StateDB.New]
  cases hs : snap with
  | none => rfl
  | some sn =>
    cases hacc : sn.account a with
    | none => simp only [hacc]
    | some acc =>
      simp only [hacc, h.snapAccount sn hs a acc hacc]
      cases trie a <;> simp

theorem object (a : Address) : (StateDB.New db trie snap).object a = (trie a).map newObject := by
  rw [StateDB.object, h.readAccount a]
  rfl

/-- What lies behind an object is what the trie holds. -/
theorem slotBehind (hacc : trie a = some acc) (key : Hash) :
    (StateDB.New db trie snap).slotBehind a (newObject acc) key = db.storage acc.root key := by
  simp only [StateDB.slotBehind, StateDB.New]
  cases hs : snap with
  | none => rfl
  | some sn =>
    simp only [Bool.false_eq_true, if_false]
    cases hv : sn.storage a key with
    | none => rfl
    | some v =>
      rw [h.snapStorage sn hs a key v hv, hacc]
      rfl

theorem codeBytes
    (hacc : trie a = some acc) : keccak256Hash ((newObject acc).codeBytes db) = acc.codeHash := by
  rw [StateObject.codeBytes, StateObject.Code_fst]
  change keccak256Hash ((if acc.codeHash = emptyCodeHash then none
    else db.code acc.codeHash).getD []) = acc.codeHash
  split_ifs with hempty
  · exact hempty.symm
  · obtain ⟨code, hcode⟩ := isSome_iff_exists.mp ((h.code a acc hacc).resolve_left hempty)
    rw [hcode]
    exact h.codes _ _ hcode

/-- An opened state database is consistent. -/
theorem consistent : (StateDB.New db trie snap).Consistent := by
  -- every object would be loaded from the trie
  have hobject : ∀ {a o}, (StateDB.New db trie snap).object a = some o →
      ∃ acc, trie a = some acc ∧ o = newObject acc := by
    intro a o ho
    rw [h.object a] at ho
    obtain ⟨acc, hacc, rfl⟩ := map_eq_some_iff.mp ho
    exact ⟨acc, hacc, rfl⟩
  have htouched : ∀ a, ¬ (StateDB.New db trie snap).touched a := StateDB.not_touched_of_nil rfl
  refine ⟨h.emptyTrie, h.codes, fun a o ho => absurd ho (by simp [StateDB.New]),
    fun a ha => absurd ha not_mem_nil, fun a ha => absurd ha not_mem_nil,
    fun a ha => absurd ha (htouched a), fun a => rfl, fun _ => rfl, fun a o ho _ => ?_,
    fun a _ => h.readAccount a, fun a ha key => ?_, fun a _ _ => ?_, fun a o _ ho _ key v hv => ?_,
    fun a o _ ho _ => ?_, h.balance, fun a o _ _ ho _ => ?_⟩
  · obtain ⟨acc, hacc, rfl⟩ := hobject ho
    exact ⟨fun key v hv => absurd hv (by simp [newObject]),
      fun key hk => absurd hk (by simp [newObject]), fun key hk => absurd hk (by simp [newObject]),
      fun key _ => h.slotBehind hacc key, h.root a acc hacc, h.codeBytes hacc, fun _ => rfl⟩
  · rw [h.object a, map_eq_none_iff] at ha
    have hblank := StateObject.Blank.freshObject (S := S) (C := C)
    have hcontent : (StateDB.freshObject : StateObject S C).content db key = Hash.zero :=
      congrFun (hblank.content (s := StateDB.New db trie snap) h.emptyTrie) key
    simp only [StateDB.slotBehind, StateDB.New]
    cases hs : snap with
    | none => exact hcontent
    | some sn =>
      simp only [Bool.false_eq_true, if_false]
      cases hv : sn.storage a key with
      | none => exact hcontent
      | some v =>
        rw [h.snapStorage sn hs a key v hv, ha]
        rfl
  · rw [h.object a]
    cases hacc : trie a with
    | none | some acc => exact hacc
  · obtain ⟨acc, -, rfl⟩ := hobject ho
    cases hv
  · obtain ⟨acc, -, rfl⟩ := hobject ho
    exact ⟨rfl, fun key v hv => absurd hv (by simp [newObject])⟩
  · obtain ⟨acc, -, rfl⟩ := hobject ho
    exact ⟨rfl, rfl⟩

/-- It shows the world of the trie, with or without a snapshot. -/
theorem world : (StateDB.New db trie snap).world = ofTrie db trie := by
  apply World.ext
  · funext a
    simp only [StateDB.world, StateDB.accounts, ofTrie, h.object a]
    cases hacc : trie a with
    | none => rfl
    | some acc =>
      have hcommitted : (StateDB.New db trie snap).committedSlot a (newObject acc) =
          db.storage acc.root := by
        funext key
        rw [StateDB.committedSlot, h.slotBehind hacc key]
        simp [newObject]
      have hcurrent : (StateDB.New db trie snap).currentSlot a (newObject acc) =
          db.storage acc.root := by
        funext key
        rw [StateDB.currentSlot, hcommitted]
        simp [newObject]
      have hfilter : (some (newObject acc)).filter (fun o => !o.deleted) = some (newObject acc) :=
        rfl
      rw [map_some, hfilter, map_some, StateDB.account, hcommitted, hcurrent]
      rfl
  · funext a
    simp [StateDB.world, StateDB.created, StateDB.New, ofTrie]
  · funext a
    simp [StateDB.world, StateDB.written, StateDB.New, ofTrie]
  all_goals rfl

/-- It starts out keeping the ledger of the trie. -/
theorem sim : Sim 0 (StateDB.New db trie snap) (Ledger.ofTrie db trie) :=
  .start h.consistent rfl rfl rfl (congrArg World.plain h.world.symm) rfl

end Opened

/-! ## §2 — Blocks -/

/-- A transaction: `Prepare`, then its operations. -/
structure Tx where
  thash : Hash
  bhash : Hash
  txIndex : Nat
  ops : List Op

def Tx.events (tx : Tx) : List Event :=
  .prepare tx.thash tx.bhash tx.txIndex :: tx.ops.map .op

/-- The call that ends a transaction. -/
inductive Ending where
  | finalise
  | intermediateRoot
  deriving DecidableEq

def Ending.event (d : Bool) : Ending → Event
  | finalise => .finalise d
  | intermediateRoot => .intermediateRoot d

/-- Transactions with the calls that end them, and a last one after which the root is computed. -/
def blockEvents (d : Bool) : List (Tx × Ending) → Tx → List Event
  | [], last => last.events ++ [.intermediateRoot d]
  | (tx, e) :: txs, last => tx.events ++ e.event d :: blockEvents d txs last

/-! ## §3 — The ledger of a block -/

namespace Ledger

theorem handleAll_append (l : Ledger S C) (es fs : List Event) :
    l.handleAll (es ++ fs) = (l.handleAll es).bind fun m => m.handleAll fs := by
  induction es generalizing l with
  | nil => rfl
  | cons e es ih =>
    simp only [cons_append, handleAll, bind_assoc]
    congr 1
    funext m
    exact ih m

/-- What happens within a transaction is about the session alone. -/
theorem handleAll_tx (h : l.session = l'.session) (tx : Tx) (hm : l.handleAll tx.events = some m) :
    ∃ m', l'.handleAll tx.events = some m' ∧ m.session = m'.session := by
  have hops : ∀ (ops : List Op) (l l' : Ledger S C), l.session = l'.session →
      l.handleAll (ops.map .op) = some m →
      ∃ m', l'.handleAll (ops.map .op) = some m' ∧ m.session = m'.session := by
    intro ops
    induction ops with
    | nil =>
      intro l l' h hm
      obtain rfl := some.inj hm
      exact ⟨l', rfl, h⟩
    | cons op ops ih =>
      intro l l' h hm
      obtain ⟨n, hn, hm⟩ := bind_eq_some_iff.mp hm
      obtain ⟨x, hx, rfl⟩ := map_eq_some_iff.mp hn
      obtain ⟨m', hm', hs⟩ := ih { l with session := x } { l' with session := x } rfl hm
      refine ⟨m', ?_, hs⟩
      rw [map_cons, handleAll, handle, ← h, hx]
      exact hm'
  refine hops tx.ops _ { l' with session := { l'.session with world := { l'.session.world with
    thash := tx.thash, bhash := tx.bhash, txIndex := tx.txIndex } } } ?_ hm
  rw [h]

/-- A root that can be computed is the end of the transaction. -/
theorem root_eq_some : l.root d = some m ↔ (l.session.world.finalise d).Solvent ∧
    m = { l.finalise d with trie := (l.session.world.finalise d).trie } := by
  unfold root
  split_ifs with hs
  · simp [hs, eq_comm]
  · simp [hs]

/-- A transaction that can be ended with its root can be ended, with the same world. -/
theorem handle_ending {e e' : Ending} (he : e = .intermediateRoot ∨ e' = .finalise)
    (h : l.session = l'.session) (hm : l.handle (e.event d) = some m) :
    ∃ m', l'.handle (e'.event d) = some m' ∧ m.session = m'.session := by
  cases e with
  | finalise =>
    obtain rfl : e' = .finalise := he.resolve_left (by simp)
    obtain rfl := some.inj hm
    exact ⟨_, rfl, by simp only [finalise, h]⟩
  | intermediateRoot =>
    obtain ⟨hsolvent, rfl⟩ := root_eq_some.mp hm
    cases e' with
    | finalise => exact ⟨_, rfl, by simp only [finalise, h]⟩
    | intermediateRoot =>
      rw [h] at hsolvent
      exact ⟨_, root_eq_some.mpr ⟨hsolvent, rfl⟩, by simp only [finalise, h]⟩

variable {txs txs' : List (Tx × Ending)} {last : Tx}

/-- Where some of the roots are not computed the block comes to the same end. -/
theorem handleAll_block
    (htxs : Forall₂ (fun p p' => p.1 = p'.1 ∧ (p.2 = .intermediateRoot ∨ p'.2 = .finalise))
      txs txs') (h : l.session = l'.session)
    (hm : l.handleAll (blockEvents d txs last) = some m) :
    l'.handleAll (blockEvents d txs' last) = some m := by
  induction htxs generalizing l l' with
  | nil =>
    rw [blockEvents, handleAll_append] at hm ⊢
    obtain ⟨n, hn, hm⟩ := bind_eq_some_iff.mp hm
    obtain ⟨n', hn', hs⟩ := handleAll_tx h last hn
    obtain ⟨m', hm', hm⟩ := bind_eq_some_iff.mp hm
    obtain rfl := some.inj hm
    obtain ⟨hsolvent, rfl⟩ := root_eq_some.mp hm'
    rw [hs] at hsolvent
    have hroot := root_eq_some.mpr ⟨hsolvent, rfl⟩
    rw [hn', bind_some, handleAll, handle, hroot, bind_some, handleAll]
    simp only [finalise, hs]
  | @cons p p' txs txs' hp _ ih =>
    obtain ⟨tx, e⟩ := p
    obtain ⟨tx', e'⟩ := p'
    obtain ⟨rfl, he⟩ : tx = tx' ∧ _ := hp
    rw [blockEvents, handleAll_append] at hm ⊢
    obtain ⟨n, hn, hm⟩ := bind_eq_some_iff.mp hm
    obtain ⟨n', hn', hs⟩ := handleAll_tx h tx hn
    obtain ⟨k, hk, hm⟩ := bind_eq_some_iff.mp hm
    obtain ⟨k', hk', hs'⟩ := handle_ending he hs hk
    rw [hn', bind_some, handleAll, hk']
    exact ih hs' hm

/-- After the last root the trie is that of the accounts. -/
theorem trie_of_block
    (hm : l.handleAll (blockEvents d txs last) = some m) : m.trie = m.session.world.trie := by
  induction txs generalizing l with
  | nil =>
    rw [blockEvents, handleAll_append] at hm
    obtain ⟨n, -, hm⟩ := bind_eq_some_iff.mp hm
    obtain ⟨m', hm', hm⟩ := bind_eq_some_iff.mp hm
    obtain rfl := some.inj hm
    obtain ⟨-, rfl⟩ := root_eq_some.mp hm'
    rfl
  | cons p txs ih =>
    rw [blockEvents, handleAll_append] at hm
    obtain ⟨n, -, hm⟩ := bind_eq_some_iff.mp hm
    obtain ⟨k, -, hm⟩ := bind_eq_some_iff.mp hm
    exact ih hm

end Ledger

/-! ## §4 — The root -/

/-- The block as the ledger sees it, with every transaction ended and only the last root. -/
def logicalEvents (d : Bool) (txs : List Tx) (last : Tx) : List Event :=
  blockEvents d (txs.map (·, .finalise)) last

/-- The block with every root computed. -/
def rootedEvents (d : Bool) (txs : List Tx) (last : Tx) : List Event :=
  blockEvents d (txs.map (·, .intermediateRoot)) last

theorem event_shift_zero (es : List Event) : es.map (Event.shift 0) = es := by
  have hid : Event.shift 0 = id := by
    funext e
    cases e with
    | op op => cases op <;> rfl
    | _ => rfl
  rw [hid, List.map_id]

/-- **The root is that of the logical accounts, whichever calls end the transactions.** In every
block in which each account that a transaction puts in the place of an existing or deleted one is
journal-dirty at its end, the account trie after the last root is the trie of the accounts and
storage that the operations describe; and if none of those accounts has a negative balance at the
end of a transaction, no call fails. -/
theorem finalRoot_eq_logical (hopen : Opened db trie snap) (d : Bool) (txs : List (Tx × Ending))
    (last : Tx) (htame : (StateDB.New db trie snap).Tame (blockEvents d txs last)) :
    (∀ t, (StateDB.New db trie snap).handleAll (blockEvents d txs last) = some t →
      ∃ l, (Ledger.ofTrie db trie).handleAll (logicalEvents d (txs.map Prod.fst) last) = some l ∧
        t.trie = l.session.world.trie) ∧
    ((Ledger.ofTrie db trie).handleAll (rootedEvents d (txs.map Prod.fst) last) ≠ none →
      (StateDB.New db trie snap).handleAll (blockEvents d txs last) ≠ none) := by
  have hrun : Rel (Sim 0)
      ((StateDB.New db trie snap).handleAll (blockEvents d txs last))
      ((Ledger.ofTrie db trie).handleAll (blockEvents d txs last)) := by
    have h := hopen.sim.handleAll (blockEvents d txs last)
    rw [event_shift_zero] at h
    exact h htame
  constructor
  · intro t ht
    rw [ht] at hrun
    cases hl : (Ledger.ofTrie db trie).handleAll (blockEvents d txs last) with
    | none =>
      rw [hl] at hrun
      cases hrun
    | some l =>
      rw [hl] at hrun
      cases hrun with
      | some hsim =>
        refine ⟨l, Ledger.handleAll_block ?_ rfl hl, ?_⟩
        · rw [List.map_map, List.forall₂_map_right_iff]
          exact forall₂_same.mpr fun p _ => ⟨rfl, .inr rfl⟩
        · rw [← hsim.trie]
          exact Ledger.trie_of_block hl
  · intro hne hnone
    obtain ⟨l, hl⟩ := ne_none_iff_exists'.mp hne
    have hl' : (Ledger.ofTrie db trie).handleAll (blockEvents d txs last) = some l := by
      refine Ledger.handleAll_block ?_ rfl hl
      rw [List.map_map, List.forall₂_map_left_iff]
      exact forall₂_same.mpr fun p _ => ⟨rfl, .inl rfl⟩
    rw [hnone, hl'] at hrun
    cases hrun

noncomputable instance : DecidableEq Slots := Classical.decEq _

theorem sampleState_opened : Opened sampleState.db sampleState.trie none where
  emptyTrie := rfl
  codes hash code h := absurd h (by simp [sampleState, StateDB.New])
  balance a acc h := by
    simp only [sampleState, StateDB.New] at h
    split_ifs at h
    rw [← some.inj h]
    decide
  root a acc h := rfl
  code a acc h := by
    simp only [sampleState, StateDB.New] at h
    split_ifs at h
    rw [← some.inj h]
    exact .inl rfl
  snapAccount sn h := absurd h (by simp)
  snapStorage sn h := absurd h (by simp)

/-- A block that writes a slot, suicides the account, and creates it again with a nonce. -/
def sampleBlock : List (Tx × Ending) :=
  [(⟨Hash.zero, Hash.zero, 0,
      [.setState (Address.ofBytes [1]) (Hash.ofBytes [1]) (Hash.ofBytes [2])]⟩, .intermediateRoot),
    (⟨Hash.zero, Hash.zero, 1, [.suicide (Address.ofBytes [1])]⟩, .finalise)]

def sampleLast : Tx :=
  ⟨Hash.zero, Hash.zero, 2,
    [.createAccount (Address.ofBytes [1]), .setNonce (Address.ofBytes [1]) 7]⟩

theorem finalRoot_eq_logical_sample :
    ∃ t l, sampleState.handleAll (blockEvents true sampleBlock sampleLast) = some t ∧
      (Ledger.ofTrie sampleState.db sampleState.trie).handleAll
        (logicalEvents true (sampleBlock.map Prod.fst) sampleLast) = some l ∧
      t.trie = l.session.world.trie := by
  have htame : sampleState.Tame (blockEvents true sampleBlock sampleLast) := by decide
  obtain ⟨l, hl, ht⟩ := (finalRoot_eq_logical sampleState_opened true sampleBlock sampleLast
    htame).1 _ rfl
  exact ⟨_, l, rfl, hl, ht⟩

/-- The account of the sample is suicided by one transaction and created by the next. -/
def suicideThenCreate (e : Ending) : List Event :=
  blockEvents false [(⟨Hash.zero, Hash.zero, 0, [.suicide (Address.ofBytes [1])]⟩, e)]
    ⟨Hash.zero, Hash.zero, 1, [.createAccount (Address.ofBytes [1])]⟩

/-- The new account is in the trie or not, depending on whether the trie was written in between. -/
theorem finalRoot_depends_on_ending :
    ∃ t u, sampleState.handleAll (suicideThenCreate .finalise) = some t ∧
      sampleState.handleAll (suicideThenCreate .intermediateRoot) = some u ∧
      (t.trie (Address.ofBytes [1])).isSome ∧ u.trie (Address.ofBytes [1]) = none :=
  ⟨_, _, rfl, rfl, rfl, rfl⟩

/-! ## §5 — With and without a snapshot -/

/-- The answer, with a code that is not there as an empty one. -/
def Answer.plain : Answer C → Answer C
  | .code b => .code (some (b.getD []))
  | a => a

theorem World.answer_plain (w : World C) (q : Query) :
    (w.plain.answer q).plain = (w.answer q).plain := by
  cases q with
  | refund | logs hash | logSize | preimage hash => rfl
  | exist a | empty a | balance a | nonce a | code a | codeSize a | codeHash a | state a key
  | committedState a key | hasSuicided a =>
    cases hacc : w.accounts a <;>
      simp [answer, plain, hacc, Answer.plain, LogicalAccount.plain, LogicalAccount.empty]

theorem Sim.ask (h : Sim 0 s l) (q : Query) :
    (s.ask q).1.plain = (l.session.world.answer q).plain := by
  rw [StateDB.ask_fst h.consistent.noFake, ← answer_plain, ← h.world, answer_plain]

/-- **A snapshot is never noticed**: opened with one or without, the state database panics in the
same runs, and gives the same answers and has the same account trie after the others. -/
theorem snapshot_unnoticed {snap' : Option (Snap S C)} {es : List Event}
    (hopen : Opened db trie snap) (hopen' : Opened db trie snap')
    (htame : (StateDB.New db trie snap).Tame es) (htame' : (StateDB.New db trie snap').Tame es) :
    Rel (fun s t => s.trie = t.trie ∧ ∀ q, (s.ask q).1.plain = (t.ask q).1.plain)
      ((StateDB.New db trie snap).handleAll es) ((StateDB.New db trie snap').handleAll es) := by
  have h := hopen.sim.handleAll es (by rwa [event_shift_zero])
  have h' := hopen'.sim.handleAll es (by rwa [event_shift_zero])
  rw [event_shift_zero] at h h'
  generalize (Ledger.ofTrie db trie).handleAll es = l at h h'
  generalize (StateDB.New db trie snap).handleAll es = s, (StateDB.New db trie snap').handleAll es = t
    at h h' ⊢
  cases h with
  | none =>
    cases h'
    exact .none
  | some h =>
    cases h' with
    | some h' =>
      exact .some ⟨h.trie.symm.trans h'.trie, fun q => (h.ask q).trans (h'.ask q).symm⟩

/-- A snapshot of the sample that has got to the slots only. -/
def sampleSnap : Snap Slots Bytes :=
  ⟨fun _ => none, fun a key => some ((sampleState.trie a).elim Hash.zero fun acc => acc.root key)⟩

theorem snapshot_unnoticed_sample :
    (sampleState.handleAll (blockEvents true sampleBlock sampleLast)).isSome ∧
    Rel (fun s t => s.trie = t.trie ∧ ∀ q, (s.ask q).1.plain = (t.ask q).1.plain)
      (sampleState.handleAll (blockEvents true sampleBlock sampleLast))
      ((StateDB.New sampleState.db sampleState.trie (some sampleSnap)).handleAll
        (blockEvents true sampleBlock sampleLast)) := by
  have hopen : Opened sampleState.db sampleState.trie (some sampleSnap) :=
    { sampleState_opened with
      snapAccount := by
        rintro _ ⟨⟩ a acc ⟨⟩
      snapStorage := by
        rintro _ ⟨⟩ a key v ⟨⟩
        rfl }
  exact ⟨rfl, snapshot_unnoticed sampleState_opened hopen (by decide) (by decide)⟩

end MxtChain.State
