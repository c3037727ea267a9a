/-
# MxtChain.Vm.Accounts — what the operations do to the accounts as a contract sees them.

A contract cannot tell an account that does not exist from one that has just been created, apart
from asking whether it exists. So every getter reads one total map, `account`, and each operation
changes that map at one address at most.
-/
import MxtChain.Vm.Kept

namespace MxtChain.Vm

open State Function Option World

set_option linter.unusedSectionVars false

variable {C : Type} [CodeHash C] [DecidableEq C]

instance : Finite Address :=
  Finite.of_equiv (List.Vector UInt8 AddressLength)
    ⟨fun v => ⟨v.1, v.2⟩, fun a => ⟨a.bytes, a.length_eq⟩, fun _ => rfl, fun _ => rfl⟩

noncomputable instance : Fintype Address := Fintype.ofFinite Address

instance : Finite Hash :=
  Finite.of_equiv (List.Vector UInt8 HashLength)
    ⟨fun v => ⟨v.1, v.2⟩, fun h => ⟨h.bytes, h.length_eq⟩, fun _ => rfl, fun _ => rfl⟩

noncomputable instance : Fintype Hash := Fintype.ofFinite Hash

/-- The account of an address as the getters see it. -/
def account (w : World C) (a : Address) : LogicalAccount C := (w.accounts a).getD .fresh

section Getters

variable (w : World C) (a : Address)

theorem GetBalance_eq : GetBalance w a = (account w a).balance := by
  unfold GetBalance account
  cases w.accounts a <;> rfl

theorem GetNonce_eq : GetNonce w a = (account w a).nonce := by
  unfold GetNonce account
  cases w.accounts a <;> rfl

theorem GetCode_eq : GetCode w a = (account w a).code.getD [] := by
  unfold GetCode account
  cases w.accounts a <;> rfl

theorem GetState_eq (key : Hash) : GetState w a key = (account w a).state key := by
  unfold GetState account
  cases w.accounts a <;> rfl

theorem GetCommittedState_eq (key : Hash) :
    GetCommittedState w a key = (account w a).committed key := by
  unfold GetCommittedState account
  cases w.accounts a <;> rfl

theorem HasSuicided_eq : HasSuicided w a = (account w a).suicided := by
  unfold HasSuicided account
  cases w.accounts a <;> rfl

end Getters

section Operations

variable {w w' : World C} {a : Address}

theorem account_of_none (h : w.accounts a = none) : account w a = .fresh := by
  unfold account
  rw [h]
  rfl

variable (w : World C)

theorem getOrNew_fst (a : Address) : (w.getOrNew a).1 = account w a := by
  unfold getOrNew account
  cases w.accounts a <;> rfl

theorem account_put (a : Address) (acc : LogicalAccount C) :
    account (w.put a acc) = update (account w) a acc := by
  funext b
  by_cases hb : b = a
  · rw [hb, update_self]
    simp [account, put]
  · simp [account, put, hb]

theorem account_create (a : Address) (acc : LogicalAccount C) :
    account (w.create a acc) = update (account w) a acc := by
  funext b
  by_cases hb : b = a
  · rw [hb, update_self]
    simp [account, World.create]
  · simp [account, World.create, hb]

theorem account_getOrNew (a : Address) : account (w.getOrNew a).2 = account w := by
  unfold getOrNew
  split
  · rfl
  · next h => rw [account_create, ← account_of_none h, update_eq_self]

theorem apply_addBalance (a : Address) (amount : Int) : w.apply (.addBalance a amount) = some (
      if amount = 0 then
        if (account w a).empty then (w.getOrNew a).2.touch a else (w.getOrNew a).2
      else (w.getOrNew a).2.put a
        { account w a with balance := (account w a).balance + amount }) := by
  rw [← getOrNew_fst]
  rfl

theorem apply_subBalance (a : Address) (amount : Int) : w.apply (.subBalance a amount) = some (
      if amount = 0 then (w.getOrNew a).2
      else (w.getOrNew a).2.put a
        { account w a with balance := (account w a).balance - amount }) := by
  rw [← getOrNew_fst]
  rfl

theorem apply_setState (a : Address) (key value : Hash) : w.apply (.setState a key value) = some (
      if (account w a).state key = value then (w.getOrNew a).2
      else (w.getOrNew a).2.put a
        { account w a with state := update (account w a).state key value }) := by
  rw [← getOrNew_fst]
  rfl

variable {w}

theorem account_addBalance {amount : Int} (h : w.apply (.addBalance a amount) = some w') :
    account w' = update (account w) a
      { account w a with balance := (account w a).balance + amount } := by
  obtain rfl := some.inj ((apply_addBalance w a amount).symm.trans h)
  split
  · next hzero =>
    have hsame : account w = update (account w) a
        { account w a with balance := (account w a).balance + amount } := by
      rw [hzero, Int.add_zero, update_eq_self]
    rw [← hsame]
    split
    · exact account_getOrNew w a
    · exact account_getOrNew w a
  · rw [account_put, account_getOrNew]

theorem account_subBalance {amount : Int} (h : w.apply (.subBalance a amount) = some w') :
    account w' = update (account w) a
      { account w a with balance := (account w a).balance - amount } := by
  obtain rfl := some.inj ((apply_subBalance w a amount).symm.trans h)
  split
  · next hzero => rw [hzero, Int.sub_zero, update_eq_self, account_getOrNew]
  · rw [account_put, account_getOrNew]

theorem account_setNonce {nonce : UInt64} (h : w.apply (.setNonce a nonce) = some w') :
    account w' = update (account w) a { account w a with nonce } := by
  have hput : w.apply (.setNonce a nonce) =
      some ((w.getOrNew a).2.put a { (w.getOrNew a).1 with nonce }) := rfl
  rw [hput, getOrNew_fst] at h
  rw [← some.inj h, account_put, account_getOrNew]

theorem account_setCode {code : Bytes} (h : w.apply (.setCode a code) = some w') :
    account w' = update (account w) a
      { account w a with codeHash := keccak256Hash code, code := some code } := by
  have hput : w.apply (.setCode a code) = some ((w.getOrNew a).2.put a
      { (w.getOrNew a).1 with codeHash := keccak256Hash code, code := some code }) := rfl
  rw [hput, getOrNew_fst] at h
  rw [← some.inj h, account_put, account_getOrNew]

theorem account_setState {key value : Hash} (h : w.apply (.setState a key value) = some w') :
    account w' = update (account w) a
      { account w a with state := update (account w a).state key value } := by
  obtain rfl := some.inj ((apply_setState w a key value).symm.trans h)
  split
  · next hsame => rw [← hsame, update_eq_self, update_eq_self, account_getOrNew]
  · rw [account_put, account_getOrNew]

theorem account_createAccount (h : w.apply (.createAccount a) = some w') :
    account w' = update (account w) a
      { LogicalAccount.fresh with balance := (account w a).balance } := by
  cases h
  rw [account_create, ← GetBalance_eq]
  rfl

theorem account_suicide (h : w.apply (.suicide a) = some w') :
    account w' = if Exist w a then update (account w) a
      { account w a with suicided := true, balance := 0 } else account w := by
  cases h
  unfold Exist
  cases hacc : w.accounts a with
  | none => rfl
  | some acc =>
    have heq : account w a = acc := by
      unfold account
      rw [hacc]
      rfl
    rw [heq]
    exact account_put w a _

/-- The operations that leave every account as it is. -/
def offAccounts : Op → Bool
  | .addRefund _ | .subRefund _ | .addLog _ | .addPreimage _ _ | .read _ | .snapshot
  | .revertToSnapshot _ => true
  | _ => false

theorem accounts_of_offAccounts {op : Op} (hop : offAccounts op = true)
    (h : w.apply op = some w') : w'.accounts = w.accounts := by
  cases op with
  | addRefund gas =>
    cases h
    rfl
  | subRefund gas =>
    obtain ⟨-, h⟩ := ite_none_left_eq_some.mp h
    cases h
    rfl
  | addLog log =>
    cases h
    rfl
  | addPreimage hash preimage =>
    cases h
    split <;> rfl
  | read q | snapshot | revertToSnapshot id =>
    cases h
    rfl
  | _ => cases hop

theorem account_of_offAccounts {op : Op} (hop : offAccounts op = true)
    (h : w.apply op = some w') : account w' = account w := by
  unfold account
  rw [accounts_of_offAccounts hop h]

end Operations

/-! ## §2 — What is beside the accounts -/

/-- The logs and the refund counter. -/
structure SameBeside (w w' : World C) : Prop where
  logs : w'.logs = w.logs
  logSize : w'.logSize = w.logSize
  refund : w'.refund = w.refund

theorem SameBeside.getOrNew (w : World C) (a : Address) : SameBeside w (w.getOrNew a).2 := by
  unfold World.getOrNew
  split
  · exact ⟨rfl, rfl, rfl⟩
  · exact ⟨rfl, rfl, rfl⟩

/-- Every operation on accounts, and the preimages, leave the rest as it is. -/
theorem sameBeside_of_apply {w w' : World C} {op : Op}
    (hop : offAccounts op = false ∨ ∃ hash data, op = .addPreimage hash data)
    (h : w.apply op = some w') : SameBeside w w' := by
  rcases hop with hop | ⟨hash, data, rfl⟩
  · cases op with
    | addBalance a amount =>
      obtain rfl := some.inj ((apply_addBalance w a amount).symm.trans h)
      have hb := SameBeside.getOrNew w a
      repeat' split
      all_goals exact ⟨hb.logs, hb.logSize, hb.refund⟩
    | subBalance a amount =>
      obtain rfl := some.inj ((apply_subBalance w a amount).symm.trans h)
      have hb := SameBeside.getOrNew w a
      split
      all_goals exact ⟨hb.logs, hb.logSize, hb.refund⟩
    | setState a key value =>
      obtain rfl := some.inj ((apply_setState w a key value).symm.trans h)
      have hb := SameBeside.getOrNew w a
      split
      all_goals exact ⟨hb.logs, hb.logSize, hb.refund⟩
    | setBalance a amount | setNonce a nonce | setCode a code =>
      cases h
      have hb := SameBeside.getOrNew w a
      exact ⟨hb.logs, hb.logSize, hb.refund⟩
    | createAccount a =>
      cases h
      exact ⟨rfl, rfl, rfl⟩
    | suicide a =>
      cases h
      split <;> exact ⟨rfl, rfl, rfl⟩
    | _ => cases hop
  · cases h
    split <;> exact ⟨rfl, rfl, rfl⟩

end MxtChain.Vm
