/-
# MxtChain.Core.TransactionSigning — who has signed a transaction.

A signer of `core/types/transaction_signing.go` hashes a transaction, puts the signature into it and
finds the sender again. With `EIP155Signer` the chain id is hashed, and `V` carries it: another
chain refuses the transaction. The chain id zero is left out of `V` and is hashed nevertheless, so
that the sender is looked for under another hash than the one that was signed.
-/
import MxtChain.Rlp.Canonical
import MxtChain.Rlp.EncReader

namespace MxtChain.Core.Types

open Rlp

/-! ## §1 — The code -/

/-- `txdata`, without what is for JSON only. -/
structure Transaction where
  AccountNonce : UInt64
  Price : Int
  GasLimit : UInt64
  Recipient : Option Address
  Amount : Int
  Payload : Bytes
  V : Int := 0
  R : Int := 0
  S : Int := 0

inductive SignerErr where
  | ErrInvalidSig
  | ErrInvalidChainId
  | invalidPublicKey
  | recoveryFailed
  deriving DecidableEq

/-- A signature in the `[R || S || V]` format: two numbers of 32 bytes and a byte. -/
structure Signature where
  R : Nat
  S : Nat
  V : UInt8
  deriving DecidableEq

def secp256k1N : Nat := 0xfffffffffffffffffffffffffffffffebaaedce6af48a03bbfd25e8cd0364141

def secp256k1halfN : Nat := secp256k1N / 2

/-- The address of a public key in uncompressed format. -/
def addressOf (Keccak256 : Bytes → Hash) (pub : Bytes) : Address :=
  .ofBytes ((Keccak256 pub.tail).bytes.drop 12)

/-- **The package `crypto`**, with what is assumed of it: a signature is in range, with a low `S`, and
recovers the public key of the one who signed, for the hash that was signed and no other. -/
structure Crypto (Key : Type) where
  Keccak256 : Bytes → Hash
  Sign : Hash → Key → Signature
  Ecrecover : Hash → Signature → Except SignerErr Bytes
  pubkey : Key → Bytes
  R_mem (h k) : 1 ≤ (Sign h k).R ∧ (Sign h k).R < secp256k1N
  S_mem (h k) : 1 ≤ (Sign h k).S ∧ (Sign h k).S ≤ secp256k1halfN
  V_mem (h k) : (Sign h k).V = 0 ∨ (Sign h k).V = 1
  uncompressed (k) : (pubkey k).head? = some 4
  recover_sign (h k) : Ecrecover h (Sign h k) = .ok (pubkey k)
  recover_other (h h' k pub) : Ecrecover h' (Sign h k) = .ok pub →
    addressOf Keccak256 pub = addressOf Keccak256 (pubkey k) → h' = h

def ValidateSignatureValues (v : UInt8) (r s : Int) (homestead : Bool) : Bool :=
  if r < 1 ∨ s < 1 then false
  else if homestead ∧ s > secp256k1halfN then false
  else r < secp256k1N ∧ s < secp256k1N ∧ (v = 0 ∨ v = 1)

def isProtectedV (V : Int) : Bool :=
  if V.natAbs.size ≤ 8 then V.natAbs ≠ 27 ∧ V.natAbs ≠ 28 else true

def deriveChainId (v : Int) : Int :=
  if v.natAbs.size ≤ 64 then
    let v := UInt64.ofNat v.natAbs
    if v = 27 ∨ v = 28 then 0 else ((v - 35) / 2).toNat
  else (v - 35) / 2

def Transaction.fields (tx : Transaction) : List Value :=
  [.uint tx.AccountNonce, .bigInt tx.Price, .uint tx.GasLimit,
    tx.Recipient.elim (.nilPtr .string) fun a => .ptr (.byteArray false a.bytes),
    .bigInt tx.Amount, .bytes tx.Payload]

namespace Crypto

variable {Key : Type} (crypto : Crypto Key)

/-- `rlpHash`: what cannot be encoded is not written. -/
def rlpHash (x : List Value) : Hash :=
  crypto.Keccak256 ((Value.slice false (x.map .interface)).EncodeToBytes.toOption.getD [])

/-- `HomesteadSigner.Hash`, which is that of `FrontierSigner`. -/
def homesteadHash (tx : Transaction) : Hash := crypto.rlpHash tx.fields

def Hash (chainId : Nat) (tx : Transaction) : Hash :=
  crypto.rlpHash (tx.fields ++ [.bigInt (chainId : Int), .uint 0, .uint 0])

/-- The end of `recoverPlain`: from the signature to the address. -/
def recover (sighash : MxtChain.Hash) (sig : Signature) : Except SignerErr Address := do
  let pub ← crypto.Ecrecover sighash sig
  if pub.head? ≠ some 4 then throw .invalidPublicKey
  return addressOf crypto.Keccak256 pub

def recoverPlain (sighash : MxtChain.Hash) (R S Vb : Int) (homestead : Bool) :
    Except SignerErr Address :=
  if Vb.natAbs.size > 8 then .error .ErrInvalidSig
  else
    let V := (UInt64.ofNat Vb.natAbs - 27).toUInt8
    if !ValidateSignatureValues V R S homestead then .error .ErrInvalidSig
    else crypto.recover sighash ⟨R.toNat, S.toNat, V⟩

def SignatureValues (chainId : Nat) (sig : Signature) : Int × Int × Int :=
  (sig.R, sig.S, if chainId ≠ 0 then (sig.V + 35).toNat + chainId * 2 else (sig.V + 27).toNat)

def SignTx (tx : Transaction) (chainId : Nat) (prv : Key) : Transaction :=
  let (R, S, V) := SignatureValues chainId (crypto.Sign (crypto.Hash chainId tx) prv)
  { tx with R, S, V }

def Sender (chainId : Nat) (tx : Transaction) : Except SignerErr Address :=
  if !isProtectedV tx.V then crypto.recoverPlain (crypto.homesteadHash tx) tx.R tx.S tx.V true
  else if deriveChainId tx.V ≠ chainId then .error .ErrInvalidChainId
  else crypto.recoverPlain (crypto.Hash chainId tx) tx.R tx.S (tx.V - chainId * 2 - 8) true

/-! ## §2 — The round trip -/

variable {crypto} {tx : Transaction} {c : Nat} {prv : Key} {h h' : MxtChain.Hash}

theorem recover_self : crypto.recover h (crypto.Sign h prv) =
    .ok (addressOf crypto.Keccak256 (crypto.pubkey prv)) := by
  simp [recover, crypto.recover_sign, crypto.uncompressed, bind, Except.bind, pure, Except.pure]

theorem hash_of_recover (hr : crypto.recover h' (crypto.Sign h prv) =
    .ok (addressOf crypto.Keccak256 (crypto.pubkey prv))) : h' = h := by
  obtain ⟨pub, hpub, hrest⟩ := Lib.bind_ok.mp hr
  split_ifs at hrest
  · cases hrest
  · exact crypto.recover_other h h' prv pub hpub (Except.ok.inj hrest)

theorem byte_of_bit {v : UInt8} (hv : v = 0 ∨ v = 1) : (v.toNat + 27 : Int).natAbs.size ≤ 8 ∧
    (UInt64.ofNat (v.toNat + 27 : Int).natAbs - 27).toUInt8 = v := by
  rcases hv with rfl | rfl <;> decide

/-- A signature passes the checks of `recoverPlain`. -/
theorem recoverPlain_sign : crypto.recoverPlain h' (crypto.Sign h prv).R (crypto.Sign h prv).S
    ((crypto.Sign h prv).V.toNat + 27) true = crypto.recover h' (crypto.Sign h prv) := by
  have hR := crypto.R_mem h prv
  have hS := crypto.S_mem h prv
  have hhalf : secp256k1halfN < secp256k1N := by decide
  have hV := crypto.V_mem h prv
  have hvalid : ValidateSignatureValues (crypto.Sign h prv).V (crypto.Sign h prv).R
      (crypto.Sign h prv).S true = true := by
    rw [ValidateSignatureValues, if_neg (by omega), if_neg (by simp; omega), decide_eq_true_iff]
    exact ⟨by omega, by omega, hV⟩
  obtain ⟨hsize, hbyte⟩ := byte_of_bit hV
  simp only [recoverPlain, if_neg (not_lt.mpr hsize), hbyte, hvalid, Bool.not_true,
    Bool.false_eq_true, if_false, Int.toNat_natCast]

/-- `V` is not taken for that of an unprotected transaction, -/
theorem isProtectedV_signed {b : Nat} : isProtectedV ((b + 35 : Nat) + c * 2) = true := by
  unfold isProtectedV
  split_ifs
  · rw [decide_eq_true_iff]
    omega
  · rfl

/-- and it says which chain it is for. -/
theorem deriveChainId_signed {b : Nat} (hb : b ≤ 1) :
    deriveChainId ((b + 35 : Nat) + c * 2) = c := by
  unfold deriveChainId
  split_ifs with hsize
  · have habs : (((b + 35 : Nat) : Int) + c * 2).natAbs = b + 35 + c * 2 := by omega
    rw [habs] at hsize ⊢
    have hlt := Nat.size_le.mp hsize
    have hval : (UInt64.ofNat (b + 35 + c * 2)).toNat = b + 35 + c * 2 := Nat.mod_eq_of_lt hlt
    have hle : (35 : UInt64) ≤ UInt64.ofNat (b + 35 + c * 2) := by
      rw [UInt64.le_iff_toNat_le, hval]
      change 35 ≤ _
      omega
    dsimp only
    rw [if_neg, UInt64.toNat_div, UInt64.toNat_sub_of_le _ _ hle, hval]
    · change ((b + 35 + c * 2 - 35) / 2 : Nat) = (c : Int)
      omega
    · rintro (heq | heq) <;> rw [heq] at hle <;> exact absurd hle (by decide)
  · omega

theorem V_signed (hc : c ≠ 0) : ∃ b ≤ 1, (crypto.SignTx tx c prv).V = (b + 35 : Nat) + c * 2 ∧
    b = (crypto.Sign (crypto.Hash c tx) prv).V.toNat := by
  simp only [SignTx, SignatureValues, if_pos hc]
  rcases crypto.V_mem (crypto.Hash c tx) prv with h | h <;> rw [h]
  · exact ⟨0, zero_le_one, rfl, rfl⟩
  · exact ⟨1, le_rfl, rfl, rfl⟩

/-- **The sender of what was signed for a chain**, on any chain. -/
theorem Sender_signed (hc : c ≠ 0) (c' : Nat) : crypto.Sender c' (crypto.SignTx tx c prv) =
    if c = c' then .ok (addressOf crypto.Keccak256 (crypto.pubkey prv))
    else .error .ErrInvalidChainId := by
  obtain ⟨b, hb, hV, hbit⟩ := V_signed hc
  rw [Sender, hV, isProtectedV_signed, deriveChainId_signed hb]
  by_cases heq : c = c'
  · subst heq
    rw [if_pos rfl, ← recover_self (h := crypto.Hash c tx), ← recoverPlain_sign]
    have hV' : ((b + 35 : Nat) + c * 2 - c * 2 - 8 : Int) =
        (crypto.Sign (crypto.Hash c tx) prv).V.toNat + 27 := by omega
    rw [hV', if_neg (by decide), if_neg (not_not.mpr rfl)]
    rfl
  · rw [if_neg heq, if_neg (by decide), if_pos (mod_cast heq)]

theorem V_zero : (crypto.SignTx tx 0 prv).V = (crypto.Sign (crypto.Hash 0 tx) prv).V.toNat + 27 ∧
    isProtectedV (crypto.SignTx tx 0 prv).V = false := by
  simp only [SignTx, SignatureValues]
  rcases crypto.V_mem (crypto.Hash 0 tx) prv with h | h <;> rw [h] <;> decide

/-- The sender of what was signed for the chain zero is recovered for another hash. -/
theorem Sender_zero : crypto.Sender 0 (crypto.SignTx tx 0 prv) =
    crypto.recover (crypto.homesteadHash tx) (crypto.Sign (crypto.Hash 0 tx) prv) := by
  rw [← recoverPlain_sign, ← V_zero.1, Sender, V_zero.2]
  rfl

/-- **The round trip and the protection**: the signer finds the one who signed, and that of another
chain finds nobody in a protected transaction. -/
structure RoundTrip (crypto : Crypto Key) (tx : Transaction) (c : Nat) (prv : Key) : Prop where
  same : crypto.Sender c (crypto.SignTx tx c prv) =
    .ok (addressOf crypto.Keccak256 (crypto.pubkey prv))
  other : ∀ c' a, isProtectedV (crypto.SignTx tx c prv).V = true →
    crypto.Sender c' (crypto.SignTx tx c prv) = .ok a → c = c'

end Crypto

/-- A scheme with one key, whose signature of a hash is the hash. -/
def plain : Crypto Unit where
  Keccak256 b := .ofBytes b
  Sign h _ := ⟨ofBigEndian h.bytes / 2 + 1, ofBigEndian h.bytes % 2 + 1, 0⟩
  Ecrecover h sig :=
    if sig.R = ofBigEndian h.bytes / 2 + 1 ∧ sig.S = ofBigEndian h.bytes % 2 + 1 then .ok [4]
    else .error .recoveryFailed
  pubkey _ := [4]
  R_mem h _ := by
    have hlt := ofBigEndian_lt h.bytes
    rw [h.length_bytes] at hlt
    simp only [secp256k1N]
    omega
  S_mem h _ := by
    simp only [secp256k1halfN, secp256k1N]
    omega
  V_mem _ _ := .inl rfl
  uncompressed _ := rfl
  recover_sign _ _ := if_pos ⟨rfl, rfl⟩
  recover_other h h' _ _ hpub _ := by
    split_ifs at hpub with heq
    · have hn : ofBigEndian h'.bytes = ofBigEndian h.bytes := by
        simp only at heq
        omega
      have hbytes := bigEndian_ofBigEndian_add h'.bytes 0
      rw [hn, h'.length_bytes, ← h.length_bytes, bigEndian_ofBigEndian_add] at hbytes
      exact MxtChain.Hash.ext_bytes hbytes.symm

def creation : Transaction := ⟨0, 1, 53000, none, 0, [], 0, 0, 0⟩

end MxtChain.Core.Types
