/-
# MxtChain.Rlp.Encode — the bytes that `rlp.EncodeToBytes` produces for a value tree.

The encoder of `rlp/encode.go` walks a value and emits strings and lists. What it emits is a
function of the tree of strings and lists alone, `Item`; the out-of-line list headers of `encbuf`
are an implementation of `puthead` in front of a list's contents.
-/
import MxtChain.Common.Types

namespace MxtChain.Rlp

open List

/-- A value as RLP sees it: a byte string, or a list of values. -/
inductive Item where
  | str (b : Bytes) : Item
  | list (items : List Item) : Item

/-! ## §1 — integers and headers. -/

/-- The last `n` bytes of `i`, most significant first: `byte(i >> 8*(n-1)), …, byte(i)`. -/
def bigEndian : Nat → Nat → Bytes
  | 0, _ => []
  | n + 1, i => UInt8.ofNat (i >>> (8 * n)) :: bigEndian n i

/-- The number of bytes that the `switch` of `putint` picks for `i`. -/
def putintSize (i : Nat) : Nat :=
  if i < 2 ^ 8 then 1
  else if i < 2 ^ 16 then 2
  else if i < 2 ^ 24 then 3
  else if i < 2 ^ 32 then 4
  else if i < 2 ^ 40 then 5
  else if i < 2 ^ 48 then 6
  else if i < 2 ^ 56 then 7
  else 8

/-- `putint`: `i` in big endian byte order, in the least number of bytes. -/
def putint (i : Nat) : Bytes := bigEndian (putintSize i) i

/-- `puthead`: the header of a string or list of `size` content bytes. -/
def puthead (smalltag largetag : UInt8) (size : Nat) : Bytes :=
  if size < 56 then [smalltag + UInt8.ofNat size]
  else (largetag + UInt8.ofNat (putint size).length) :: putint size

def encodeString (b : Bytes) : Bytes :=
  match b with
  | [x] => if x ≤ 0x7F then [x] else puthead 0x80 0xB7 1 ++ [x]
  | b => puthead 0x80 0xB7 b.length ++ b

mutual

/-- The encoding of a value tree. -/
def encode : Item → Bytes
  | .str b => encodeString b
  | .list items => puthead 0xC0 0xF7 (encodeList items).length ++ encodeList items

/-- The encodings of the members of a list, one after the other. -/
def encodeList : List Item → Bytes
  | [] => []
  | item :: rest => encode item ++ encodeList rest

end

@[simp] theorem encodeList_nil : encodeList [] = [] := rfl

@[simp] theorem encodeList_cons (item : Item) (rest : List Item) :
    encodeList (item :: rest) = encode item ++ encodeList rest := rfl

theorem encodeList_append (xs ys : List Item) :
    encodeList (xs ++ ys) = encodeList xs ++ encodeList ys := by
  induction xs with
  | nil => rfl
  | cons x xs ih => rw [cons_append, encodeList_cons, encodeList_cons, ih, append_assoc]

theorem encode_str (b : Bytes) : encode (.str b) = encodeString b := rfl

theorem encode_list (items : List Item) :
    encode (.list items) = puthead 0xC0 0xF7 (encodeList items).length ++ encodeList items := rfl

/-! ## §2 — big endian integers read back. -/

/-- The integer that a big endian byte string spells. -/
def ofBigEndian : Bytes → Nat
  | [] => 0
  | b :: rest => b.toNat * 256 ^ rest.length + ofBigEndian rest

@[simp] theorem length_bigEndian (n i : Nat) : (bigEndian n i).length = n := by
  induction n with
  | zero => rfl
  | succ n ih => simp [bigEndian, ih]

theorem shiftRight_bytes (i n : Nat) : i >>> (8 * n) = i / 256 ^ n := by
  rw [Nat.shiftRight_eq_div_pow, pow_mul]
  norm_num

theorem ofBigEndian_bigEndian (n i : Nat) : ofBigEndian (bigEndian n i) = i % 256 ^ n := by
  induction n with
  | zero => simp [bigEndian, ofBigEndian, Nat.mod_one]
  | succ n ih =>
    have hpow : 256 ^ (n + 1) = 256 ^ n * 256 := pow_succ 256 n
    simp only [bigEndian, ofBigEndian, length_bigEndian, ih, shiftRight_bytes, UInt8.toNat_ofNat']
    rw [hpow, Nat.mod_mul]
    ring

theorem putintSize_pos (i : Nat) : 1 ≤ putintSize i := by
  unfold putintSize
  split_ifs <;> omega

theorem putintSize_le (i : Nat) : putintSize i ≤ 8 := by
  unfold putintSize
  split_ifs <;> omega

theorem lt_pow_putintSize {i : Nat} (h : i < 2 ^ 64) : i < 256 ^ putintSize i := by
  unfold putintSize
  split_ifs <;> norm_num <;> omega

theorem pow_putintSize_le {i : Nat} (h : 1 ≤ i) : 256 ^ (putintSize i - 1) ≤ i := by
  unfold putintSize
  split_ifs <;> norm_num <;> omega

@[simp] theorem length_putint (i : Nat) : (putint i).length = putintSize i :=
  length_bigEndian _ _

/-- **`putint` reads back** below `2 ^ 64`. -/
theorem ofBigEndian_putint {i : Nat} (h : i < 2 ^ 64) : ofBigEndian (putint i) = i := by
  rw [putint, ofBigEndian_bigEndian, Nat.mod_eq_of_lt (lt_pow_putintSize h)]

/-- The first byte that `putint` writes is not zero. -/
theorem putint_head {i : Nat} (h1 : 1 ≤ i) (h : i < 2 ^ 64) :
    ∃ b rest, putint i = b :: rest ∧ b ≠ 0 := by
  obtain ⟨n, hn⟩ : ∃ n, putintSize i = n + 1 := ⟨putintSize i - 1, by
    have := putintSize_pos i
    omega⟩
  refine ⟨UInt8.ofNat (i >>> (8 * n)), bigEndian n i, by rw [putint, hn, bigEndian], ?_⟩
  have hlo := pow_putintSize_le h1
  have hhi := lt_pow_putintSize h
  rw [hn, Nat.add_sub_cancel] at hlo
  rw [hn, pow_succ] at hhi
  have hlt : i / 256 ^ n < 256 := Nat.div_lt_of_lt_mul hhi
  intro hz
  have := congrArg UInt8.toNat hz
  rw [shiftRight_bytes, UInt8.toNat_ofNat', Nat.mod_eq_of_lt (by simpa using hlt)] at this
  simp at this
  omega

/-! ## §3 — how long an encoding is. -/

theorem length_puthead_le (s l : UInt8) (n : Nat) : (puthead s l n).length ≤ 9 := by
  unfold puthead
  split
  · simp
  · rw [length_cons, length_putint]
    have := putintSize_le n
    omega

theorem length_encodeString_le (b : Bytes) : (encodeString b).length ≤ b.length + 9 := by
  unfold encodeString
  split
  · split
    · simp
    · simp [puthead]
  · rw [length_append]
    have := length_puthead_le 0x80 0xB7 b.length
    omega

theorem length_encodeString_hash (h : Hash) : (encodeString h.bytes).length = 33 := by
  have hl := h.length_bytes
  unfold encodeString
  split
  · rename_i x hx
    rw [hx] at hl
    simp at hl
  · rw [length_append, hl]
    rfl

theorem length_encode_list_le (items : List Item) :
    (encode (.list items)).length ≤ (encodeList items).length + 9 := by
  rw [encode_list, length_append]
  have := length_puthead_le 0xC0 0xF7 (encodeList items).length
  omega

theorem length_encodeList_le_sum (items : List Item) (n : Nat)
    (h : ∀ x ∈ items, (encode x).length ≤ n) : (encodeList items).length ≤ items.length * n := by
  induction items with
  | nil => simp
  | cons x rest ih =>
    have hx := h x mem_cons_self
    have hr := ih fun y hy => h y (mem_cons_of_mem _ hy)
    rw [encodeList_cons, length_append, length_cons, Nat.succ_mul]
    omega

end MxtChain.Rlp
