/-
# MxtChain.Rlp.Values — the writers of the encoder, for every kind of value.

`makeWriter` of `rlp/encode.go` picks a writer by the type of a value; `Value` has one constructor
for each case it distinguishes, and `Value.writer` is the writer that is picked. A value of a type
that no writer exists for is not a `Value`.

The result is `Value.writes`: a writer that succeeds adds the bytes `Value.encoding` to the buffer,
in which a list is the header that states the length of its contents, followed by the contents.
It rides on the rules of `Writes`, in particular on `Writes.enclose` for `list` and `listEnd`.
-/
import MxtChain.Rlp.EncBuf
import MxtChain.Lib.Except
import Mathlib.Data.Nat.Digits.Defs
import Mathlib.Data.Nat.Digits.Lemmas
import Mathlib.Data.Nat.Size

namespace MxtChain.Rlp

open Lib List

/-! ## §1 — integers. -/

namespace EncBuf

def encodeUint (w : EncBuf) (i : Nat) : EncBuf :=
  if i = 0 then w.write [0x80]
  else if i < 128 then w.write [UInt8.ofNat i]
  else w.write ((0x80 + UInt8.ofNat (putint i).length) :: putint i)

end EncBuf

/-- The number of bytes in a `big.Word`. -/
def wordBytes : Nat := 8

/-- `big.Int.Bits`: the words of `i`, the least significant one first. -/
def bits (i : Nat) : List Nat := Nat.digits (2 ^ 64) i

/-- The inner loop of `writeBigInt`: at most `j` bytes of the word `d` are put in front of
`index`. -/
def fillWord : Nat → Bytes → Nat → Nat → Bytes × Nat
  | 0, buf, index, _ => (buf, index)
  | j + 1, buf, index, d =>
    if index = 0 then (buf, index)
    else fillWord j (buf.set (index - 1) (UInt8.ofNat d)) (index - 1) (d >>> 8)

/-- The loops of `writeBigInt` over the words. -/
def fillWords : List Nat → Bytes → Nat → Bytes
  | [], buf, _ => buf
  | d :: rest, buf, index =>
    fillWords rest (fillWord wordBytes buf index d).1 (fillWord wordBytes buf index d).2

inductive EncodeError where
  | negativeBigInt
  /-- The value has `EncodeRLP` on its pointer and no address. -/
  | unaddressable
  deriving DecidableEq

def writeBigInt (i : Int) (w : EncBuf) : Except EncodeError EncBuf :=
  if i < 0 then .error .negativeBigInt
  else
    let bitlen := i.toNat.size
    if bitlen ≤ 64 then .ok (w.encodeUint i.toNat)
    else
      let length := ((bitlen + 7) / 8 * 8) >>> 3
      .ok ((w.encodeStringHeader length).write
        (fillWords (bits i.toNat) (replicate length 0) length))

def writeBigIntPtr (i : Option Int) (w : EncBuf) : Except EncodeError EncBuf :=
  match i with
  | none => .ok (w.write [0x80])
  | some i => writeBigInt i w

/-! ## §2 — values and their writers. -/

/-- A value, by the case of `makeWriter` that its type falls into. -/
inductive Value where
  | rawValue (b : Bytes)
  /-- A `*big.Int` or `big.Int`. -/
  | bigInt (i : Option Int)
  | uint (i : UInt64)
  | bool (b : Bool)
  | string (s : Bytes)
  /-- A slice of bytes. -/
  | bytes (b : Bytes)
  /-- An array of bytes; `named` if the type of the elements is not `byte` itself. -/
  | byteArray (named : Bool) (b : Bytes)
  /-- A slice or array; `tail` if its struct tag says so. -/
  | slice (tail : Bool) (elems : List Value)
  /-- A struct, with the fields that are not ignored. -/
  | struct (fields : List Value)
  /-- A nil pointer; the kind comes from the struct tag or the type. -/
  | nilPtr (nilKind : Kind)
  | ptr (v : Value)
  | nilInterface
  | interface (v : Value)
  /-- A value with `EncodeRLP`: the values it gives to `Encode`, one after the other. What it
  gives to `Write` counts as a `rawValue`. -/
  | encoder (parts : List Value)
  /-- A value without an address that has `EncodeRLP` on its pointer. -/
  | unaddressable

/-- `makeByteArrayWriter`. -/
def writeByteArray (named : Bool) (b : Bytes) (w : EncBuf) : EncBuf :=
  match b with
  | [] => w.write [0x80]
  | [x] => if x ≤ 0x7f then w.write [x] else w.write [0x81, x]
  | b => if named then w.encodeString b else (w.encodeStringHeader b.length).write b

mutual

def Value.writer : Value → EncBuf → Except EncodeError EncBuf
  | .rawValue b, w => .ok (w.write b)
  | .bigInt i, w => writeBigIntPtr i w
  | .uint i, w => .ok (w.encodeUint i.toNat)
  | .bool b, w => .ok (w.write (if b then [0x01] else [0x80]))
  | .string s, w => .ok (w.encodeString s)
  | .bytes b, w => .ok (w.encodeString b)
  | .byteArray named b, w => .ok (writeByteArray named b w)
  | .slice tail elems, w =>
    if tail then Value.writeAll elems w
    else (Value.writeAll elems w.list.1).map fun w' => w'.listEnd w.list.2
  | .struct fields, w => (Value.writeAll fields w.list.1).map fun w' => w'.listEnd w.list.2
  | .nilPtr nilKind, w =>
    .ok (if nilKind = .string then w.write [0x80] else w.list.1.listEnd w.list.2)
  | .ptr v, w => v.writer w
  | .nilInterface, w => .ok (w.write [0xC0])
  | .interface v, w => v.writer w
  | .encoder parts, w => Value.writeAll parts w
  | .unaddressable, _ => .error .unaddressable

/-- The values one after the other, up to the first error. -/
def Value.writeAll : List Value → EncBuf → Except EncodeError EncBuf
  | [], w => .ok w
  | v :: rest, w => v.writer w >>= Value.writeAll rest

end

/-! ## §3 — the encoding. -/

/-- A non-negative integer in big endian byte order without leading zero bytes. -/
def minimalBytes (i : Nat) : Bytes := bigEndian ((i.size + 7) / 8) i

/-- The bytes of a list: the header states the length of the contents. -/
def announce (content : Bytes) : Bytes := puthead 0xC0 0xF7 content.length ++ content

/-- The encoding of an optional big integer. -/
def bigIntEncoding : Option Int → Except EncodeError Bytes
  | none => .ok (encodeString [])
  | some i =>
    if i < 0 then .error .negativeBigInt else .ok (encodeString (minimalBytes i.toNat))

mutual

/-- **What a value encodes to.** -/
def Value.encoding : Value → Except EncodeError Bytes
  | .rawValue b => .ok b
  | .bigInt i => bigIntEncoding i
  | .uint i => .ok (encodeString (minimalBytes i.toNat))
  | .bool b => .ok (encodeString (minimalBytes b.toNat))
  | .string s => .ok (encodeString s)
  | .bytes b => .ok (encodeString b)
  | .byteArray _ b => .ok (encodeString b)
  | .slice tail elems =>
    if tail then Value.encodings elems else (Value.encodings elems).map announce
  | .struct fields => (Value.encodings fields).map announce
  | .nilPtr nilKind => .ok (if nilKind = .string then encodeString [] else announce [])
  | .ptr v => v.encoding
  | .nilInterface => .ok (announce [])
  | .interface v => v.encoding
  | .encoder parts => Value.encodings parts
  | .unaddressable => .error .unaddressable

/-- The encodings of values one after the other. -/
def Value.encodings : List Value → Except EncodeError Bytes
  | [] => .ok []
  | v :: rest => do
    let b ← v.encoding
    let bs ← Value.encodings rest
    pure (b ++ bs)

end

/-! ## §4 — the integer writers. -/

/-- The bytes of a number above and below a byte position. -/
theorem bigEndian_add (m n i : Nat) :
    bigEndian (m + n) i = bigEndian m (i >>> (8 * n)) ++ bigEndian n i := by
  induction m with
  | zero => rw [Nat.zero_add, bigEndian, nil_append]
  | succ m ih =>
    rw [Nat.add_right_comm, bigEndian, bigEndian, ih, cons_append, ← Nat.shiftRight_add]
    congr 3
    ring

/-- The low bytes of a number are those of its remainder. -/
theorem bigEndian_mod {m n : Nat} (h : m ≤ n) (i : Nat) :
    bigEndian m (i % 256 ^ n) = bigEndian m i := by
  induction m with
  | zero => rfl
  | succ m ih =>
    rw [bigEndian, bigEndian, ih (by omega), shiftRight_bytes, shiftRight_bytes]
    congr 1
    obtain ⟨k, rfl⟩ := Nat.exists_eq_add_of_le h
    have hpow : 256 ^ (m + 1 + k) = 256 ^ m * (256 * 256 ^ k) := by ring
    rw [← UInt8.toNat_inj, UInt8.toNat_ofNat', UInt8.toNat_ofNat', hpow, Nat.mod_mul_right_div_self]
    exact Nat.mod_mul_right_mod (i / 256 ^ m) 256 (256 ^ k)

/-- **One word** fills the bytes in front of what is there already. -/
theorem fillWord_eq (j index d : Nat) (after : Bytes) :
    fillWord j (replicate index 0 ++ after) index d =
      (replicate (index - min j index) 0 ++ (bigEndian (min j index) d ++ after),
        index - min j index) := by
  induction j generalizing index d after with
  | zero => simp [fillWord, bigEndian]
  | succ j ih =>
    cases index with
    | zero => simp [fillWord, bigEndian]
    | succ index =>
      have hset : (replicate (index + 1) 0 ++ after).set index (UInt8.ofNat d) =
          replicate index 0 ++ ([UInt8.ofNat d] ++ after) := by
        rw [replicate_succ', append_assoc, set_append_right _ _ (by simp)]
        simp
      have hsub : index + 1 - min (j + 1) (index + 1) = index - min j index := by omega
      have hmin : min (j + 1) (index + 1) = min j index + 1 := by omega
      rw [fillWord, if_neg (by omega), Nat.add_sub_cancel, hset, ih, hsub, hmin, bigEndian_add]
      simp [bigEndian]

theorem fillWords_zero (ds : List Nat) (buf : Bytes) : fillWords ds buf 0 = buf := by
  induction ds with
  | nil => rfl
  | cons d rest ih =>
    have hnone : fillWord wordBytes buf 0 d = (buf, 0) := rfl
    rw [fillWords, hnone, ih]

/-- **All words** fill the buffer with the bytes of the integer. -/
theorem fillWords_bits (i index : Nat) (after : Bytes) (h : index ≤ 8 * (bits i).length) :
    fillWords (bits i) (replicate index 0 ++ after) index = bigEndian index i ++ after := by
  induction i using Nat.strongRecOn generalizing index after with
  | ind i ih =>
    by_cases hi : i = 0
    · subst hi
      have : index = 0 := by simpa [bits] using h
      subst this
      rfl
    have hbits : bits i = i % 2 ^ 64 :: bits (i / 2 ^ 64) :=
      Nat.digits_def' (by norm_num) (Nat.pos_of_ne_zero hi)
    have hlow : bigEndian (min wordBytes index) (i % 2 ^ 64) = bigEndian (min wordBytes index) i :=
      bigEndian_mod (n := 8) (Nat.min_le_left _ _) i
    rw [hbits, length_cons] at h
    rw [hbits, fillWords, fillWord_eq, hlow]
    by_cases hle : index ≤ wordBytes
    · -- the buffer is full after this word
      rw [Nat.min_eq_right hle, Nat.sub_self, fillWords_zero]
      rfl
    obtain ⟨rest, rfl⟩ : ∃ rest, index = rest + 8 := ⟨index - 8, by
      have : wordBytes = 8 := rfl
      omega⟩
    have hmin : min wordBytes (rest + 8) = 8 := by simp [wordBytes]
    have hshift : i >>> (8 * 8) = i / 2 ^ 64 := Nat.shiftRight_eq_div_pow i 64
    rw [hmin, Nat.add_sub_cancel, ih (i / 2 ^ 64) (Nat.div_lt_self (by omega) (by norm_num))
      rest _ (by omega), bigEndian_add, hshift, append_assoc]

theorem size_le_bits (i : Nat) : (i.size + 7) / 8 ≤ 8 * (bits i).length := by
  have hlt : i < (2 ^ 64) ^ (bits i).length := Nat.lt_base_pow_length_digits (by norm_num)
  rw [← pow_mul] at hlt
  have := Nat.size_le.mpr hlt
  omega

theorem putint_eq_minimalBytes {i : Nat} (h1 : 1 ≤ i) (h : i < 2 ^ 64) :
    putint i = minimalBytes i := by
  have hsize : ∀ k, i < 2 ^ (8 * k) → 2 ^ (8 * (k - 1)) ≤ i → 1 ≤ k → (i.size + 7) / 8 = k := by
    intro k hlt hle hk
    have hhi := Nat.size_le.mpr hlt
    have hlo := Nat.lt_size.mpr hle
    omega
  have hhi := lt_pow_putintSize h
  have hlo := pow_putintSize_le h1
  have hpow : ∀ k, (256 : Nat) ^ k = 2 ^ (8 * k) := fun k => by rw [pow_mul]; norm_num
  rw [hpow] at hhi hlo
  rw [putint, minimalBytes, hsize _ hhi hlo (putintSize_pos i)]

theorem writes_encodeUint (w : EncBuf) {i : Nat} (h : i < 2 ^ 64) :
    Writes w (w.encodeUint i) (encodeString (minimalBytes i)) := by
  unfold EncBuf.encodeUint
  by_cases h0 : i = 0
  · subst h0
    exact writes_write w [0x80]
  rw [if_neg h0, ← putint_eq_minimalBytes (by omega) h]
  by_cases h128 : i < 128
  · have hone : putint i = [UInt8.ofNat i] := by
      simp [putint, putintSize, show i < 256 by omega, bigEndian]
    have hsmall : UInt8.ofNat i ≤ 0x7F := by
      rw [UInt8.le_iff_toNat_le, UInt8.toNat_ofNat', Nat.mod_eq_of_lt (by omega)]
      exact Nat.le_of_lt_succ h128
    rw [if_pos h128, hone]
    simp only [encodeString, if_pos hsmall]
    exact writes_write w _
  rw [if_neg h128]
  have hlen := putintSize_le i
  have hhead : puthead 0x80 0xB7 (putint i).length = [0x80 + UInt8.ofNat (putint i).length] := by
    rw [puthead, if_pos (by rw [length_putint]; omega)]
  have henc : encodeString (putint i) = (0x80 + UInt8.ofNat (putint i).length) :: putint i := by
    unfold encodeString
    split
    · -- one byte of at least 128
      rename_i x hx
      have hx' : ¬ x ≤ 0x7F := by
        have hi := ofBigEndian_putint h
        rw [hx] at hi
        simp only [ofBigEndian, length_nil, pow_zero, Nat.mul_one, Nat.add_zero] at hi
        rw [UInt8.le_iff_toNat_le, hi]
        exact fun hle => h128 (Nat.lt_succ_of_le hle)
      rw [if_neg hx', hx]
      rfl
    · rw [hhead]
      rfl
  rw [henc]
  exact writes_write w _

theorem writes_writeBigInt {w w' : EncBuf} {i : Int} (h : writeBigInt i w = .ok w') :
    ¬ i < 0 ∧ Writes w w' (encodeString (minimalBytes i.toNat)) := by
  unfold writeBigInt at h
  by_cases hneg : i < 0
  · rw [if_pos hneg] at h
    cases h
  rw [if_neg hneg] at h
  refine ⟨hneg, ?_⟩
  by_cases hsmall : i.toNat.size ≤ 64
  · simp only [if_pos hsmall] at h
    obtain rfl := Except.ok.inj h
    exact writes_encodeUint w (Nat.size_le.mp hsmall)
  simp only [if_neg hsmall] at h
  obtain rfl := Except.ok.inj h
  have hlength : ((i.toNat.size + 7) / 8 * 8) >>> 3 = (i.toNat.size + 7) / 8 := by
    rw [Nat.shiftRight_eq_div_pow]
    exact Nat.mul_div_cancel _ (by norm_num)
  have hfill := fillWords_bits i.toNat _ [] (size_le_bits i.toNat)
  rw [append_nil, append_nil] at hfill
  rw [hlength, hfill]
  -- more than eight bytes: not the single byte case
  have henc : encodeString (minimalBytes i.toNat) =
      puthead 0x80 0xB7 ((i.toNat.size + 7) / 8) ++ bigEndian ((i.toNat.size + 7) / 8) i.toNat := by
    unfold encodeString
    split
    · rename_i x hx
      have := congrArg length hx
      rw [minimalBytes, length_bigEndian, length_singleton] at this
      omega
    · rw [minimalBytes, length_bigEndian]
  rw [henc]
  exact (writes_encodeStringHeader w _).append (writes_write _ _)

/-! ## §5 — what a writer adds. -/

theorem Writes.size_eq {w w' : EncBuf} {enc : Bytes} (h : Writes w w' enc) :
    w'.size = w.size + enc.length := by
  obtain ⟨str, heads, lhsize, rfl, -, -, hlen⟩ := h
  simp only [EncBuf.size, length_append]
  omega

theorem size_listEnd_le (w : EncBuf) (index : Nat) : w.size ≤ (w.listEnd index).size := by
  unfold EncBuf.listEnd
  split
  · exact le_rfl
  · refine Nat.add_le_add_left ?_ w.str.length
    dsimp only
    split <;> omega

theorem writes_byteArray (named : Bool) (b : Bytes) (w : EncBuf) :
    Writes w (writeByteArray named b w) (encodeString b) := by
  match b with
  | [] => exact writes_write w [0x80]
  | [x] =>
    simp only [writeByteArray, encodeString]
    split
    · exact writes_write w [x]
    · exact writes_write w [0x81, x]
  | x :: y :: rest =>
    simp only [writeByteArray]
    split
    · exact writes_encodeString w _
    · exact (writes_encodeStringHeader w _).append (writes_write _ (x :: y :: rest))

theorem writes_emptyList (w : EncBuf) : Writes w (w.list.1.listEnd w.list.2) (announce []) :=
  (writes_refl w.list.1).enclose (by norm_num)

/-- The contents of a list fit if the buffer does after the list. -/
theorem writes_enclosed {w w1 : EncBuf} {content : Bytes} (h : Writes w.list.1 w1 content)
    (hfit : (w1.listEnd w.list.2).size < 2 ^ 64) :
    Writes w (w1.listEnd w.list.2) (announce content) := by
  refine h.enclose ?_
  have hsize := h.size_eq
  have hle := size_listEnd_le w1 w.list.2
  omega

mutual

/-- **A writer adds the encoding of its value.** -/
theorem Value.writes : ∀ (v : Value) {w w' : EncBuf}, v.writer w = .ok w' → w'.size < 2 ^ 64 →
    ∃ enc, v.encoding = .ok enc ∧ Writes w w' enc
  | .rawValue b, w, w', h, _ => by
    obtain rfl := Except.ok.inj h
    exact ⟨b, rfl, writes_write w b⟩
  | .bigInt none, w, w', h, _ => by
    obtain rfl := Except.ok.inj h
    exact ⟨_, rfl, writes_write w [0x80]⟩
  | .bigInt (some i), w, w', h, _ => by
    obtain ⟨hneg, hw⟩ := writes_writeBigInt h
    exact ⟨_, if_neg hneg, hw⟩
  | .uint i, w, w', h, _ => by
    obtain rfl := Except.ok.inj h
    exact ⟨_, rfl, writes_encodeUint w i.toNat_lt⟩
  | .bool b, w, w', h, _ => by
    obtain rfl := Except.ok.inj h
    cases b with
    | false => exact ⟨_, rfl, writes_write w [0x80]⟩
    | true => exact ⟨_, rfl, writes_write w [0x01]⟩
  | .string s, w, w', h, _ => by
    obtain rfl := Except.ok.inj h
    exact ⟨_, rfl, writes_encodeString w s⟩
  | .bytes b, w, w', h, _ => by
    obtain rfl := Except.ok.inj h
    exact ⟨_, rfl, writes_encodeString w b⟩
  | .byteArray named b, w, w', h, _ => by
    obtain rfl := Except.ok.inj h
    exact ⟨_, rfl, writes_byteArray named b w⟩
  | .slice true elems, w, w', h, hfit => Value.writes_all elems h hfit
  | .slice false elems, w, w', h, hfit => by
    obtain ⟨w1, h₁, rfl⟩ := map_ok.mp h
    obtain ⟨content, hc, hw⟩ :=
      Value.writes_all elems h₁ ((size_listEnd_le _ _).trans_lt hfit)
    exact ⟨announce content, map_ok.mpr ⟨content, hc, rfl⟩, writes_enclosed hw hfit⟩
  | .struct fields, w, w', h, hfit => by
    obtain ⟨w1, h₁, rfl⟩ := map_ok.mp h
    obtain ⟨content, hc, hw⟩ :=
      Value.writes_all fields h₁ ((size_listEnd_le _ _).trans_lt hfit)
    exact ⟨announce content, map_ok.mpr ⟨content, hc, rfl⟩, writes_enclosed hw hfit⟩
  | .nilPtr nilKind, w, w', h, _ => by
    obtain rfl := Except.ok.inj h
    refine ⟨_, rfl, ?_⟩
    split
    · exact writes_write w [0x80]
    · exact writes_emptyList w
  | .ptr v, _, _, h, hfit => Value.writes v h hfit
  | .nilInterface, w, w', h, _ => by
    obtain rfl := Except.ok.inj h
    exact ⟨_, rfl, writes_write w [0xC0]⟩
  | .interface v, _, _, h, hfit => Value.writes v h hfit
  | .encoder parts, _, _, h, hfit => Value.writes_all parts h hfit
  | .unaddressable, _, _, h, _ => by cases h

theorem Value.writes_all : ∀ (vs : List Value) {w w' : EncBuf}, Value.writeAll vs w = .ok w' →
    w'.size < 2 ^ 64 → ∃ enc, Value.encodings vs = .ok enc ∧ Writes w w' enc
  | [], w, w', h, _ => by
    obtain rfl := Except.ok.inj h
    exact ⟨[], rfl, writes_refl w⟩
  | v :: rest, w, w', h, hfit => by
    obtain ⟨w1, h₁, h2⟩ := bind_ok.mp h
    obtain ⟨bs, hbs, hrest⟩ := Value.writes_all rest h2 hfit
    have hfit1 : w1.size < 2 ^ 64 := by
      have := hrest.size_eq
      omega
    obtain ⟨b, hb, hfirst⟩ := Value.writes v h₁ hfit1
    refine ⟨b ++ bs, ?_, hfirst.append hrest⟩
    rw [Value.encodings, hb, hbs]
    rfl

end

end MxtChain.Rlp
