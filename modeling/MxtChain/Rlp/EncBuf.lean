/-
# MxtChain.Rlp.EncBuf — the buffer of the encoder, with its list headers out of line.

`encbuf` of `rlp/encode.go` appends strings to `str` and keeps every list header apart, in `lheads`,
with the offset in `str` at which it belongs; the size of a list is known only at `listEnd`, from
the bytes written since. `toBytes` puts the headers where they belong.

The result is `EncodeToBytes_eq`: what comes out is the encoding `encode` of the value tree. What
one writer adds to a buffer is said by `Writes`, which composes (`Writes.append`) and which a pair
of `list` and `listEnd` carries from the members of a list to the list (`Writes.enclose`).
-/
import MxtChain.Rlp.Raw

namespace MxtChain.Rlp

open List

/-! ## §1 — the buffer. -/

/-- `intsize`: the number of bytes needed to represent `i`. -/
def intsize (i : Nat) : Nat :=
  if i < 256 then 1 else intsize (i / 256) + 1
termination_by i
decreasing_by omega

/-- `listhead`: where a list header belongs in the string data. While the list is open, `size` is
the total size of the headers when it was opened. -/
structure ListHead where
  offset : Nat
  size : Nat

def ListHead.encode (head : ListHead) : Bytes := puthead 0xC0 0xF7 head.size

/-- `encbuf`: the string data, the list headers, and how many bytes the headers take. -/
structure EncBuf where
  str : Bytes
  lheads : List ListHead
  lhsize : Nat

namespace EncBuf

def reset : EncBuf := ⟨[], [], 0⟩

def size (w : EncBuf) : Nat := w.str.length + w.lhsize

/-- `encbuf.Write`. -/
def write (w : EncBuf) (b : Bytes) : EncBuf := { w with str := w.str ++ b }

def encodeStringHeader (w : EncBuf) (size : Nat) : EncBuf :=
  if size < 56 then w.write [0x80 + UInt8.ofNat size]
  else w.write ((0xB7 + UInt8.ofNat (putint size).length) :: putint size)

def encodeString (w : EncBuf) (b : Bytes) : EncBuf :=
  match b with
  | [x] => if x ≤ 0x7F then w.write [x] else (w.encodeStringHeader 1).write [x]
  | b => (w.encodeStringHeader b.length).write b

/-- `encbuf.list`: opens a list; the index names its header. -/
def list (w : EncBuf) : EncBuf × Nat :=
  ({ w with lheads := w.lheads ++ [⟨w.str.length, w.lhsize⟩] }, w.lheads.length)

/-- `encbuf.listEnd`: closes the list with header `index`. -/
def listEnd (w : EncBuf) (index : Nat) : EncBuf :=
  match w.lheads[index]? with
  | none => w
  | some lh =>
    let size := w.size - lh.offset - lh.size
    { w with
      lheads := w.lheads.set index ⟨lh.offset, size⟩
      lhsize := if size < 56 then w.lhsize + 1 else w.lhsize + (1 + intsize size) }

/-- The loop of `encbuf.toBytes`: the string data before each header, then the header. -/
def toBytesLoop (str : Bytes) : List ListHead → Nat → Bytes → Bytes
  | [], strpos, out => out ++ str.drop strpos
  | head :: rest, strpos, out =>
    let piece := (str.take head.offset).drop strpos
    toBytesLoop str rest (strpos + piece.length) (out ++ piece ++ head.encode)

/-- `encbuf.toBytes`: the pieces are copied into a buffer of `size` zero bytes. -/
def toBytes (w : EncBuf) : Bytes :=
  (toBytesLoop w.str w.lheads 0 [] ++ replicate w.size 0).take w.size

end EncBuf

mutual

/-- The writer for a value tree: `writeBytes` for a string, the slice writer for a list. -/
def writer : Item → EncBuf → EncBuf
  | .str b, w => w.encodeString b
  | .list items, w => (writeElems items w.list.1).listEnd w.list.2

/-- The loop of the slice writer. -/
def writeElems : List Item → EncBuf → EncBuf
  | [], w => w
  | item :: rest, w => writeElems rest (writer item w)

end

def EncodeToBytes (v : Item) : Bytes := (writer v EncBuf.reset).toBytes

/-! ## §2 — headers put in place. -/

/-- The string data `str`, which starts at offset `base`, with the headers put in. -/
def assemble (base : Nat) (str : Bytes) : List ListHead → Bytes
  | [] => str
  | head :: rest =>
    str.take (head.offset - base) ++
      (head.encode ++ assemble head.offset (str.drop (head.offset - base)) rest)

/-- The offsets of the headers ascend from `lo` to `hi`. -/
def Ascending (lo hi : Nat) : List ListHead → Prop
  | [] => lo ≤ hi
  | head :: rest => lo ≤ head.offset ∧ Ascending head.offset hi rest

theorem Ascending.le {lo hi : Nat} {heads : List ListHead} (h : Ascending lo hi heads) :
    lo ≤ hi := by
  induction heads generalizing lo with
  | nil => exact h
  | cons head rest ih => exact h.1.trans (ih h.2)

theorem Ascending.append {lo mid hi : Nat} {xs ys : List ListHead} (hx : Ascending lo mid xs)
    (hy : Ascending mid hi ys) : Ascending lo hi (xs ++ ys) := by
  induction xs generalizing lo with
  | nil =>
    cases ys with
    | nil => exact le_trans (show lo ≤ mid from hx) hy
    | cons y rest => exact ⟨le_trans (show lo ≤ mid from hx) hy.1, hy.2⟩
  | cons x rest ih => exact ⟨hx.1, ih hx.2⟩

theorem assemble_append {base hi : Nat} {s t : Bytes} {xs ys : List ListHead}
    (hx : Ascending base (base + s.length) xs) (hy : Ascending (base + s.length) hi ys) :
    assemble base (s ++ t) (xs ++ ys) = assemble base s xs ++ assemble (base + s.length) t ys := by
  induction xs generalizing base s with
  | nil =>
    cases ys with
    | nil => rfl
    | cons y rest =>
      have hle : base + s.length ≤ y.offset := hy.1
      have hsub : y.offset - base = s.length + (y.offset - (base + s.length)) := by omega
      simp only [nil_append, assemble, hsub, take_length_add_append,
        drop_length_add_append, append_assoc]
  | cons x rest ih =>
    obtain ⟨hlo, hrest⟩ := hx
    have hin : x.offset - base ≤ s.length := by
      have := hrest.le
      omega
    have hlen : base + s.length = x.offset + (s.drop (x.offset - base)).length := by
      rw [length_drop]
      omega
    rw [hlen] at hrest hy ⊢
    simp only [cons_append, assemble, take_append_of_le_length hin,
      drop_append_of_le_length hin, ih hrest hy, append_assoc]

/-- `toBytes` puts every header in place. -/
theorem toBytesLoop_eq (str : Bytes) (heads : List ListHead) (strpos : Nat) (out : Bytes)
    (h : Ascending strpos str.length heads) :
    EncBuf.toBytesLoop str heads strpos out = out ++ assemble strpos (str.drop strpos) heads := by
  induction heads generalizing strpos out with
  | nil => rfl
  | cons head rest ih =>
    obtain ⟨hlo, hrest⟩ := h
    have hle := hrest.le
    have hpiece : (str.take head.offset).drop strpos = (str.drop strpos).take (head.offset - strpos) :=
      drop_take ..
    have hpos : strpos + ((str.take head.offset).drop strpos).length = head.offset := by
      rw [length_drop, length_take, Nat.min_eq_left hle]
      omega
    have hdrop : (str.drop strpos).drop (head.offset - strpos) = str.drop head.offset := by
      rw [drop_drop, Nat.add_sub_cancel' hlo]
    simp only [EncBuf.toBytesLoop, assemble]
    rw [hpos, ih _ _ hrest, hpiece, hdrop, append_assoc, append_assoc]

/-! ## §3 — what a writer adds. -/

theorem intsize_eq {n i : Nat} (hlo : n = 0 ∨ 256 ^ n ≤ i) (hhi : i < 256 ^ (n + 1)) :
    intsize i = n + 1 := by
  induction n generalizing i with
  | zero => rw [intsize, if_pos (by simpa using hhi)]
  | succ n ih =>
    rw [intsize, if_neg (by omega)]
    rw [ih (.inr (by omega)) (by omega)]

theorem intsize_eq_putintSize {i : Nat} (h : i < 2 ^ 64) : intsize i = putintSize i := by
  obtain ⟨n, hn⟩ : ∃ n, putintSize i = n + 1 := ⟨putintSize i - 1, by
    have := putintSize_pos i
    omega⟩
  have hhi := lt_pow_putintSize h
  rw [hn] at hhi ⊢
  refine intsize_eq ?_ hhi
  by_cases hi : 1 ≤ i
  · have hlo := pow_putintSize_le hi
    rw [hn] at hlo
    exact .inr (by simpa using hlo)
  have : i = 0 := by omega
  subst this
  simp [putintSize] at hn
  exact .inl hn

/-- **What a writer adds.** From `w` to `w'` the buffer has grown by the bytes `enc`, some of them
string data and some of them list headers. -/
def Writes (w w' : EncBuf) (enc : Bytes) : Prop :=
  ∃ str heads lhsize, w' = ⟨w.str ++ str, w.lheads ++ heads, w.lhsize + lhsize⟩ ∧
    Ascending w.str.length (w.str.length + str.length) heads ∧
    assemble w.str.length str heads = enc ∧ str.length + lhsize = enc.length

theorem writes_refl (w : EncBuf) : Writes w w [] :=
  ⟨[], [], 0, by simp, by simp [Ascending], rfl, rfl⟩

theorem writes_write (w : EncBuf) (b : Bytes) : Writes w (w.write b) b :=
  ⟨b, [], 0, by simp [EncBuf.write], by simp [Ascending], rfl, rfl⟩

theorem Writes.append {w1 w2 w3 : EncBuf} {a b : Bytes} (h1 : Writes w1 w2 a)
    (h2 : Writes w2 w3 b) : Writes w1 w3 (a ++ b) := by
  obtain ⟨s, xs, n, rfl, hx, rfl, hn⟩ := h1
  obtain ⟨t, ys, m, rfl, hy, rfl, hm⟩ := h2
  simp only [length_append] at hx hy hm ⊢
  refine ⟨s ++ t, xs ++ ys, n + m, by simp [append_assoc, Nat.add_assoc], ?_, ?_, ?_⟩
  · rw [length_append, ← Nat.add_assoc]
    exact hx.append hy
  · exact assemble_append hx hy
  · rw [length_append, length_append]
    omega

/-- **A list around what was written**: `list` before it and `listEnd` after it put the header of
a list in front. -/
theorem Writes.enclose {w w' : EncBuf} {enc : Bytes} (h : Writes w.list.1 w' enc)
    (hfit : enc.length < 2 ^ 64) :
    Writes w (w'.listEnd w.list.2) (puthead 0xC0 0xF7 enc.length ++ enc) := by
  obtain ⟨s, xs, n, rfl, hx, rfl, hn⟩ := h
  simp only [EncBuf.list] at hx hn hfit ⊢
  generalize henc : assemble w.str.length s xs = enc at *
  have hat : (w.lheads ++ [ListHead.mk w.str.length w.lhsize] ++ xs)[w.lheads.length]? =
      some ⟨w.str.length, w.lhsize⟩ := by simp
  have hset : (w.lheads ++ [ListHead.mk w.str.length w.lhsize] ++ xs).set w.lheads.length
      ⟨w.str.length, enc.length⟩ = w.lheads ++ ⟨w.str.length, enc.length⟩ :: xs := by
    simp [set_append_right]
  have hsize : (⟨w.str ++ s, w.lheads ++ [⟨w.str.length, w.lhsize⟩] ++ xs, w.lhsize + n⟩ :
      EncBuf).size - w.str.length - w.lhsize = enc.length := by
    simp only [EncBuf.size, length_append]
    omega
  have hhead : (puthead 0xC0 0xF7 enc.length).length =
      if enc.length < 56 then 1 else 1 + intsize enc.length := by
    unfold puthead
    split
    · rfl
    · rw [length_cons, length_putint, intsize_eq_putintSize hfit, Nat.add_comm]
  refine ⟨s, ⟨w.str.length, enc.length⟩ :: xs,
    n + (puthead 0xC0 0xF7 enc.length).length, ?_, ⟨le_refl _, hx⟩, ?_, ?_⟩
  · simp only [EncBuf.listEnd, hat, hsize, hset, hhead]
    split <;> simp [Nat.add_assoc]
  · simp [assemble, ListHead.encode, henc]
  · rw [length_append]
    omega

theorem writes_encodeStringHeader (w : EncBuf) (n : Nat) :
    Writes w (w.encodeStringHeader n) (puthead 0x80 0xB7 n) := by
  unfold EncBuf.encodeStringHeader puthead
  split <;> exact writes_write w _

theorem writes_encodeString (w : EncBuf) (b : Bytes) :
    Writes w (w.encodeString b) (encodeString b) := by
  match b with
  | [] => exact (writes_encodeStringHeader w 0).append (writes_write _ [])
  | [x] =>
    simp only [EncBuf.encodeString, encodeString]
    split
    · exact writes_write w [x]
    · exact (writes_encodeStringHeader w 1).append (writes_write _ [x])
  | x :: y :: rest =>
    exact (writes_encodeStringHeader w _).append (writes_write _ (x :: y :: rest))

mutual

/-- **A writer adds the encoding of its value.** -/
theorem writes_writer : ∀ (v : Item) (w : EncBuf), (contentOf v).length < 2 ^ 64 →
    Writes w (writer v w) (encode v)
  | .str b, w, _ => writes_encodeString w b
  | .list items, w, hfit => (writes_writeElems items w.list.1 hfit).enclose hfit

theorem writes_writeElems : ∀ (items : List Item) (w : EncBuf),
    (encodeList items).length < 2 ^ 64 → Writes w (writeElems items w) (encodeList items)
  | [], w, _ => writes_refl w
  | item :: rest, w, hfit => by
    rw [encodeList_cons, length_append] at hfit
    have hitem := length_contentOf_le item
    exact (writes_writer item w (by omega)).append
      (writes_writeElems rest (writer item w) (by omega))

end

/-- **`EncodeToBytes` is the encoding** of the value tree. -/
theorem EncodeToBytes_eq {v : Item} (hfit : (contentOf v).length < 2 ^ 64) :
    EncodeToBytes v = encode v := by
  obtain ⟨str, heads, lhsize, hw, hasc, henc, hlen⟩ := writes_writer v EncBuf.reset hfit
  simp only [EncBuf.reset, nil_append, length_nil, Nat.zero_add] at hw hasc henc
  have hloop : EncBuf.toBytesLoop str heads 0 [] = encode v := by
    rw [toBytesLoop_eq str heads 0 [] hasc, drop_zero, henc, nil_append]
  have hsize : (writer v EncBuf.reset).size = (encode v).length := by
    rw [EncBuf.reset, hw, ← hlen, EncBuf.size]
  rw [EncodeToBytes, EncBuf.toBytes, hsize, EncBuf.reset, hw, hloop, take_left]

end MxtChain.Rlp
