/-
# MxtChain.Rlp.Raw — splitting encoded values without decoding them (`rlp/raw.go`).

`readKind` reads one header; `Split`, `SplitString`, `SplitList` and `CountValues` are built on it.
The results below say what they do on the output of the encoder: the header that was written is the
header that is read (`readTag_encode`), hence `Split` takes an encoded value apart exactly where
the encoder put it together, and an encoding determines its value (`encode_append_inj`).
-/
import MxtChain.Rlp.Encode

namespace MxtChain.Rlp

open List

inductive Kind where
  | byte
  | string
  | list
  deriving DecidableEq

/-- The errors of `rlp/raw.go`. -/
inductive RlpErr where
  /-- `io.ErrUnexpectedEOF` -/
  | unexpectedEOF
  | expectedString
  | expectedList
  | canonSize
  | valueTooLarge
  deriving DecidableEq

/-! ## §1 — the parser. -/

/-- `readSize`: a size of `slen` bytes; sizes below 56 and sizes with a leading zero byte have no
business having a separate size. -/
def readSize (b : Bytes) (slen : Nat) : Except RlpErr Nat :=
  if b.length < slen then .error .unexpectedEOF
  else
    let s := ofBigEndian (b.take slen)
    if s < 56 ∨ b.head? = some 0 then .error .canonSize else .ok s

/-- The part of `readKind` before the size check: kind, tag size and content size. -/
def readTag (buf : Bytes) : Except RlpErr (Kind × Nat × Nat) :=
  match buf with
  | [] => .error .unexpectedEOF
  | b :: rest =>
    if b < 0x80 then .ok (.byte, 0, 1)
    else if b < 0xB8 then
      -- reject strings that should have been single bytes
      if (b - 0x80).toNat = 1 ∧ (∃ c ∈ rest.head?, c < 128) then .error .canonSize
      else .ok (.string, 1, (b - 0x80).toNat)
    else if b < 0xC0 then
      (readSize rest (b - 0xB7).toNat).map fun n => (.string, (b - 0xB7).toNat + 1, n)
    else if b < 0xF8 then .ok (.list, 1, (b - 0xC0).toNat)
    else (readSize rest (b - 0xF7).toNat).map fun n => (.list, (b - 0xF7).toNat + 1, n)

/-- `readKind`: the header of the first value in `buf`. -/
def readKind (buf : Bytes) : Except RlpErr (Kind × Nat × Nat) :=
  match readTag buf with
  | .error e => .error e
  | .ok (k, tagsize, contentsize) =>
    -- reject values larger than the input slice
    if contentsize > buf.length - tagsize then .error .valueTooLarge
    else .ok (k, tagsize, contentsize)

/-- `Split`: the content of the first value in `b`, and the bytes after it. -/
def Split (b : Bytes) : Except RlpErr (Kind × Bytes × Bytes) :=
  match readKind b with
  | .error e => .error e
  | .ok (k, ts, cs) => .ok (k, (b.drop ts).take cs, b.drop (ts + cs))

def SplitString (b : Bytes) : Except RlpErr (Bytes × Bytes) :=
  match Split b with
  | .error e => .error e
  | .ok (k, content, rest) => if k = .list then .error .expectedString else .ok (content, rest)

def SplitList (b : Bytes) : Except RlpErr (Bytes × Bytes) :=
  match Split b with
  | .error e => .error e
  | .ok (k, content, rest) => if k = .list then .ok (content, rest) else .error .expectedList

/-- The loop of `CountValues`; every round consumes at least one byte. -/
def countValuesLoop : Nat → Bytes → Nat → Except RlpErr Nat
  | 0, _, i => .ok i
  | fuel + 1, b, i =>
    if b = [] then .ok i
    else
      match readKind b with
      | .error e => .error e
      | .ok (_, tagsize, size) => countValuesLoop fuel (b.drop (tagsize + size)) (i + 1)

/-- `CountValues`: the number of encoded values in `b`. -/
def CountValues (b : Bytes) : Except RlpErr Nat := countValuesLoop b.length b 0

/-! ## §2 — what the parser makes of the encoder's output. -/

/-- The kind that `Split` reports for a value. -/
def kindOf : Item → Kind
  | .str [x] => if x ≤ 0x7F then .byte else .string
  | .str _ => .string
  | .list _ => .list

/-- The content that `Split` reports for a value. -/
def contentOf : Item → Bytes
  | .str b => b
  | .list items => encodeList items

theorem length_puthead_pos (s l : UInt8) (n : Nat) : 1 ≤ (puthead s l n).length := by
  unfold puthead
  split <;> simp

variable {n : Nat} {t b : UInt8} {k : Kind} {item : Item}

theorem readSize_putint (h56 : 56 ≤ n) (h : n < 2 ^ 64) (rest : Bytes) :
    readSize (putint n ++ rest) (putintSize n) = .ok n := by
  obtain ⟨b, t, hb, hne⟩ := putint_head (by omega : 1 ≤ n) h
  have hlen : ¬ (putint n ++ rest).length < putintSize n := by
    rw [length_append, length_putint]
    omega
  have htake : (putint n ++ rest).take (putintSize n) = putint n := by
    rw [← length_putint n, take_left]
  have hhead : (putint n ++ rest).head? = some b := by
    rw [hb]
    rfl
  rw [readSize, if_neg hlen, htake, ofBigEndian_putint h, hhead]
  simp only [Option.some.injEq, hne, or_false]
  rw [if_neg (by omega)]

theorem toNat_tag_add (h : t.toNat + n < 256) : (t + UInt8.ofNat n).toNat = t.toNat + n := by
  rw [UInt8.toNat_add, UInt8.toNat_ofNat', Nat.add_mod_mod, Nat.mod_eq_of_lt h]

theorem tag_add_sub (t : UInt8) (h : n < 256) : (t + UInt8.ofNat n - t).toNat = n := by
  have he : t + UInt8.ofNat n - t = UInt8.ofNat n := by
    rw [add_comm]
    exact add_sub_cancel_right _ _
  rw [he, UInt8.toNat_ofNat', Nat.mod_eq_of_lt h]

theorem lt_tag_iff {a : UInt8} : a < b ↔ a.toNat < b.toNat := UInt8.lt_iff_toNat_lt

theorem toNat_tag_sub (h : ¬ b < t) : (b - t).toNat = b.toNat - t.toNat := by
  rw [lt_tag_iff] at h
  exact UInt8.toNat_sub_of_le _ _ (UInt8.le_iff_toNat_le.mpr (by omega))

theorem tag_of_small : t + UInt8.ofNat (b - t).toNat = b := by
  rw [UInt8.ofNat_toNat, add_comm, sub_add_cancel]

/-- The header in front of a content of `n` bytes. -/
def headOf : Kind → Nat → Bytes
  | .byte, _ => []
  | .string, n => puthead 0x80 0xB7 n
  | .list, n => puthead 0xC0 0xF7 n

/-- **The five ranges of the first byte**: a byte, a string or a list with its size in the tag, and
a string or a list with the size of its size in the tag. -/
def onTag {α : Type} (b : UInt8) (byte : α) (short long : Kind → Nat → α) : α :=
  if b < 0x80 then byte
  else if b < 0xB8 then short .string (b - 0x80).toNat
  else if b < 0xC0 then long .string (b - 0xB7).toNat
  else if b < 0xF8 then short .list (b - 0xC0).toNat
  else long .list (b - 0xF7).toNat

theorem onTag_short (hk : k ≠ .byte) (h : n < 56) : ∃ b, headOf k n = [b] ∧
    ∀ {α : Type} (byte : α) short long, onTag b byte short long = short k n := by
  cases k with
  | byte => exact absurd rfl hk
  | string =>
    have hv : ((0x80 : UInt8) + UInt8.ofNat n).toNat = 128 + n := toNat_tag_add (by simp; omega)
    refine ⟨0x80 + UInt8.ofNat n, by rw [headOf, puthead, if_pos h], fun byte short long => ?_⟩
    simp only [onTag, lt_tag_iff, hv, UInt8.reduceToNat, tag_add_sub 0x80 (by omega : n < 256)]
    rw [if_neg (by omega), if_pos (by omega)]
  | list =>
    have hv : ((0xC0 : UInt8) + UInt8.ofNat n).toNat = 192 + n := toNat_tag_add (by simp; omega)
    refine ⟨0xC0 + UInt8.ofNat n, by rw [headOf, puthead, if_pos h], fun byte short long => ?_⟩
    simp only [onTag, lt_tag_iff, hv, UInt8.reduceToNat, tag_add_sub 0xC0 (by omega : n < 256)]
    rw [if_neg (by omega), if_neg (by omega), if_neg (by omega), if_pos (by omega)]

theorem onTag_long (hk : k ≠ .byte) (h : 56 ≤ n) : ∃ b, headOf k n = b :: putint n ∧
    ∀ {α : Type} (byte : α) short long, onTag b byte short long = long k (putintSize n) := by
  have h1 := putintSize_pos n
  have h8 := putintSize_le n
  have hput (t l : UInt8) : puthead t l n = (l + UInt8.ofNat (putintSize n)) :: putint n := by
    rw [puthead, if_neg (by omega), length_putint]
  generalize putintSize n = m at *
  cases k with
  | byte => exact absurd rfl hk
  | string =>
    have hv : ((0xB7 : UInt8) + UInt8.ofNat m).toNat = 183 + m := toNat_tag_add (by simp; omega)
    refine ⟨0xB7 + UInt8.ofNat m, hput _ _, fun byte short long => ?_⟩
    simp only [onTag, lt_tag_iff, hv, UInt8.reduceToNat, tag_add_sub 0xB7 (by omega : m < 256)]
    rw [if_neg (by omega), if_neg (by omega), if_pos (by omega)]
  | list =>
    have hv : ((0xF7 : UInt8) + UInt8.ofNat m).toNat = 247 + m := toNat_tag_add (by simp; omega)
    refine ⟨0xF7 + UInt8.ofNat m, hput _ _, fun byte short long => ?_⟩
    simp only [onTag, lt_tag_iff, hv, UInt8.reduceToNat, tag_add_sub 0xF7 (by omega : m < 256)]
    rw [if_neg (by omega), if_neg (by omega), if_neg (by omega), if_neg (by omega)]

/-- Every first byte but that of a byte starts the header of some size. -/
theorem onTag_cases {α : Type} {P : α → Prop} {byte : α} {short long : Kind → Nat → α}
    (hbyte : b < 0x80 → P byte)
    (hshort : ∀ k n, k ≠ .byte → n < 56 → headOf k n = [b] → P (short k n))
    (hlong : ∀ k m, k ≠ .byte → 1 ≤ m → m ≤ 8 →
      (∀ n, 56 ≤ n → putintSize n = m → headOf k n = b :: putint n) → P (long k m)) :
    P (onTag b byte short long) := by
  have hsmall (t l : UInt8) (h : (b - t).toNat < 56) : puthead t l (b - t).toNat = [b] := by
    rw [puthead, if_pos h, tag_of_small]
  have hlarge (t l : UInt8) (n : Nat) (h : 56 ≤ n) (hm : putintSize n = (b - l).toNat) :
      puthead t l n = b :: putint n := by
    rw [puthead, if_neg (by omega), length_putint, hm, tag_of_small]
  have hb := b.toNat_lt
  unfold onTag
  split
  · next h80 => exact hbyte h80
  next h80 =>
  have hsub := toNat_tag_sub h80
  simp only [lt_tag_iff, UInt8.reduceToNat] at h80 hsub ⊢
  have hle {t : UInt8} (ht : t.toNat ≤ b.toNat) : (b - t).toNat = b.toNat - t.toNat :=
    toNat_tag_sub (by rw [lt_tag_iff]; omega)
  split
  · exact hshort .string _ (by simp) (by omega) (hsmall _ _ (by omega))
  have hsub : (b - 0xB7).toNat = b.toNat - 183 := hle (by simp; omega)
  split
  · exact hlong .string _ (by simp) (by omega) (by omega) (hlarge _ _)
  have hsub : (b - 0xC0).toNat = b.toNat - 192 := hle (by simp; omega)
  split
  · exact hshort .list _ (by simp) (by omega) (hsmall _ _ (by omega))
  · have hsub : (b - 0xF7).toNat = b.toNat - 247 := hle (by simp; omega)
    exact hlong .list _ (by simp) (by omega) (by omega) (hlarge _ _)

theorem readTag_cons (b : UInt8) (rest : Bytes) : readTag (b :: rest) = onTag b (.ok (.byte, 0, 1))
      (fun k n => if k = .string ∧ n = 1 ∧ (∃ c ∈ rest.head?, c < 128) then .error .canonSize
        else .ok (k, 1, n))
      (fun k m => (readSize rest m).map fun n => (k, m + 1, n)) := by
  simp [readTag, onTag]

/-- The header of a string or a list is read as such. -/
theorem readTag_headOf (hk : k ≠ .byte) (h : n < 2 ^ 64) (rest : Bytes)
    (h1 : k = .string → n = 1 → ∀ c ∈ rest.head?, ¬ c < 128) :
    readTag (headOf k n ++ rest) = .ok (k, (headOf k n).length, n) := by
  by_cases h56 : n < 56
  · obtain ⟨b, hb, htag⟩ := onTag_short hk h56
    rw [hb, singleton_append, readTag_cons, htag, if_neg ?_, length_singleton]
    rintro ⟨hks, hn, c, hc, hlt⟩
    exact h1 hks hn c hc hlt
  · obtain ⟨b, hb, htag⟩ := onTag_long hk (not_lt.mp h56)
    rw [hb, cons_append, readTag_cons, htag, readSize_putint (not_lt.mp h56) h,
      length_cons, length_putint]
    rfl

theorem readKind_of_readTag {buf content rest tag : Bytes} (hbuf : buf = tag ++ (content ++ rest))
    (h : readTag buf = .ok (k, tag.length, content.length)) :
    readKind buf = .ok (k, tag.length, content.length) := by
  have hle : ¬ content.length > buf.length - tag.length := by
    rw [hbuf]
    simp only [length_append]
    omega
  simp only [readKind, h, if_neg hle]

theorem Split_of_readTag {buf content rest tag : Bytes} (hbuf : buf = tag ++ (content ++ rest))
    (h : readTag buf = .ok (k, tag.length, content.length)) :
    Split buf = .ok (k, content, rest) := by
  have hd : buf.drop tag.length = content ++ rest := by rw [hbuf, drop_left]
  have hd2 : buf.drop (tag.length + content.length) = rest := by
    rw [← drop_drop, hd, drop_left]
  simp only [Split, readKind_of_readTag hbuf h, hd, hd2, take_left]

/-- **The tag of an encoded value is read back**, whatever follows the value. -/
theorem readTag_content (item : Item) (hfit : (contentOf item).length < 2 ^ 64) :
    ∃ tag, encode item = tag ++ contentOf item ∧ ∀ rest, readTag (tag ++ (contentOf item ++ rest)) =
        .ok (kindOf item, tag.length, (contentOf item).length) := by
  cases item with
  | list items =>
    refine ⟨_, rfl, fun rest => ?_⟩
    exact readTag_headOf (k := .list) (by simp) hfit _ (by simp)
  | str b =>
    by_cases hone : ∃ x, b = [x] ∧ x ≤ 0x7F
    · obtain ⟨x, rfl, hx⟩ := hone
      refine ⟨[], by simp [encode_str, encodeString, hx, contentOf], fun rest => ?_⟩
      have hlt : x < 0x80 := by
        rw [UInt8.le_iff_toNat_le] at hx
        rw [lt_tag_iff]
        simp at hx ⊢
        omega
      simp [readTag, contentOf, kindOf, hlt, hx]
    -- every other string has the header of a string in front
    have henc : encode (.str b) = puthead 0x80 0xB7 b.length ++ b := by
      rw [encode_str]
      unfold encodeString
      split
      · rename_i x
        rw [if_neg (fun h => hone ⟨x, rfl, h⟩)]
        rfl
      · rfl
    have hkind : kindOf (.str b) = .string := by
      unfold kindOf
      split
      · rename_i x hx
        rw [Item.str.injEq] at hx
        rw [if_neg (fun h => hone ⟨x, hx, h⟩)]
      · rfl
      · rename_i h
        cases h
    refine ⟨_, henc, fun rest => ?_⟩
    rw [hkind]
    refine readTag_headOf (k := .string) (by simp) hfit _ ?_
    intro _ hlen c hc hlt
    simp only [contentOf] at hlen hc
    match b, hlen, hc with
    | [x], _, hc =>
      simp only [singleton_append, head?_cons, Option.mem_def, Option.some.injEq] at hc
      subst hc
      refine hone ⟨x, rfl, ?_⟩
      rw [lt_tag_iff] at hlt
      rw [UInt8.le_iff_toNat_le]
      simp at hlt ⊢
      omega

theorem length_contentOf_le (item : Item) : (contentOf item).length ≤ (encode item).length := by
  cases item with
  | list items =>
    rw [encode_list, length_append, contentOf]
    omega
  | str b =>
    rw [encode_str, contentOf]
    unfold encodeString
    split
    · split <;> simp
    · rw [length_append]
      omega

theorem readTag_encode (item : Item) (hfit : (encode item).length < 2 ^ 64) :
    ∃ tag, encode item = tag ++ contentOf item ∧ ∀ rest, readTag (tag ++ (contentOf item ++ rest)) =
        .ok (kindOf item, tag.length, (contentOf item).length) :=
  readTag_content item (lt_of_le_of_lt (length_contentOf_le item) hfit)

/-- **`Split` takes an encoded value apart where the encoder put it together.** -/
theorem Split_content (item : Item) (hfit : (contentOf item).length < 2 ^ 64) (rest : Bytes) :
    Split (encode item ++ rest) = .ok (kindOf item, contentOf item, rest) := by
  obtain ⟨tag, henc, htag⟩ := readTag_content item hfit
  have hbuf : encode item ++ rest = tag ++ (contentOf item ++ rest) := by
    rw [henc, append_assoc]
  exact Split_of_readTag hbuf (by rw [hbuf]; exact htag rest)

theorem Split_encode (item : Item) (hfit : (encode item).length < 2 ^ 64) (rest : Bytes) :
    Split (encode item ++ rest) = .ok (kindOf item, contentOf item, rest) :=
  Split_content item (lt_of_le_of_lt (length_contentOf_le item) hfit) rest

theorem kindOf_str_ne (b : Bytes) : kindOf (.str b) ≠ .list := by
  unfold kindOf
  split
  · split <;> simp
  · simp
  · rename_i h
    cases h

theorem SplitString_encode (b : Bytes) (hfit : (encode (.str b)).length < 2 ^ 64) (rest : Bytes) :
    SplitString (encode (.str b) ++ rest) = .ok (b, rest) := by
  simp only [SplitString, Split_encode _ hfit, if_neg (kindOf_str_ne b), contentOf]

theorem SplitList_encode (items : List Item) (hfit : (encode (.list items)).length < 2 ^ 64)
    (rest : Bytes) : SplitList (encode (.list items) ++ rest) = .ok (encodeList items, rest) := by
  simp only [SplitList, Split_encode _ hfit, kindOf, if_true, contentOf]

/-! ## §3 — an encoding determines its value. -/

theorem length_encode_pos (item : Item) : 1 ≤ (encode item).length := by
  cases item with
  | list items =>
    rw [encode_list, length_append]
    have := length_puthead_pos 0xC0 0xF7 (encodeList items).length
    omega
  | str b =>
    rw [encode_str]
    unfold encodeString
    split
    · split <;> simp
    · rw [length_append]
      have := length_puthead_pos 0x80 0xB7 b.length
      omega

theorem encode_ne_nil (item : Item) : encode item ≠ [] := by
  intro h
  have := length_encode_pos item
  rw [h] at this
  cases this

/-- The encoding of a member is part of the encoding of its list. -/
theorem length_encode_le_of_mem {items : List Item} (h : item ∈ items) :
    (encode item).length ≤ (encodeList items).length := by
  induction items with
  | nil => cases h
  | cons x rest ih =>
    rw [encodeList_cons, length_append]
    rcases mem_cons.mp h with rfl | h
    · omega
    · have := ih h
      omega

theorem length_encodeList_le (items : List Item) :
    (encodeList items).length ≤ (encode (.list items)).length := by
  rw [encode_list, length_append]
  omega

theorem list_of_kindOf (h : kindOf item = .list) : ∃ items, item = .list items := by
  cases item with
  | str b => exact absurd h (kindOf_str_ne b)
  | list items => exact ⟨items, rfl⟩

mutual

/-- **Unique reading.** Two encoded values that start the same byte string are the same value. -/
theorem encode_append_inj : ∀ (a b : Item) {r s : Bytes}, (encode a).length < 2 ^ 64 →
    (encode b).length < 2 ^ 64 → encode a ++ r = encode b ++ s → a = b ∧ r = s
  | .str x, b, r, s, ha, hb, h => by
    have ea := Split_encode (.str x) ha r
    have eb := Split_encode b hb s
    rw [h, eb, Except.ok.injEq, Prod.mk.injEq, Prod.mk.injEq] at ea
    obtain ⟨hk, hc, hr⟩ := ea
    cases b with
    | str y =>
      simp only [contentOf] at hc
      exact ⟨by rw [hc], hr.symm⟩
    | list items => exact absurd hk.symm (kindOf_str_ne x)
  | .list xs, b, r, s, ha, hb, h => by
    have ea := Split_encode (.list xs) ha r
    have eb := Split_encode b hb s
    rw [h, eb, Except.ok.injEq, Prod.mk.injEq, Prod.mk.injEq] at ea
    obtain ⟨hk, hc, hr⟩ := ea
    obtain ⟨ys, rfl⟩ := list_of_kindOf hk
    have hx := length_encodeList_le xs
    have hy := length_encodeList_le ys
    have := encodeList_inj xs ys (by omega) (by omega) hc.symm
    exact ⟨by rw [this], hr.symm⟩

/-- The members of a list are determined by their encodings, one after the other. -/
theorem encodeList_inj : ∀ (xs ys : List Item), (encodeList xs).length < 2 ^ 64 →
    (encodeList ys).length < 2 ^ 64 → encodeList xs = encodeList ys → xs = ys
  | [], [], _, _, _ => rfl
  | [], y :: ys, _, _, h => by
    have hy := encode_ne_nil y
    rw [encodeList_nil, encodeList_cons] at h
    exact absurd (append_eq_nil_iff.mp h.symm).1 hy
  | x :: xs, [], _, _, h => by
    have hx := encode_ne_nil x
    rw [encodeList_nil, encodeList_cons] at h
    exact absurd (append_eq_nil_iff.mp h).1 hx
  | x :: xs, y :: ys, hx, hy, h => by
    rw [encodeList_cons, length_append] at hx hy
    rw [encodeList_cons, encodeList_cons] at h
    obtain ⟨e1, e2⟩ := encode_append_inj x y (by omega) (by omega) h
    rw [e1, encodeList_inj xs ys (by omega) (by omega) e2]

end

/-- **`encode` is injective** on values whose encoding has a length below `2 ^ 64`. -/
theorem encode_inj {a b : Item} (ha : (encode a).length < 2 ^ 64) (hb : (encode b).length < 2 ^ 64)
    (h : encode a = encode b) : a = b := by
  apply (encode_append_inj a b (r := []) (s := []) ha hb _).1
  rw [append_nil, append_nil]
  exact h

theorem countValuesLoop_encodeList : ∀ (items : List Item) (fuel i : Nat),
    (encodeList items).length < 2 ^ 64 → items.length ≤ fuel →
      countValuesLoop fuel (encodeList items) i = .ok (i + items.length)
  | [], fuel, i, _, _ => by cases fuel <;> simp [countValuesLoop]
  | x :: rest, 0, i, _, hf => by simp at hf
  | x :: rest, fuel + 1, i, hfit, hf => by
    rw [encodeList_cons, length_append] at hfit
    obtain ⟨tag, henc, htag⟩ := readTag_encode x (by omega)
    have hbuf : encode x ++ encodeList rest = tag ++ (contentOf x ++ encodeList rest) := by
      rw [henc, append_assoc]
    have hk := readKind_of_readTag hbuf (by rw [hbuf]; exact htag _)
    have hd : (encode x ++ encodeList rest).drop (tag.length + (contentOf x).length) =
        encodeList rest := by
      rw [← length_append, ← henc, drop_left]
    have hne : ¬ encode x ++ encodeList rest = [] := by simp [encode_ne_nil]
    simp only [encodeList_cons, countValuesLoop, if_neg hne, hk, hd]
    rw [countValuesLoop_encodeList rest fuel (i + 1) (by omega) (by simpa using hf)]
    simp only [length_cons, Except.ok.injEq]
    omega

theorem length_le_encodeList (items : List Item) : items.length ≤ (encodeList items).length := by
  induction items with
  | nil => simp
  | cons x rest ih =>
    have := length_encode_pos x
    rw [encodeList_cons, length_append, length_cons]
    omega

theorem CountValues_encodeList (items : List Item) (hfit : (encodeList items).length < 2 ^ 64) :
    CountValues (encodeList items) = .ok items.length := by
  rw [CountValues, countValuesLoop_encodeList items _ 0 hfit (length_le_encodeList items)]
  simp

end MxtChain.Rlp
