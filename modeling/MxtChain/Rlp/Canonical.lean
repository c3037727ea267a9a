/-
# MxtChain.Rlp.Canonical — what the splitting functions of `rlp/raw.go` accept.

`MxtChain.Rlp.Raw` says that the splitting functions read what the encoder writes; this module is
about the other direction, and about values taken apart to the bottom. A header that is read is
the header that the encoder would have written (`readTag_sound`), because a size is accepted only in
the one form `putint` gives it (`putint_ofBigEndian`). Hence a byte string that is taken apart
down to its strings is the encoding of the tree that comes out (`splitTree_iff`), and an integer
that is split off is the encoding of that integer (`SplitUint64_iff`).
-/
import MxtChain.Lib.Except
import MxtChain.Rlp.Raw

namespace MxtChain.Rlp

open List Option

open Lib (map_ok)

/-! ## §1 — integers and values split off. -/

/-- The errors of `rlp/decode.go`; those that `rlp/raw.go` returns too are under `raw`. -/
inductive DecErr where
  | raw (e : RlpErr)
  /-- `io.EOF` -/
  | eof
  | eol
  | canonInt
  | elemTooLarge
  | moreThanOneValue
  | notInList
  | notAtEOL
  | uintOverflow
  /-- the recursion was cut short: not an error of the source -/
  | stuck
  deriving DecidableEq

/-- `SplitUint64`: the integer at the beginning of `b`, and the data after it. -/
def SplitUint64 (b : Bytes) : Except DecErr (Nat × Bytes) :=
  match SplitString b with
  | .error e => .error (.raw e)
  | .ok (content, rest) =>
    match content with
    | [] => .ok (0, rest)
    | [c] => if c = 0 then .error .canonInt else .ok (c.toNat, rest)
    | content =>
      if content.length > 8 then .error .uintOverflow
      else
        match readSize content content.length with
        | .error _ => .error .canonInt
        | .ok x => .ok (x, rest)

/-- The values in `b`, one after the other, each taken apart by `split`; `b` has to be used up. -/
def splitValues (split : Bytes → Option (Item × Bytes)) : Nat → Bytes → Option (List Item)
  | 0, _ => none
  | n + 1, b =>
    if b = [] then some []
    else
      match split b with
      | none => none
      | some (v, rest) => (splitValues split n rest).map (v :: ·)

/-- The first value in `b`, taken apart with `Split`, `SplitList` and `SplitString` down to its
strings. -/
def splitValue : Nat → Bytes → Option (Item × Bytes)
  | 0, _ => none
  | fuel + 1, b =>
    match Split b with
    | .error _ => none
    | .ok (.list, _, _) =>
      match SplitList b with
      | .error _ => none
      | .ok (content, rest) =>
        (splitValues (splitValue fuel) fuel content).map fun items => (.list items, rest)
    | .ok (_, _, _) =>
      match SplitString b with
      | .error _ => none
      | .ok (content, rest) => some (.str content, rest)

/-- The value tree of `b`: every split succeeds and nothing remains. -/
def splitTree (fuel : Nat) (b : Bytes) : Option Item :=
  match splitValue fuel b with
  | some (v, []) => some v
  | _ => none

/-! ## §2 — a size has one form. -/

theorem ofBigEndian_lt (bs : Bytes) : ofBigEndian bs < 256 ^ bs.length := by
  induction bs with
  | nil => simp [ofBigEndian]
  | cons b rest ih =>
    have hb : b.toNat + 1 ≤ 256 := b.toNat_lt
    calc ofBigEndian (b :: rest) < b.toNat * 256 ^ rest.length + 256 ^ rest.length := by
          rw [ofBigEndian]
          omega
      _ = (b.toNat + 1) * 256 ^ rest.length := by ring
      _ ≤ 256 * 256 ^ rest.length := Nat.mul_le_mul_right _ hb
      _ = 256 ^ (b :: rest).length := by rw [length_cons, pow_succ, mul_comm]

theorem ofBigEndian_lt_of_length {bs : Bytes} (h : bs.length ≤ 8) : ofBigEndian bs < 2 ^ 64 := by
  have hle : 256 ^ bs.length ≤ 256 ^ 8 := Nat.pow_le_pow_right (by omega) h
  have := ofBigEndian_lt bs
  omega

/-- The last bytes of an integer that ends in the bytes `bs`. -/
theorem bigEndian_ofBigEndian_add (bs : Bytes) (m : Nat) :
    bigEndian bs.length (ofBigEndian bs + m * 256 ^ bs.length) = bs := by
  induction bs generalizing m with
  | nil => rfl
  | cons b rest ih =>
    have hpos : 0 < 256 ^ rest.length := by positivity
    have hval : ofBigEndian (b :: rest) + m * 256 ^ (rest.length + 1) =
        ofBigEndian rest + (b.toNat + m * 256) * 256 ^ rest.length := by
      rw [ofBigEndian, pow_succ]
      ring
    have hdiv : (ofBigEndian rest + (b.toNat + m * 256) * 256 ^ rest.length) / 256 ^ rest.length =
        b.toNat + m * 256 := by
      rw [Nat.add_mul_div_right _ _ hpos, Nat.div_eq_of_lt (ofBigEndian_lt rest), Nat.zero_add]
    have hbyte : UInt8.ofNat (b.toNat + m * 256) = b := by
      apply UInt8.toNat_inj.mp
      have := b.toNat_lt
      rw [UInt8.toNat_ofNat']
      omega
    rw [length_cons, hval, bigEndian, shiftRight_bytes, hdiv, hbyte, ih]

variable {b content rest : Bytes} {k : Kind} {fuel n : Nat} {t : UInt8}

theorem putintSize_eq {i : Nat} (hlo : 256 ^ n ≤ i) (hhi : i < 256 ^ (n + 1)) (h : i < 2 ^ 64) :
    putintSize i = n + 1 := by
  have hpos : 1 ≤ i := le_trans (Nat.one_le_pow _ _ (by omega)) hlo
  have h1 : n < putintSize i :=
    (Nat.pow_lt_pow_iff_right (by omega)).mp (lt_of_le_of_lt hlo (lt_pow_putintSize h))
  have h2 : putintSize i - 1 < n + 1 :=
    (Nat.pow_lt_pow_iff_right (by omega)).mp (lt_of_le_of_lt (pow_putintSize_le hpos) hhi)
  omega

/-- **A size has one form**: at most eight bytes without a leading zero are what `putint` writes
for the integer they spell. -/
theorem putint_ofBigEndian {b : UInt8} (hb : b ≠ 0) (hlen : (b :: rest).length ≤ 8) :
    putint (ofBigEndian (b :: rest)) = b :: rest := by
  have hbpos : 1 ≤ b.toNat := by
    rcases Nat.eq_zero_or_pos b.toNat with h | h
    · exact absurd (UInt8.toNat_inj.mp (by simpa using h)) hb
    · exact h
  have hlo : 256 ^ rest.length ≤ ofBigEndian (b :: rest) := by
    rw [ofBigEndian]
    have := Nat.mul_le_mul_right (256 ^ rest.length) hbpos
    omega
  have hhi : ofBigEndian (b :: rest) < 256 ^ (rest.length + 1) := ofBigEndian_lt (b :: rest)
  rw [putint, putintSize_eq hlo hhi (ofBigEndian_lt_of_length hlen)]
  simpa using bigEndian_ofBigEndian_add (b :: rest) 0

theorem readSize_sound {slen : Nat} (h1 : 1 ≤ slen) (h8 : slen ≤ 8) (h : readSize b slen = .ok n) :
    b = putint n ++ b.drop slen ∧ putintSize n = slen ∧ 56 ≤ n ∧ n < 2 ^ 64 := by
  unfold readSize at h
  split at h
  · cases h
  rename_i hlen
  have htake : (b.take slen).length = slen := by
    rw [length_take]
    omega
  simp only at h
  split at h
  · cases h
  rename_i hcanon
  rw [not_or] at hcanon
  obtain ⟨h56, hhead⟩ := hcanon
  rw [Except.ok.injEq] at h
  subst h
  match b, slen, h1 with
  | [], slen + 1, _ => simp at hlen
  | c :: rest, slen + 1, _ =>
    have hc : c ≠ 0 := by simpa using hhead
    rw [take_succ_cons] at htake ⊢
    have hput := putint_ofBigEndian hc (by omega : (c :: rest.take slen).length ≤ 8)
    refine ⟨?_, ?_, by simpa using h56, ofBigEndian_lt_of_length (by omega)⟩
    · rw [hput, drop_succ_cons, cons_append, take_append_drop]
    · rw [← length_putint, hput, htake]

/-! ## §3 — a header has one form. -/

/-- What `readTag` accepts. -/
structure Tagged (buf : Bytes) (k : Kind) (ts cs : Nat) : Prop where
  head : buf = headOf k cs ++ buf.drop ts
  size : (headOf k cs).length = ts
  fits : cs < 2 ^ 64
  byte : k = .byte → cs = 1 ∧ ∃ x rest, buf = x :: rest ∧ x < 0x80
  string : k = .string → cs = 1 → ∀ c ∈ (buf.drop ts).head?, ¬ c < 128

/-- **A header that is read is the header that the encoder writes.** -/
theorem readTag_sound {buf : Bytes} {ts cs : Nat} (h : readTag buf = .ok (k, ts, cs)) :
    Tagged buf k ts cs := by
  cases buf with
  | nil => cases h
  | cons b rest =>
    rw [readTag_cons] at h
    revert h
    refine onTag_cases (P := fun r => r = Except.ok (k, ts, cs) → Tagged (b :: rest) k ts cs)
      (fun h80 h => ?_) (fun k' n hk hlt hhead h => ?_) fun k' m hk hlo hhi htag h => ?_
    · obtain ⟨rfl, rfl, rfl⟩ := h
      exact ⟨rfl, rfl, by norm_num, fun _ => ⟨rfl, b, rest, rfl, h80⟩, by simp⟩
    · split at h
      · cases h
      next hcanon =>
      obtain ⟨rfl, rfl, rfl⟩ := h
      refine ⟨by rw [hhead]; rfl, by rw [hhead]; rfl, by omega, fun h => absurd h hk, ?_⟩
      intro hks hone c hc hlt
      exact hcanon ⟨hks, hone, c, by simpa using hc, hlt⟩
    · obtain ⟨n, hs, heq⟩ := map_ok.mp h
      obtain ⟨rfl, rfl, rfl⟩ := heq
      obtain ⟨hrest, hsize, h56, h64⟩ := readSize_sound hlo hhi hs
      have hhead := htag _ h56 hsize
      refine ⟨?_, ?_, h64, fun h => absurd h hk, fun _ hone => by omega⟩
      · rw [hhead, drop_succ_cons, cons_append, ← hrest]
      · rw [hhead, length_cons, length_putint, hsize]

/-! ## §4 — values taken apart. -/

theorem encodeString_of_head (hk : k ≠ .list) (hbyte : k = .byte → ∃ x, content = [x] ∧ x < 0x80)
    (hstring : k = .string → ∀ x, content = [x] → ¬ x < 128) :
    encodeString content = headOf k content.length ++ content := by
  cases k with
  | list => exact absurd rfl hk
  | byte =>
    obtain ⟨x, rfl, hx⟩ := hbyte rfl
    have hle : x ≤ 0x7F := by
      rw [lt_tag_iff] at hx
      rw [UInt8.le_iff_toNat_le]
      simp at hx ⊢
      omega
    simp [encodeString, hle, headOf]
  | string =>
    unfold encodeString
    split
    · rename_i x
      have hx := hstring rfl x rfl
      rw [if_neg (fun hle => hx (by
        rw [UInt8.le_iff_toNat_le] at hle
        rw [lt_tag_iff]
        simp at hle ⊢
        omega))]
      rfl
    · rfl

/-- What `Split` accepts: a header that the encoder writes, in front of a content of that size. -/
structure Splits (b : Bytes) (k : Kind) (content rest : Bytes) : Prop where
  eq : b = headOf k content.length ++ (content ++ rest)
  fits : content.length < 2 ^ 64
  str : k ≠ .list → b = encodeString content ++ rest

theorem Split_sound (h : Split b = .ok (k, content, rest)) : Splits b k content rest := by
  unfold Split at h
  cases hk : readKind b with
  | error e =>
    rw [hk] at h
    cases h
  | ok r =>
    simp only [hk, Except.ok.injEq, Prod.mk.injEq] at h
    obtain ⟨rfl, rfl, rfl⟩ := h
    unfold readKind at hk
    cases ht : readTag b with
    | error e =>
      rw [ht] at hk
      cases hk
    | ok r =>
      obtain ⟨k'', ts', cs'⟩ := r
      simp only [ht] at hk
      split at hk
      · cases hk
      obtain ⟨rfl, rfl, rfl⟩ := hk
      obtain ⟨hhead, hsize, hfits, hbyte, hstring⟩ := readTag_sound ht
      have hlen : ((b.drop ts').take cs').length = cs' := by
        rw [length_take, length_drop]
        omega
      have heq : b = headOf k'' ((b.drop ts').take cs').length ++
          ((b.drop ts').take cs' ++ b.drop (ts' + cs')) := by
        rw [hlen, ← drop_drop, take_append_drop]
        exact hhead
      refine ⟨heq, by rw [hlen]; exact hfits, fun hne => ?_⟩
      rw [encodeString_of_head hne ?_ ?_, append_assoc]
      · exact heq
      · intro hk
        obtain ⟨rfl, x, rest, rfl, hx⟩ := hbyte hk
        subst hk
        subst hsize
        exact ⟨x, rfl, hx⟩
      · intro hk x hx
        have hone : cs' = 1 := by
          rw [← hlen, hx]
          rfl
        refine hstring hk hone x ?_
        subst hone
        cases hd : b.drop ts' with
        | nil => simp [hd] at hx
        | cons y ys => simpa [hd] using hx

theorem SplitString_iff_Split : SplitString b = .ok (content, rest) ↔
      ∃ k, Split b = .ok (k, content, rest) ∧ k ≠ .list := by
  unfold SplitString
  cases Split b with
  | error e => simp
  | ok r =>
    obtain ⟨k, c, t⟩ := r
    by_cases hk : k = .list <;> simp [hk]

/-- **A string that is split off** is an encoded string. -/
theorem SplitString_iff : SplitString b = .ok (content, rest) ↔
      content.length < 2 ^ 64 ∧ b = encodeString content ++ rest := by
  rw [SplitString_iff_Split]
  constructor
  · rintro ⟨k, h, hk⟩
    have hs := Split_sound h
    exact ⟨hs.fits, hs.str hk⟩
  · rintro ⟨hfits, rfl⟩
    exact ⟨_, Split_content (.str content) hfits rest, kindOf_str_ne content⟩

/-- **A list that is split off** has the header that the encoder writes. -/
theorem SplitList_iff : SplitList b = .ok (content, rest) ↔
      content.length < 2 ^ 64 ∧ b = puthead 0xC0 0xF7 content.length ++ (content ++ rest) := by
  constructor
  · intro h
    unfold SplitList at h
    cases hs : Split b with
    | error e =>
      rw [hs] at h
      cases h
    | ok r =>
      obtain ⟨k, c, t⟩ := r
      simp only [hs] at h
      split at h
      · rename_i hk
        obtain ⟨rfl, rfl⟩ := h
        subst hk
        exact ⟨(Split_sound hs).fits, (Split_sound hs).eq⟩
      · cases h
  · rintro ⟨hfits, rfl⟩
    have hsplit : Split (puthead 0xC0 0xF7 content.length ++ (content ++ rest)) =
        .ok (.list, content, rest) :=
      Split_of_readTag rfl (readTag_headOf (k := .list) (by simp) hfits _ (by simp))
    simp only [SplitList, hsplit, if_true]

theorem splitValue_succ {v : Item} : splitValue (fuel + 1) b = some (v, rest) ↔
      (∃ content, v = .str content ∧ SplitString b = .ok (content, rest)) ∨
      (∃ content items, v = .list items ∧ SplitList b = .ok (content, rest) ∧
        splitValues (splitValue fuel) fuel content = some items) := by
  rw [splitValue]
  cases hs : Split b with
  | error e => simp [SplitString, SplitList, hs]
  | ok r =>
    obtain ⟨k, c, t⟩ := r
    cases k with
    | list =>
      simp only [SplitString, SplitList, hs, if_true, map_eq_some_iff, Prod.mk.injEq]
      constructor
      · rintro ⟨items, hitems, rfl, rfl⟩
        exact .inr ⟨c, items, rfl, rfl, hitems⟩
      · rintro (⟨content, -, h⟩ | ⟨content, items, rfl, h, hitems⟩)
        · cases h
        · obtain ⟨rfl, rfl⟩ := h
          exact ⟨items, hitems, rfl, rfl⟩
    | byte | string => simp [SplitString, SplitList, hs, eq_comm]

theorem splitValues_sound {split : Bytes → Option (Item × Bytes)}
    (hsplit : ∀ b v rest, split b = some (v, rest) → b = encode v ++ rest) :
    ∀ {n : Nat} {b : Bytes} {items : List Item},
      splitValues split n b = some items → b = encodeList items
  | 0, b, items, h => by simp [splitValues] at h
  | n + 1, b, items, h => by
    rw [splitValues] at h
    split at h
    · rename_i hb
      simp only [some.injEq] at h
      rw [← h, hb, encodeList_nil]
    cases hs : split b with
    | none => simp [hs] at h
    | some r =>
      obtain ⟨v, rest⟩ := r
      simp only [hs, map_eq_some_iff] at h
      obtain ⟨items', hrest, rfl⟩ := h
      rw [hsplit b v rest hs, splitValues_sound hsplit hrest, encodeList_cons]

/-- A value that is taken apart is an encoded value. -/
theorem splitValue_sound {fuel : Nat} {b rest : Bytes} {v : Item}
    (h : splitValue fuel b = some (v, rest)) :
    b = encode v ++ rest ∧ (contentOf v).length < 2 ^ 64 := by
  induction fuel generalizing b v rest with
  | zero => simp [splitValue] at h
  | succ fuel ih =>
    rcases splitValue_succ.mp h with ⟨content, rfl, hs⟩ | ⟨content, items, rfl, hs, hitems⟩
    · obtain ⟨hfits, rfl⟩ := SplitString_iff.mp hs
      exact ⟨rfl, hfits⟩
    obtain ⟨hfits, rfl⟩ := SplitList_iff.mp hs
    have hc := splitValues_sound (fun b v rest h => (ih h).1) hitems
    subst hc
    exact ⟨by rw [encode_list, append_assoc], hfits⟩

theorem splitValues_complete {split : Bytes → Option (Item × Bytes)} :
    ∀ {items : List Item} {n : Nat}, items.length < n →
      (∀ v ∈ items, ∀ rest, split (encode v ++ rest) = some (v, rest)) →
      splitValues split n (encodeList items) = some items
  | [], n + 1, _, _ => by simp [splitValues]
  | v :: items, n + 1, hn, hsplit => by
    have hne : ¬ encode v ++ encodeList items = [] := by simp [encode_ne_nil]
    have hrest : splitValues split n (encodeList items) = some items :=
      splitValues_complete (by simpa using hn) fun w hw => hsplit w (mem_cons_of_mem _ hw)
    rw [encodeList_cons, splitValues, if_neg hne, hsplit v mem_cons_self]
    simp only [hrest, map_some]

theorem splitValue_complete (v : Item) (rest : Bytes) (hfits : (contentOf v).length < 2 ^ 64)
    (hfuel : (encode v).length < fuel) : splitValue fuel (encode v ++ rest) = some (v, rest) := by
  induction fuel generalizing v rest with
  | zero => exact absurd hfuel (by omega)
  | succ fuel ih =>
    rw [splitValue_succ]
    cases v with
    | str content => exact .inl ⟨content, rfl, SplitString_iff.mpr ⟨hfits, rfl⟩⟩
    | list items =>
      refine .inr ⟨encodeList items, items, rfl, SplitList_iff.mpr ⟨hfits, ?_⟩, ?_⟩
      · rw [encode_list, append_assoc]
      have hhead := length_puthead_pos 0xC0 0xF7 (encodeList items).length
      have hcount := length_le_encodeList items
      rw [encode_list, length_append] at hfuel
      refine splitValues_complete (by omega) fun w hw rest => ?_
      have hw' := length_encode_le_of_mem hw
      have hcw := length_contentOf_le w
      simp only [contentOf] at hfits
      exact ih w rest (by omega) (by omega)

/-- **Taking apart inverts the encoder**: the tree that comes out is the one whose encoding went
in. -/
theorem splitTree_iff (hfuel : b.length < fuel) (v : Item) :
    splitTree fuel b = some v ↔ b = encode v ∧ (contentOf v).length < 2 ^ 64 := by
  unfold splitTree
  constructor
  · intro h
    split at h
    · rename_i w hw
      rw [some.injEq] at h
      subst h
      simpa using splitValue_sound hw
    · cases h
  · rintro ⟨rfl, hfits⟩
    have hsplit := splitValue_complete v [] hfits hfuel
    rw [append_nil] at hsplit
    simp only [hsplit]

/-! ## §5 — integers. -/

/-- The bytes of an integer: big endian, no leading zero. -/
def intBytes (x : Nat) : Bytes := if x = 0 then [] else putint x

theorem length_intBytes_le (x : Nat) : (intBytes x).length ≤ 8 := by
  unfold intBytes
  split
  · simp
  · rw [length_putint]
    exact putintSize_le x

theorem intBytes_of_head {c : UInt8} {rest : Bytes} (hc : c ≠ 0)
    (hlen : (c :: rest).length ≤ 8) : intBytes (ofBigEndian (c :: rest)) = c :: rest := by
  have hput := putint_ofBigEndian hc hlen
  rw [intBytes, if_neg ?_, hput]
  intro hz
  rw [hz] at hput
  have hcz : c = 0 := by
    have := congrArg head? hput
    simpa [putint, putintSize, bigEndian] using this.symm
  exact hc hcz

/-- **An integer that is split off** is the encoding of that integer. -/
theorem SplitUint64_iff {x : Nat} :
    SplitUint64 b = .ok (x, rest) ↔ x < 2 ^ 64 ∧ b = encodeString (intBytes x) ++ rest := by
  constructor
  · intro h
    unfold SplitUint64 at h
    cases hs : SplitString b with
    | error e => simp [hs] at h
    | ok r =>
      obtain ⟨content, t⟩ := r
      obtain ⟨-, rfl⟩ := SplitString_iff.mp hs
      simp only [hs] at h
      split at h
      · obtain ⟨rfl, rfl⟩ := h
        exact ⟨by norm_num, rfl⟩
      · rename_i c
        split at h
        · cases h
        rename_i hc
        obtain ⟨rfl, rfl⟩ := h
        have hint := @intBytes_of_head c [] hc (by simp)
        simp only [ofBigEndian, length_nil, pow_zero, mul_one, add_zero] at hint
        rw [hint]
        exact ⟨lt_trans c.toNat_lt (by norm_num), rfl⟩
      rename_i hnil hone
      split at h
      · cases h
      have h1 : 1 ≤ content.length := by
        rcases content with _ | ⟨c, _⟩
        · exact absurd rfl hnil
        · simp
      cases hr : readSize content content.length with
      | error e => simp [hr] at h
      | ok n =>
        simp only [hr, Except.ok.injEq, Prod.mk.injEq] at h
        obtain ⟨rfl, rfl⟩ := h
        obtain ⟨hput, -, h56, h64⟩ := readSize_sound h1 (by omega) hr
        rw [drop_length, append_nil] at hput
        rw [intBytes, if_neg (by omega), ← hput]
        exact ⟨h64, rfl⟩
  · rintro ⟨h64, rfl⟩
    have hs : SplitString (encodeString (intBytes x) ++ rest) = .ok (intBytes x, rest) :=
      SplitString_iff.mpr ⟨lt_of_le_of_lt (length_intBytes_le x) (by norm_num), rfl⟩
    by_cases hx : x = 0
    · subst hx
      rfl
    obtain ⟨c, t, hput, hc⟩ := putint_head (by omega : 1 ≤ x) h64
    have hval : ofBigEndian (c :: t) = x := by rw [← hput, ofBigEndian_putint h64]
    have hint : intBytes x = c :: t := by rw [intBytes, if_neg hx, hput]
    have hlen := length_intBytes_le x
    rw [hint] at hs hlen ⊢
    cases t with
    | nil =>
      simp only [ofBigEndian, length_nil, pow_zero, mul_one, add_zero] at hval
      simp only [SplitUint64, hs, if_neg hc, hval]
    | cons d t =>
      have h256 : 256 ≤ x := by
        have hsize : putintSize x = t.length + 2 := by rw [← length_putint, hput]; rfl
        have hlo := pow_putintSize_le (by omega : 1 ≤ x)
        have hge : 256 ^ 1 ≤ 256 ^ (putintSize x - 1) :=
          Nat.pow_le_pow_right (by omega) (by omega)
        omega
      have hread := readSize_putint (by omega : 56 ≤ x) h64 []
      rw [append_nil, ← length_putint, hput] at hread
      simp only [SplitUint64, hs, if_neg (by omega : ¬ (c :: d :: t).length > 8), hread]

end MxtChain.Rlp
