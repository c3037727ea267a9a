/-
# MxtChain.Rlp.StreamSpec — the stream decoder inverts the encoder, and agrees with `rlp/raw.go`.

Reading is described by one relation, `Moved s n s'`: `s'` is `s` with `n` bytes read off, in the
input, in the limit and in the innermost list at once. A header is read exactly when it is the
header that the encoder writes (`readKind_iff`), a string exactly when it is an encoded string
(`string_sound`, `string_complete`), and a value tree exactly when the input starts with its
encoding (`decodeInterface_sound`, `decodeInterface_complete`).

The bound on the recursion depth is no restriction: every bound above the length of the input gives
the same answer.
-/
import MxtChain.Rlp.EncBuf
import MxtChain.Rlp.Stream

namespace MxtChain.Rlp

open List Option

open Lib (map_ok)

/-! ## §1 — bytes read off. -/

/-- The stream with `n` bytes read off. -/
def advance (s : Stream) (n : Nat) : Stream :=
  { s with
    r := s.r.drop n
    remaining := s.remaining - n
    stack := Stream.bump n s.stack
    kind := none }

/-- The limit is the length of the unread input. -/
structure Live (s : Stream) : Prop where
  limited : s.limited = true
  remaining : s.remaining = s.r.length

/-- There are `n` bytes left, in the input and in the innermost list. -/
structure Room (s : Stream) (n : Nat) : Prop where
  input : n ≤ s.r.length
  list : ∀ tos ∈ s.stack.head?, n ≤ tos.size - tos.pos

/-- **`n` bytes have been read off**, and what the last header said is forgotten. -/
def Moved (s : Stream) (n : Nat) (s' : Stream) : Prop :=
  ∃ size byteval, s' = { advance s n with size := size, byteval := byteval }

theorem bump_zero (l : List ListPos) : Stream.bump 0 l = l := by cases l <;> rfl

theorem bump_cons (n : Nat) (tos : ListPos) (rest : List ListPos) :
    Stream.bump n (tos :: rest) = ⟨tos.pos + n, tos.size⟩ :: rest := rfl

theorem bump_bump (m n : Nat) (l : List ListPos) :
    Stream.bump n (Stream.bump m l) = Stream.bump (m + n) l := by
  cases l with
  | nil => rfl
  | cons tos rest => simp [Stream.bump, Nat.add_assoc]

theorem advance_zero (s : Stream) : advance s 0 = { s with kind := none } := by
  simp [advance, bump_zero]

theorem advance_advance (s : Stream) (m n : Nat) : advance (advance s m) n = advance s (m + n) := by
  simp [advance, bump_bump, drop_drop, Nat.sub_sub]

variable {b rest enc a buf t : Bytes} {k : Kind} {fuel hdr m n x size v : Nat}
  {s s' s1 s2 s3 : Stream} {bv : UInt8} {elemdec : Stream → Except DecErr (Item × Stream)}

theorem Moved.trans (h₁ : Moved s1 m s2) (h₂ : Moved s2 n s3) : Moved s1 (m + n) s3 := by
  obtain ⟨z, v, rfl⟩ := h₁
  obtain ⟨z', v', rfl⟩ := h₂
  refine ⟨z', v', ?_⟩
  rw [← advance_advance]
  rfl

theorem Moved.live (h : Moved s n s') (hs : Live s) : Live s' := by
  obtain ⟨z, v, rfl⟩ := h
  refine ⟨hs.limited, ?_⟩
  simp [advance, hs.remaining]

theorem Moved.r (h : Moved s n s') : s'.r = s.r.drop n := by
  obtain ⟨z, v, rfl⟩ := h
  rfl

theorem Moved.kind (h : Moved s n s') : s'.kind = none := by
  obtain ⟨z, v, rfl⟩ := h
  rfl

theorem Moved.stack (h : Moved s n s') : s'.stack = Stream.bump n s.stack := by
  obtain ⟨z, v, rfl⟩ := h
  rfl

theorem moved_advance (s : Stream) (n : Nat) : Moved s n (advance s n) := ⟨_, _, rfl⟩

/-- Room for both is room for one after the other. -/
theorem Room.split (h : Room s (m + n)) (hm : Moved s m s') : Room s m ∧ Room s' n := by
  obtain ⟨hin, hlist⟩ := h
  refine ⟨⟨by omega, fun tos ht => by have := hlist tos ht; omega⟩, ?_, ?_⟩
  · rw [hm.r, length_drop]
    omega
  · rw [hm.stack]
    cases hst : s.stack with
    | nil => simp [Stream.bump]
    | cons tos rest =>
      have := hlist tos (by simp [hst])
      simp only [Stream.bump, head?_cons, mem_def, some.injEq]
      rintro t rfl
      simp only
      omega

theorem Room.append (hm : Room s m) (h : Moved s m s') (hn : Room s' n) : Room s (m + n) := by
  obtain ⟨hin, hlist⟩ := hm
  obtain ⟨hin', hlist'⟩ := hn
  rw [h.r, length_drop] at hin'
  refine ⟨by omega, fun tos ht => ?_⟩
  have hle := hlist tos ht
  have hle' := hlist' ⟨tos.pos + m, tos.size⟩ (by
    rw [h.stack]
    cases hst : s.stack with
    | nil => simp [hst] at ht
    | cons t rest =>
      simp only [hst, head?_cons, mem_def, some.injEq] at ht
      subst ht
      rfl)
  simp only at hle'
  omega

/-- **The bytes `enc` have been read off** the input, which started with them. -/
structure Parsed (s : Stream) (enc : Bytes) (s' : Stream) : Prop where
  input : s.r = enc ++ s.r.drop enc.length
  room : Room s enc.length
  moved : Moved s enc.length s'

theorem Parsed.r (h : Parsed s enc s') : s.r = enc ++ s'.r := by
  rw [h.moved.r]
  exact h.input

theorem parsed_nil (hk : s.kind = none) : Parsed s [] s := by
  refine ⟨rfl, ⟨by simp, fun _ _ => by simp⟩, s.size, s.byteval, ?_⟩
  rw [length_nil, advance_zero, ← hk]

theorem Parsed.append (h₁ : Parsed s1 a s2) (h₂ : Parsed s2 b s3) : Parsed s1 (a ++ b) s3 := by
  have hr₁ := h₁.r
  have hr₂ := h₂.r
  refine ⟨?_, ?_, ?_⟩
  · rw [hr₁, hr₂, ← append_assoc, drop_left]
  · rw [length_append]
    exact h₁.room.append h₁.moved h₂.room
  · rw [length_append]
    exact h₁.moved.trans h₂.moved

theorem willRead_iff (hs : Live s) :
    s.willRead n = .ok s' ↔ Room s n ∧ s' = { advance s n with r := s.r } := by
  unfold Stream.willRead
  by_cases hlist : ∃ tos ∈ s.stack.head?, n > tos.size - tos.pos
  · simp only [if_pos hlist]
    refine ⟨fun h => absurd h (by simp), ?_⟩
    rintro ⟨hroom, -⟩
    obtain ⟨tos, ht, hlt⟩ := hlist
    have := hroom.list tos ht
    omega
  by_cases hin : n > s.remaining
  · simp only [if_neg hlist, hs.limited, if_true, if_pos hin]
    refine ⟨fun h => absurd h (by simp), ?_⟩
    rintro ⟨hroom, -⟩
    have := hroom.input
    rw [hs.remaining] at hin
    omega
  simp only [if_neg hlist, hs.limited, if_true, if_neg hin, Except.ok.injEq]
  have hroom : Room s n := by
    refine ⟨by rw [← hs.remaining]; omega, fun tos ht => ?_⟩
    by_contra hc
    exact hlist ⟨tos, ht, by omega⟩
  constructor
  · rintro rfl
    exact ⟨hroom, by simp [advance, hs.limited]⟩
  · rintro ⟨-, rfl⟩
    simp [advance, hs.limited]

theorem readFull_iff (hs : Live s) :
    s.readFull n = .ok (buf, s') ↔ Room s n ∧ buf = s.r.take n ∧ s' = advance s n := by
  unfold Stream.readFull
  cases hw : s.willRead n with
  | error e =>
    refine ⟨fun h => absurd h (by simp), ?_⟩
    rintro ⟨hroom, -⟩
    rw [(willRead_iff hs).mpr ⟨hroom, rfl⟩] at hw
    exact absurd hw (by simp)
  | ok s1 =>
    obtain ⟨hroom, rfl⟩ := (willRead_iff hs).mp hw
    have hlen : ¬ s.r.length < n := by
      have := hroom.input
      omega
    simp only [if_neg hlen, Except.ok.injEq, Prod.mk.injEq]
    constructor
    · rintro ⟨rfl, rfl⟩
      exact ⟨hroom, rfl, rfl⟩
    · rintro ⟨-, rfl, rfl⟩
      exact ⟨rfl, rfl⟩

theorem readByte_eq_readFull {b : UInt8} :
    s.readByte = .ok (b, s') ↔ s.readFull 1 = .ok ([b], s') := by
  unfold Stream.readByte Stream.readFull
  cases s.willRead 1 with
  | error e => simp
  | ok s1 =>
    cases hr : s1.r with
    | nil | cons c rest => simp [hr]

theorem readByte_iff {b : UInt8} (hs : Live s) :
    s.readByte = .ok (b, s') ↔ Room s 1 ∧ s.r.head? = some b ∧ s' = advance s 1 := by
  rw [readByte_eq_readFull, readFull_iff hs]
  cases s.r with
  | nil => simp
  | cons c rest => simp [eq_comm]

/-- An integer of `size` bytes: no leading zero, unless it is one byte. -/
theorem readUint_iff (hs : Live s) :
    s.readUint size = .ok (v, s') ↔ Room s size ∧ v = ofBigEndian (s.r.take size) ∧
      (2 ≤ size → s.r.head? ≠ some 0) ∧ s' = advance s size := by
  match size with
  | 0 =>
    have hroom : Room s 0 := ⟨by omega, fun _ _ => by omega⟩
    simp [Stream.readUint, hroom, ofBigEndian, advance_zero, eq_comm]
  | 1 =>
    simp only [Stream.readUint]
    cases hb : s.readByte with
    | error e =>
      refine ⟨fun h => absurd h (by simp), ?_⟩
      rintro ⟨hroom, -⟩
      obtain ⟨c, rest, hc⟩ : ∃ c rest, s.r = c :: rest := by
        have := hroom.input
        cases hr : s.r with
        | nil => simp [hr] at this
        | cons c rest => exact ⟨c, rest, rfl⟩
      rw [(readByte_iff (b := c) hs).mpr ⟨hroom, by simp [hc], rfl⟩] at hb
      cases hb
    | ok p =>
      obtain ⟨b, s1⟩ := p
      obtain ⟨hroom, hhead, rfl⟩ := (readByte_iff hs).mp hb
      cases hr : s.r with
      | nil => simp [hr] at hhead
      | cons c rest =>
        simp only [hr, head?_cons, some.injEq] at hhead
        subst hhead
        simp [hroom, ofBigEndian, eq_comm]
  | n + 2 =>
    simp only [Stream.readUint]
    cases hf : s.readFull (n + 2) with
    | error e =>
      refine ⟨fun h => absurd h (by simp), ?_⟩
      rintro ⟨hroom, -⟩
      rw [(readFull_iff hs).mpr ⟨hroom, rfl, rfl⟩] at hf
      exact absurd hf (by simp)
    | ok p =>
      obtain ⟨buf, s1⟩ := p
      obtain ⟨hroom, rfl, rfl⟩ := (readFull_iff hs).mp hf
      have hhead : (s.r.take (n + 2)).head? = s.r.head? := by cases s.r <;> rfl
      simp only [hhead]
      by_cases hz : s.r.head? = some 0 <;> simp [hz, hroom, eq_comm]

/-! ## §2 — headers. -/

/-- The size of a long value is what `readSize` of `rlp/raw.go` reads. -/
theorem readLongSize_iff (hs : Live s) (h1 : 1 ≤ size) : s.readLongSize size = .ok (n, s') ↔
      readSize s.r size = .ok n ∧ Room s size ∧ s' = advance s size := by
  have hsize : readSize s.r size = .ok n ↔ size ≤ s.r.length ∧ n = ofBigEndian (s.r.take size) ∧
      56 ≤ n ∧ s.r.head? ≠ some 0 := by
    unfold readSize
    by_cases hlen : s.r.length < size
    · simp only [if_pos hlen]
      exact ⟨fun h => absurd h (by simp), fun h => by omega⟩
    simp only [if_neg hlen]
    by_cases hc : ofBigEndian (s.r.take size) < 56 ∨ s.r.head? = some 0
    · simp only [if_pos hc]
      refine ⟨fun h => absurd h (by simp), ?_⟩
      rintro ⟨-, rfl, h56, hz⟩
      exact hc.elim (fun h => by omega) (fun h => absurd h hz)
    simp only [if_neg hc, Except.ok.injEq]
    rw [not_or, not_lt] at hc
    constructor
    · rintro rfl
      exact ⟨by omega, rfl, hc⟩
    · rintro ⟨-, rfl, -⟩
      rfl
  unfold Stream.readLongSize
  rw [hsize]
  constructor
  · intro h
    cases hu : s.readUint size with
    | error e => simp [hu] at h
    | ok p =>
      obtain ⟨m, s1⟩ := p
      obtain ⟨hroom, hm, hzero, rfl⟩ := (readUint_iff hs).mp hu
      simp only [hu] at h
      split at h
      · cases h
      obtain ⟨rfl, rfl⟩ := h
      refine ⟨⟨hroom.input, hm, by omega, ?_⟩, hroom, rfl⟩
      intro hz
      -- a single zero byte is no size from 56 on
      by_cases h2 : 2 ≤ size
      · exact hzero h2 hz
      have hone : size = 1 := by omega
      subst hone
      cases hr : s.r with
      | nil => simp [hr] at hz
      | cons c rest =>
        simp only [hr, head?_cons, some.injEq] at hz
        simp [hr, hz, ofBigEndian] at hm
        omega
  · rintro ⟨⟨-, hn, h56, hz⟩, hroom, rfl⟩
    have hu : s.readUint size = .ok (n, advance s size) :=
      (readUint_iff hs).mpr ⟨hroom, hn, fun _ => hz, rfl⟩
    simp only [hu, if_neg (by omega : ¬ n < 56)]

/-- The header of a value ahead: its kind, its size, and the byte it stands for. -/
def Head : Kind → Nat → UInt8 → Bytes → Prop
  | .byte, n, bv, hdr => n = 0 ∧ bv < 0x80 ∧ hdr = [bv]
  | .string, n, bv, hdr => n < 2 ^ 64 ∧ bv = 0 ∧ hdr = puthead 0x80 0xB7 n
  | .list, n, bv, hdr => n < 2 ^ 64 ∧ bv = 0 ∧ hdr = puthead 0xC0 0xF7 n

structure ReadsHead (s : Stream) (k : Kind) (n : Nat) (hdr : Bytes) (s' : Stream) : Prop where
  head : Head k n s'.byteval hdr
  input : s.r = hdr ++ s.r.drop hdr.length
  room : Room s hdr.length
  eq : s' = { advance s hdr.length with byteval := s'.byteval }

theorem head_iff {hdr : Bytes} (hk : k ≠ .byte) :
    Head k n bv hdr ↔ n < 2 ^ 64 ∧ bv = 0 ∧ hdr = headOf k n := by
  cases k with
  | byte => exact absurd rfl hk
  | string | list => exact Iff.rfl

theorem Head.exists_cons {hdr : Bytes} (h : Head k n bv hdr) : ∃ b t, hdr = b :: t := by
  refine exists_cons_of_ne_nil (ne_nil_of_length_pos ?_)
  cases k with
  | byte => simp [h.2.2]
  | string => exact h.2.2 ▸ length_puthead_pos 0x80 0xB7 n
  | list => exact h.2.2 ▸ length_puthead_pos 0xC0 0xF7 n

theorem readKind_of_byte {b : UInt8} (h : s.readByte = .ok (b, s1)) : s.readKind =
    onTag b (.ok ((.byte, 0), { s1 with byteval := b }))
      (fun k n => .ok ((k, n), { s1 with byteval := 0 }))
      (fun k m => ({ s1 with byteval := 0 } : Stream).readLongSize m |>.map
        fun (n, s) => ((k, n), s)) := by
  simp only [Stream.readKind, h]
  rfl

/-- The long form: a tag with the size of the size, and the size. -/
theorem readLong_sound {b : UInt8} (hs : Live s) (h1 : Room s 1) (hr : s.r = b :: rest)
    (hlo : 1 ≤ m) (hhi : m ≤ 8) (htag : ∀ n, 56 ≤ n → putintSize n = m → headOf k n = b :: putint n)
    (h : ({ advance s 1 with byteval := 0 } : Stream).readLongSize m = .ok (n, s')) :
    n < 2 ^ 64 ∧ s.r = headOf k n ++ s.r.drop (headOf k n).length ∧ Room s (headOf k n).length ∧
      s' = { advance s (headOf k n).length with byteval := 0 } := by
  have hm : Moved s 1 { advance s 1 with byteval := 0 } := ⟨s.size, 0, rfl⟩
  obtain ⟨hsize, hroom, rfl⟩ := (readLongSize_iff (hm.live hs) hlo).mp h
  have hsize' : readSize rest m = .ok n := by simpa [advance, hr] using hsize
  obtain ⟨hrest, hlen, h56, h64⟩ := readSize_sound hlo hhi hsize'
  have hhead := htag n h56 hlen
  have hlen' : (headOf k n).length = 1 + m := by
    rw [hhead, length_cons, length_putint, hlen, Nat.add_comm]
  refine ⟨h64, ?_, ?_, ?_⟩
  · rw [hlen', hr, Nat.add_comm, drop_succ_cons, hhead, cons_append, ← hrest]
  · rw [hlen']
    exact h1.append hm hroom
  · rw [hlen', ← advance_advance]
    rfl

theorem readKind_sound (hs : Live s) (h : s.readKind = .ok ((k, n), s')) :
    ∃ hdr, ReadsHead s k n hdr s' := by
  cases hrb : s.readByte with
  | error e =>
    simp only [Stream.readKind, hrb] at h
    split at h <;> cases h
  | ok p =>
    obtain ⟨b, s1⟩ := p
    obtain ⟨hroom, hhead, rfl⟩ := (readByte_iff hs).mp hrb
    obtain ⟨rest, hr⟩ := head?_eq_some_iff.mp hhead
    have hone : s.r = [b] ++ s.r.drop 1 := by simp [hr]
    rw [readKind_of_byte hrb] at h
    revert h
    refine onTag_cases (P := fun r => r = Except.ok ((k, n), s') → ∃ hdr, ReadsHead s k n hdr s')
      (fun h80 h => ?_) (fun k' n' hk hlt hb h => ?_) fun k' m hk hlo hhi htag h => ?_
    · obtain ⟨⟨rfl, rfl⟩, rfl⟩ := h
      exact ⟨[b], ⟨rfl, h80, rfl⟩, hone, hroom, rfl⟩
    · obtain ⟨⟨rfl, rfl⟩, rfl⟩ := h
      exact ⟨[b], (head_iff hk).mpr ⟨by omega, rfl, hb.symm⟩, hone, hroom, rfl⟩
    · obtain ⟨⟨n', s2⟩, hl, heq⟩ := map_ok.mp h
      obtain ⟨⟨rfl, rfl⟩, rfl⟩ := heq
      obtain ⟨h64, hin, hr, rfl⟩ := readLong_sound hs hroom hr hlo hhi htag hl
      exact ⟨_, (head_iff hk).mpr ⟨h64, rfl, rfl⟩, hin, hr, rfl⟩

theorem readLong_complete {b : UInt8} (hs : Live s) (h56 : 56 ≤ n) (h64 : n < 2 ^ 64)
    (hin : s.r = b :: putint n ++ rest) (hroom : Room s (b :: putint n).length) :
    ({ advance s 1 with byteval := 0 } : Stream).readLongSize (putintSize n) =
      .ok (n, { advance s (b :: putint n).length with byteval := 0 }) := by
  have hm : Moved s 1 { advance s 1 with byteval := 0 } := ⟨s.size, 0, rfl⟩
  rw [length_cons, length_putint, Nat.add_comm] at hroom ⊢
  refine (readLongSize_iff (hm.live hs) (putintSize_pos n)).mpr ⟨?_, (hroom.split hm).2, ?_⟩
  · have hr : (advance s 1).r = putint n ++ rest := by
      simp only [advance, hin, cons_append, drop_succ_cons, drop_zero]
    simpa [hr] using readSize_putint h56 h64 rest
  · rw [← advance_advance]
    rfl

theorem readKind_complete {hdr : Bytes} (hs : Live s) (hh : Head k n bv hdr)
    (hin : s.r = hdr ++ rest) (hroom : Room s hdr.length) :
    s.readKind = .ok ((k, n), { advance s hdr.length with byteval := bv }) := by
  obtain ⟨b, t, rfl⟩ := hh.exists_cons
  have hroom1 : Room s 1 := by
    have hr : Room s (1 + t.length) := by rwa [Nat.add_comm, ← length_cons (a := b)]
    exact (hr.split (moved_advance s 1)).1
  have hrb : s.readByte = .ok (b, advance s 1) :=
    (readByte_iff hs).mpr ⟨hroom1, by simp [hin], rfl⟩
  rw [readKind_of_byte hrb]
  by_cases hk : k = .byte
  · subst hk
    obtain ⟨rfl, h80, hb⟩ := hh
    obtain ⟨rfl, rfl⟩ := hb
    simp only [onTag, if_pos h80, length_singleton]
  obtain ⟨h64, rfl, hb⟩ := (head_iff hk).mp hh
  by_cases h56 : n < 56
  · obtain ⟨b', hb', htag⟩ := onTag_short hk h56
    obtain ⟨rfl, rfl⟩ := cons.inj (hb.trans hb')
    rw [htag]
    rfl
  · obtain ⟨b', hb', htag⟩ := onTag_long hk (not_lt.mp h56)
    obtain ⟨rfl, rfl⟩ := cons.inj (hb.trans hb')
    rw [htag, readLong_complete hs (not_lt.mp h56) h64 hin hroom]
    rfl

/-- The innermost list is read to its end. -/
def AtEnd (s : Stream) : Prop := ∃ tos ∈ s.stack.head?, tos.pos = tos.size

theorem Kind_atEnd (hk : s.kind = none) (h : AtEnd s) : s.Kind = .error .eol := by
  simp only [Stream.Kind, hk]
  exact if_pos h

/-- A stream that has read a header. -/
def withHead (s : Stream) (hdr : Nat) (k : Kind) (n : Nat) (bv : UInt8) : Stream :=
  { advance s hdr with kind := some k, size := n, byteval := bv }

theorem moved_withHead : Moved s (hdr + m) (advance (withHead s hdr k n bv) m) :=
  ⟨n, bv, by rw [← advance_advance]; rfl⟩

theorem Kind_sound (hs : Live s) (hk : s.kind = none) (h : s.Kind = .ok ((k, n), s')) :
    ∃ hdr bv, Head k n bv hdr ∧ s.r = hdr ++ s.r.drop hdr.length ∧ Room s hdr.length ∧
      (∀ tos ∈ (advance s hdr.length).stack.head?, n ≤ tos.size - tos.pos) ∧
      s' = withHead s hdr.length k n bv := by
  simp only [Stream.Kind, hk] at h
  split at h
  · cases h
  cases hr : s.readKind with
  | error e => simp [hr] at h
  | ok p =>
    obtain ⟨⟨k', n'⟩, s1⟩ := p
    obtain ⟨hdr, hhead, hin, hroom, heq⟩ := readKind_sound hs hr
    simp only [hr] at h
    have hstack : s1.stack = (advance s hdr.length).stack := by rw [heq]
    split at h
    · rename_i hnil
      split at h
      · cases h
      obtain ⟨⟨rfl, rfl⟩, rfl⟩ := h
      refine ⟨hdr, s1.byteval, hhead, hin, hroom, ?_, by rw [withHead]; rw [heq]⟩
      rw [← hstack, hnil]
      simp
    rename_i tos rest hcons
    split at h
    · cases h
    obtain ⟨⟨rfl, rfl⟩, rfl⟩ := h
    refine ⟨hdr, s1.byteval, hhead, hin, hroom, ?_, by rw [withHead]; rw [heq]⟩
    rw [← hstack, hcons]
    simp only [head?_cons, mem_def, some.injEq]
    rintro t rfl
    omega

theorem Kind_complete {hdr : Bytes} (hs : Live s) (hk : s.kind = none) (hend : ¬ AtEnd s)
    (hh : Head k n bv hdr) (hin : s.r = hdr ++ rest) (hroom : Room s (hdr.length + n)) :
    s.Kind = .ok ((k, n), withHead s hdr.length k n bv) := by
  have hm := moved_advance s hdr.length
  obtain ⟨hr1, hr2⟩ := hroom.split hm
  have hrk := readKind_complete hs hh hin hr1
  simp only [Stream.Kind, hk, hrk]
  rw [if_neg (show ¬ ∃ tos ∈ s.stack.head?, tos.pos = tos.size from hend)]
  have hlim := hr2.input
  have hlist := hr2.list
  split
  · have hle : ¬ n > (advance s hdr.length).remaining := by
      rw [(hm.live hs).remaining]
      omega
    simp [hle, withHead]
  · rename_i tos t hcons
    have hle := hlist tos (by rw [show (advance s hdr.length).stack = tos :: t from hcons]; rfl)
    simp [show ¬ n > tos.size - tos.pos by omega, withHead]

/-! ## §3 — strings and integers. -/

theorem Kind_withHead (s : Stream) (hdr : Nat) (k : Kind) (n : Nat) (bv : UInt8) :
    (withHead s hdr k n bv).Kind = .ok ((k, n), withHead s hdr k n bv) := rfl

theorem live_withHead (hs : Live s) : Live (withHead s hdr k n bv) :=
  ⟨((moved_advance s hdr).live hs).limited, ((moved_advance s hdr).live hs).remaining⟩

theorem room_withHead : Room (withHead s hdr k n bv) m ↔ Room (advance s hdr) m :=
  ⟨fun h => ⟨h.input, h.list⟩, fun h => ⟨h.input, h.list⟩⟩

theorem Room.not_atEnd (h : Room s n) (hn : 1 ≤ n) : ¬ AtEnd s := by
  rintro ⟨tos, ht, heq⟩
  have := h.list tos ht
  omega

/-- A byte below `0x80` is its own encoding. -/
theorem encodeString_byte {x : UInt8} (hx : x < 0x80) : encodeString [x] = [x] := by
  rw [encodeString_of_head (k := .byte) (by simp) (fun _ => ⟨x, rfl, hx⟩) (by simp)]
  rfl

theorem encodeString_string (h : ∀ x, b = [x] → ¬ x < 128) :
    encodeString b = puthead 0x80 0xB7 b.length ++ b :=
  encodeString_of_head (k := .string) (by simp) (by simp) (fun _ => h)

/-- The header of a string and a content of its size are an encoded string. -/
theorem parsed_string (hroom : Room s (puthead 0x80 0xB7 n).length)
    (hin : s.r = puthead 0x80 0xB7 n ++ s.r.drop (puthead 0x80 0xB7 n).length)
    (hroom' : Room (withHead s (puthead 0x80 0xB7 n).length .string n 0) n)
    (hb : b = (s.r.drop (puthead 0x80 0xB7 n).length).take n) (hcanon : ∀ x, b = [x] → ¬ x < 128) :
    b.length = n ∧
      Parsed s (encodeString b) (advance (withHead s (puthead 0x80 0xB7 n).length .string n 0) n) := by
  have hlen : b.length = n := by
    have := hroom'.input
    rw [hb, length_take]
    exact Nat.min_eq_left this
  have he : encodeString b = puthead 0x80 0xB7 n ++ b := by rw [encodeString_string hcanon, hlen]
  have hel : (encodeString b).length = (puthead 0x80 0xB7 n).length + n := by
    rw [he, length_append, hlen]
  refine ⟨hlen, ?_, ?_, ?_⟩
  · rw [hel, ← drop_drop, he, append_assoc, hb, take_append_drop]
    exact hin
  · rw [hel]
    exact hroom.append (moved_advance s _) (room_withHead.mp hroom')
  · rw [hel]
    exact moved_withHead

theorem string_sound (hs : Live s) (hk : s.kind = none) (hKind : s.Kind = .ok ((k, n), s1))
    (h : s1.Bytes = .ok (b, s')) : b.length < 2 ^ 64 ∧ Parsed s (encodeString b) s' := by
  obtain ⟨hdr, bv, hhead, hin, hroom, -, rfl⟩ := Kind_sound hs hk hKind
  simp only [Stream.Bytes, Kind_withHead] at h
  cases k with
  | list => simp at h
  | byte =>
    obtain ⟨rfl, h80, rfl⟩ := hhead
    obtain ⟨rfl, rfl⟩ := h
    have he : encodeString [(withHead s [bv].length .byte 0 bv).byteval] = [bv] :=
      encodeString_byte h80
    rw [he]
    exact ⟨by norm_num, hin, hroom, 0, bv, rfl⟩
  | string =>
    obtain ⟨h64, rfl, rfl⟩ := hhead
    cases hf : (withHead s (puthead 0x80 0xB7 n).length .string n 0).readFull n with
    | error e => simp [hf] at h
    | ok p =>
      obtain ⟨buf, s2⟩ := p
      obtain ⟨hroom', hbuf, rfl⟩ := (readFull_iff (live_withHead hs)).mp hf
      simp only [hf] at h
      split at h
      · cases h
      rename_i hcanon
      simp only [Except.ok.injEq, Prod.mk.injEq] at h
      obtain ⟨rfl, rfl⟩ := h
      have hone (x : UInt8) (hx : buf = [x]) : ¬ x < 128 := fun hlt =>
        hcanon ⟨by rw [← length_take_of_le hroom'.input, ← hbuf, hx]; rfl, x, by simp [hx], hlt⟩
      obtain ⟨hlen, hp⟩ := parsed_string hroom hin hroom' hbuf hone
      exact ⟨hlen ▸ h64, hp⟩

theorem string_complete (hs : Live s) (hk : s.kind = none) (hfits : b.length < 2 ^ 64)
    (hin : s.r = encodeString b ++ rest) (hroom : Room s (encodeString b).length) :
    ∃ k n s1 s', s.Kind = .ok ((k, n), s1) ∧ k ≠ .list ∧ s1.Bytes = .ok (b, s') ∧
      Moved s (encodeString b).length s' := by
  have hpos : 1 ≤ (encodeString b).length := length_encode_pos (.str b)
  by_cases hone : ∃ x, b = [x] ∧ x < 0x80
  · obtain ⟨x, rfl, hx⟩ := hone
    rw [encodeString_byte hx] at hin hroom ⊢
    have hhead : Head .byte 0 x [x] := ⟨rfl, hx, rfl⟩
    have hK := Kind_complete hs hk (hroom.not_atEnd (by simp)) hhead hin hroom
    exact ⟨_, _, _, _, hK, by simp, rfl, ⟨0, x, rfl⟩⟩
  have he := encodeString_string (b := b) fun x hb hlt => hone ⟨x, hb, hlt⟩
  have hcanon : ¬ (b.length = 1 ∧ ∃ c ∈ b.head?, c < 128) := by
    rintro ⟨hlen, c, hc, hlt⟩
    obtain ⟨x, rfl⟩ := length_eq_one_iff.mp hlen
    simp only [head?_cons, mem_def, some.injEq] at hc
    exact hone ⟨x, rfl, hc ▸ hlt⟩
  have hnot := hroom.not_atEnd hpos
  rw [he, length_append] at hroom ⊢
  rw [he, append_assoc] at hin
  have hhead : Head .string b.length 0 (puthead 0x80 0xB7 b.length) := ⟨hfits, rfl, rfl⟩
  have hK := Kind_complete hs hk hnot hhead hin hroom
  have hlive : Live (withHead s (puthead 0x80 0xB7 b.length).length .string b.length 0) :=
    live_withHead hs
  have hbuf : b = (withHead s (puthead 0x80 0xB7 b.length).length .string b.length 0).r.take
      b.length := by
    simp only [withHead, advance, hin, drop_left, take_left]
  have hf := (readFull_iff hlive).mpr
    ⟨room_withHead.mpr (hroom.split (moved_advance s _)).2, hbuf, rfl⟩
  refine ⟨_, _, _, advance (withHead s (puthead 0x80 0xB7 b.length).length .string b.length 0)
    b.length, hK, by simp, ?_, moved_withHead⟩
  simp only [Stream.Bytes, Kind_withHead, hf, if_neg hcanon]

/-- A number read from canonical input has the bytes that were read. -/
theorem intBytes_of_canonical (hle : n ≤ t.length) (h8 : n ≤ 8)
    (hv : v = ofBigEndian (t.take n)) (hzero : 2 ≤ n → t.head? ≠ some 0)
    (hcanon : ¬ (n > 0 ∧ v < 128)) : intBytes v = t.take n ∧ ∀ c, t.take n = [c] → ¬ c < 128 := by
  rcases n with _ | m
  · exact ⟨by rw [hv]; rfl, by simp⟩
  obtain ⟨c, t, rfl⟩ : ∃ c t', t = c :: t' := by
    rcases t with _ | ⟨c, t⟩
    · simp at hle
    · exact ⟨c, t, rfl⟩
  rw [take_succ_cons] at hv ⊢
  have hlen : (c :: t.take m).length = m + 1 := by
    simp only [length_cons, length_take] at hle ⊢
    omega
  have hval : m = 0 → v = c.toNat := by
    rintro rfl
    simpa [ofBigEndian] using hv
  have hc : c ≠ 0 := by
    rintro rfl
    by_cases hm : m = 0
    · have := hval hm
      exact hcanon ⟨by omega, by simp [this]⟩
    · exact hzero (by omega) rfl
  refine ⟨by rw [hv, intBytes_of_head hc (by omega)], ?_⟩
  intro d hd hlt
  simp only [cons.injEq] at hd
  have hm : m = 0 := by
    rw [hd.2] at hlen
    simpa using hlen.symm
  rw [← hd.1, lt_tag_iff] at hlt
  exact hcanon ⟨by omega, by simp at hlt; omega⟩

/-- An integer that is read is the encoding of that integer. -/
theorem uint_sound (hs : Live s) (hk : s.kind = none) (h : s.Uint = .ok (x, s')) :
    x < 2 ^ 64 ∧ Parsed s (encodeString (intBytes x)) s' := by
  unfold Stream.Uint Stream.uint at h
  cases hKind : s.Kind with
  | error e => simp [hKind] at h
  | ok p =>
    obtain ⟨⟨k, n⟩, s1⟩ := p
    obtain ⟨hdr, bv, hhead, hin, hroom, -, rfl⟩ := Kind_sound hs hk hKind
    simp only [hKind] at h
    cases k with
    | list => simp at h
    | byte =>
      obtain ⟨rfl, h80, rfl⟩ := hhead
      simp only at h
      split at h
      · cases h
      rename_i hne
      obtain ⟨rfl, rfl⟩ := h
      have hint : intBytes bv.toNat = [bv] := by
        have := @intBytes_of_head bv [] hne (by simp)
        simpa [ofBigEndian] using this
      have he : encodeString (intBytes (withHead s [bv].length .byte 0 bv).byteval.toNat) =
          [bv] := by
        rw [show (withHead s [bv].length .byte 0 bv).byteval = bv from rfl, hint,
          encodeString_byte h80]
      rw [he]
      exact ⟨lt_trans bv.toNat_lt (by norm_num), hin, hroom, 0, bv, rfl⟩
    | string =>
      obtain ⟨h64, rfl, rfl⟩ := hhead
      simp only at h
      split at h
      · cases h
      cases hu : (withHead s (puthead 0x80 0xB7 n).length .string n 0).readUint n with
      | error e => simp [hu] at h
      | ok p =>
        obtain ⟨v, s2⟩ := p
        obtain ⟨hroom', hv, hzero, rfl⟩ := (readUint_iff (live_withHead hs)).mp hu
        simp only [hu] at h
        split at h
        · cases h
        rename_i hcanon
        obtain ⟨rfl, rfl⟩ := h
        have hle := hroom'.input
        obtain ⟨hbytes, hone⟩ := intBytes_of_canonical hle (by omega) hv hzero hcanon
        obtain ⟨-, hp⟩ := parsed_string hroom hin hroom' hbytes
          fun c hc => hone c (by rw [← hbytes, hc])
        refine ⟨?_, hp⟩
        rw [hv]
        exact ofBigEndian_lt_of_length (by rw [length_take]; omega)

/-- The encoding of an integer is read. -/
theorem uint_complete (hs : Live s) (hk : s.kind = none) (h64 : x < 2 ^ 64)
    (hin : s.r = encodeString (intBytes x) ++ rest)
    (hroom : Room s (encodeString (intBytes x)).length) :
    ∃ s', s.Uint = .ok (x, s') ∧ Moved s (encodeString (intBytes x)).length s' := by
  have hnot := hroom.not_atEnd (length_encode_pos (.str (intBytes x)))
  have hfits := length_intBytes_le x
  by_cases hone : ∃ c, intBytes x = [c] ∧ c < 0x80
  · obtain ⟨c, hc, h80⟩ := hone
    have hx : x ≠ 0 := by
      rintro rfl
      simp [intBytes] at hc
    have hput : putint x = [c] := by rw [← hc, intBytes, if_neg hx]
    have hval : c.toNat = x := by
      have := ofBigEndian_putint h64
      rw [hput] at this
      simpa [ofBigEndian] using this
    have hne : c ≠ 0 := by
      rintro rfl
      exact hx hval.symm
    rw [hc, encodeString_byte h80] at hin hroom ⊢
    have hhead : Head .byte 0 c [c] := ⟨rfl, h80, rfl⟩
    have hK := Kind_complete hs hk hnot hhead hin hroom
    refine ⟨{ withHead s [c].length .byte 0 c with kind := none }, ?_, 0, c, rfl⟩
    simp only [Stream.Uint, Stream.uint, hK]
    rw [if_neg (show ¬ (withHead s [c].length .byte 0 c).byteval = 0 from hne),
      show (withHead s [c].length .byte 0 c).byteval.toNat = x from hval]
  have hcanon : ∀ c, intBytes x = [c] → ¬ c < 128 := fun c hc hlt => hone ⟨c, hc, hlt⟩
  have he := encodeString_string hcanon
  rw [he, length_append] at hroom ⊢
  rw [he, append_assoc] at hin
  generalize hn : (intBytes x).length = n at *
  have hhead : Head .string n 0 (puthead 0x80 0xB7 n) := ⟨by omega, rfl, rfl⟩
  have hK := Kind_complete hs hk hnot hhead hin hroom
  have hlive : Live (withHead s (puthead 0x80 0xB7 n).length .string n 0) := live_withHead hs
  have hr : (withHead s (puthead 0x80 0xB7 n).length .string n 0).r = intBytes x ++ rest := by
    simp only [withHead, advance, hin, drop_left]
  obtain ⟨hv, hzero, hge⟩ : x = ofBigEndian (intBytes x) ∧
      (2 ≤ n → (intBytes x ++ rest).head? ≠ some 0) ∧ ¬ (n > 0 ∧ x < 128) := by
    by_cases hx : x = 0
    · subst hx
      simp only [intBytes, if_true, length_nil] at hn
      exact ⟨rfl, by omega, by omega⟩
    obtain ⟨c, t, hput, hne⟩ := putint_head (by omega : 1 ≤ x) h64
    have hi : intBytes x = putint x := by rw [intBytes, if_neg hx]
    have hval : ofBigEndian (putint x) = x := ofBigEndian_putint h64
    refine ⟨by rw [hi, hval], fun _ => by simp [hi, hput, hne], ?_⟩
    rintro ⟨-, hlt⟩
    -- an integer below 128 takes one byte, and that byte is below 128
    have hsize : putintSize x = 1 := by simp [putintSize, show x < 256 by omega]
    have hb : putint x = [UInt8.ofNat x] := by simp [putint, hsize, bigEndian]
    refine hone ⟨UInt8.ofNat x, by rw [hi, hb], ?_⟩
    rw [lt_tag_iff, UInt8.toNat_ofNat']
    simp
    omega
  have hu := (readUint_iff (v := x) hlive).mpr
    ⟨room_withHead.mpr (hroom.split (moved_advance s _)).2,
      by rw [hr, ← hn, take_left]; exact hv, by rw [hr]; exact hzero, rfl⟩
  refine ⟨advance (withHead s (puthead 0x80 0xB7 n).length .string n 0) n, ?_, moved_withHead⟩
  simp only [Stream.Uint, Stream.uint, hK, if_neg (show ¬ n > 64 / 8 by omega), hu, if_neg hge]

/-! ## §4 — value trees. -/

/-- The stream inside a list of `n` bytes whose header was read. -/
def inside (s : Stream) (hdr n : Nat) : Stream :=
  { advance s hdr with stack := ⟨0, n⟩ :: (advance s hdr).stack, size := 0, byteval := 0 }

theorem live_inside (hs : Live s) : Live (inside s hdr n) :=
  ⟨((moved_advance s hdr).live hs).limited, ((moved_advance s hdr).live hs).remaining⟩

theorem List_withHead (s : Stream) (hdr n : Nat) :
    (withHead s hdr .list n 0).List = .ok (n, inside s hdr n) := rfl

/-- `ListEnd` leaves a list that was read to its end, and moves on in the list around it. -/
theorem ListEnd_iff (h : Moved (inside s hdr n) m s1) : s1.ListEnd = .ok s' ↔ m = n ∧
      s' = { advance s (hdr + n) with size := 0, byteval := s1.byteval } := by
  obtain ⟨z, v, rfl⟩ := h
  unfold Stream.ListEnd
  simp only [inside, advance, bump_cons, Nat.zero_add]
  by_cases hm : m = n
  · subst hm
    simp [bump_bump, drop_drop, Nat.sub_sub, eq_comm]
  · simp [hm]

theorem decodeSliceElems_sound (hdec : ∀ s v s', Live s → s.kind = none → elemdec s = .ok (v, s') →
      (contentOf v).length < 2 ^ 64 ∧ Parsed s (encode v) s') :
    ∀ {n : Nat} {s s' : Stream} {items : List Item}, Live s → s.kind = none →
      decodeSliceElems elemdec n s = .ok (items, s') → Parsed s (encodeList items) s'
  | 0, s, s', items, _, _, h => by simp [decodeSliceElems] at h
  | n + 1, s, s', items, hs, hk, h => by
    rw [decodeSliceElems] at h
    split at h
    · obtain ⟨rfl, rfl⟩ := h
      exact parsed_nil hk
    · cases h
    rename_i v s1 hv
    have hp := (hdec s v s1 hs hk hv).2
    obtain ⟨p, hr, heq⟩ := map_ok.mp h
    cases heq
    exact hp.append (decodeSliceElems_sound hdec (hp.moved.live hs) hp.moved.kind hr)

/-- **A value that is decoded is an encoded value.** -/
theorem decodeInterface_sound : ∀ {s s' : Stream} {v : Item}, Live s →
    s.kind = none → decodeInterface fuel s = .ok (v, s') →
      (contentOf v).length < 2 ^ 64 ∧ Parsed s (encode v) s' := by
  induction fuel with
  | zero =>
    intro s s' v _ _ h
    simp [decodeInterface] at h
  | succ fuel ih =>
    intro s s' v hs hk h
    rw [decodeInterface] at h
    cases hKind : s.Kind with
    | error e => simp [hKind] at h
    | ok p =>
      obtain ⟨⟨k, n⟩, s1⟩ := p
      simp only [hKind] at h
      split at h
      · rename_i hlist
        subst hlist
        obtain ⟨hdr, bv, ⟨h64, rfl, rfl⟩, hin, hroom, hroomIn, rfl⟩ := Kind_sound hs hk hKind
        -- with the header read, the elements are decoded inside the list, up to `ListEnd`
        obtain ⟨items, s2, rfl, helems, hend⟩ : ∃ items s2, v = .list items ∧
            Parsed (inside s (puthead 0xC0 0xF7 n).length n) (encodeList items) s2 ∧
            s2.ListEnd = .ok s' := by
          simp only [decodeListSlice, List_withHead] at h
          split at h
          · obtain ⟨p, hp, heq⟩ := map_ok.mp h
            obtain ⟨s2, he, rfl⟩ := map_ok.mp hp
            cases heq
            exact ⟨[], _, rfl, parsed_nil rfl, he⟩
          cases hd : decodeSliceElems (decodeInterface fuel) fuel
              (inside s (puthead 0xC0 0xF7 n).length n) with
          | error e => simp [hd, Except.map] at h
          | ok p =>
            obtain ⟨items, s2⟩ := p
            simp only [hd] at h
            obtain ⟨p, hp, heq⟩ := map_ok.mp h
            obtain ⟨s3, he, rfl⟩ := map_ok.mp hp
            cases heq
            exact ⟨items, s2, rfl, decodeSliceElems_sound (fun s v s' => ih) (live_inside hs) rfl
              hd, he⟩
        obtain ⟨hlen, rfl⟩ := (ListEnd_iff helems.moved).mp hend
        have henc : encode (.list items) = puthead 0xC0 0xF7 n ++ encodeList items := by
          rw [encode_list, hlen]
        have hr : s.r.drop (puthead 0xC0 0xF7 n).length = encodeList items ++ s2.r := helems.r
        have hr₂ : s2.r = s.r.drop ((puthead 0xC0 0xF7 n).length + n) := by
          rw [helems.moved.r, hlen, ← drop_drop]
          rfl
        have hlen' : (encode (.list items)).length = (puthead 0xC0 0xF7 n).length + n := by
          rw [henc, length_append, hlen]
        refine ⟨by rw [contentOf, hlen]; exact h64, ?_, ?_, ?_⟩
        · rw [hlen', ← hr₂, henc, append_assoc, ← hr]
          exact hin
        · rw [hlen']
          refine hroom.append (moved_advance s _) ⟨?_, hroomIn⟩
          have := helems.room.input
          rw [hlen] at this
          exact this
        · rw [hlen']
          exact ⟨0, s2.byteval, rfl⟩
      · obtain ⟨p, hb, heq⟩ := map_ok.mp h
        cases heq
        exact string_sound hs hk hKind hb

theorem decodeSliceElems_complete (hend : ∀ s, s.kind = none → AtEnd s → elemdec s = .error .eol) :
    ∀ {items : List Item} {n : Nat} {s : Stream} {rest : Bytes} {tos : ListPos}
      {stack : List ListPos}, items.length < n →
      (∀ v ∈ items, ∀ s rest, Live s → s.kind = none → s.r = encode v ++ rest →
        Room s (encode v).length → ∃ s', elemdec s = .ok (v, s') ∧ Moved s (encode v).length s') →
      Live s → s.kind = none → s.r = encodeList items ++ rest → s.stack = tos :: stack →
      tos.pos + (encodeList items).length = tos.size →
      ∃ s', decodeSliceElems elemdec n s = .ok (items, s') ∧ Moved s (encodeList items).length s'
  | [], n + 1, s, rest, tos, stack, _, _, _, hk, _, hstack, hsize => by
    have hat : AtEnd s := ⟨tos, by simp [hstack], by simpa using hsize⟩
    refine ⟨s, ?_, (parsed_nil hk).moved⟩
    rw [decodeSliceElems, hend s hk hat]
  | v :: items, n + 1, s, rest, tos, stack, hn, hdec, hs, hk, hin, hstack, hsize => by
    rw [encodeList_cons, append_assoc] at hin
    rw [encodeList_cons, length_append] at hsize
    have hroom : Room s (encode v).length := by
      refine ⟨by rw [hin, length_append]; omega, fun t ht => ?_⟩
      simp only [hstack, head?_cons, mem_def, some.injEq] at ht
      subst ht
      omega
    obtain ⟨s1, hv, hm⟩ := hdec v mem_cons_self s _ hs hk hin hroom
    have hstack' : s1.stack = ⟨tos.pos + (encode v).length, tos.size⟩ :: stack := by
      rw [hm.stack, hstack, bump_cons]
    obtain ⟨s2, hr, hm2⟩ := decodeSliceElems_complete hend (by simpa using hn : items.length < n)
      (fun w hw => hdec w (mem_cons_of_mem _ hw)) (hm.live hs) hm.kind
      (by rw [hm.r, hin, drop_left]) hstack' (by simp only; omega)
    refine ⟨s2, ?_, by rw [encodeList_cons, length_append]; exact hm.trans hm2⟩
    simp only [decodeSliceElems, hv, hr, Except.map]

theorem decodeInterface_atEnd (hk : s.kind = none) (h : AtEnd s) :
    decodeInterface (fuel + 1) s = .error .eol := by
  rw [decodeInterface, Kind_atEnd hk h]

/-- **An encoded value is decoded**, with any bound on the depth above the length of its
encoding. -/
theorem decodeInterface_complete : ∀ (v : Item) (s : Stream) (rest : Bytes),
    (encode v).length < fuel → (contentOf v).length < 2 ^ 64 → Live s → s.kind = none →
      s.r = encode v ++ rest → Room s (encode v).length →
      ∃ s', decodeInterface fuel s = .ok (v, s') ∧ Moved s (encode v).length s' := by
  induction fuel with
  | zero =>
    intro v s rest hfuel
    exact absurd hfuel (by omega)
  | succ fuel ih =>
    intro v s rest hfuel hfits hs hk hin hroom
    cases v with
    | str b =>
      simp only [contentOf] at hfits
      obtain ⟨k, n, s1, s', hK, hne, hb, hm⟩ := string_complete hs hk hfits hin hroom
      refine ⟨s', ?_, hm⟩
      simp only [decodeInterface, hK, if_neg hne, hb, Except.map]
    | list items =>
      have hpos := length_encode_pos (.list items)
      have hnot := hroom.not_atEnd hpos
      rw [encode_list, append_assoc] at hin
      rw [encode_list, length_append] at hfuel hroom ⊢
      simp only [contentOf] at hfits
      generalize hn : (encodeList items).length = n at *
      have hput := length_puthead_pos 0xC0 0xF7 n
      have hhead : Head .list n 0 (puthead 0xC0 0xF7 n) := ⟨hfits, rfl, rfl⟩
      have hK := Kind_complete hs hk hnot hhead hin hroom
      have hr : (inside s (puthead 0xC0 0xF7 n).length n).r = encodeList items ++ rest := by
        simp only [inside, advance, hin, drop_left]
      have hcount := length_le_encodeList items
      obtain ⟨f, rfl⟩ : ∃ f, fuel = f + 1 := ⟨fuel - 1, by omega⟩
      have hend : ∀ s, s.kind = none → AtEnd s → decodeInterface (f + 1) s = .error .eol :=
        fun s hk h => decodeInterface_atEnd hk h
      obtain ⟨s2, hd, hm⟩ := decodeSliceElems_complete hend (by omega : items.length < f + 1)
        (fun w hw s rest hs hk hin hroom => by
          have hw' := length_encode_le_of_mem hw
          have hcw := length_contentOf_le w
          exact ih w s rest (by omega) (by omega) hs hk hin hroom)
        (live_inside hs) rfl hr rfl (by rw [Nat.zero_add]; exact hn)
      rw [hn] at hm
      have he := (ListEnd_iff hm).mpr ⟨rfl, rfl⟩
      refine ⟨{ advance s ((puthead 0xC0 0xF7 n).length + n) with size := 0, byteval := s2.byteval },
        ?_, 0, s2.byteval, rfl⟩
      by_cases hzero : n = 0
      · -- the empty list is left at once
        have hitems : items = [] := by
          cases items with
          | nil => rfl
          | cons x xs =>
            simp only [length_cons] at hcount
            omega
        subst hitems
        have hd' : decodeSliceElems (decodeInterface (f + 1)) (f + 1)
            (inside s (puthead 0xC0 0xF7 n).length n) =
            .ok ([], inside s (puthead 0xC0 0xF7 n).length n) := by
          rw [decodeSliceElems, decodeInterface_atEnd rfl ⟨⟨0, n⟩, rfl, hzero.symm⟩]
        rw [hd', Except.ok.injEq, Prod.mk.injEq] at hd
        rw [← hd.2] at he ⊢
        rw [decodeInterface]
        simp only [hK, if_true, decodeListSlice, List_withHead, if_pos hzero, he, Except.map]
      · rw [decodeInterface]
        simp only [hK, if_true, decodeListSlice, List_withHead, if_neg hzero, hd, he, Except.map]

theorem live_reset (b : Bytes) : Live (Stream.Reset b b.length) := by
  refine ⟨rfl, ?_⟩
  simp only [Stream.Reset]
  split <;> rfl

/-- **`DecodeBytes` inverts the encoder.** -/
theorem DecodeBytes_iff (hfuel : b.length < fuel) (v : Item) :
    DecodeBytes fuel b = .ok v ↔ b = encode v ∧ (contentOf v).length < 2 ^ 64 := by
  unfold DecodeBytes
  constructor
  · intro h
    cases hd : decodeInterface fuel (Stream.Reset b b.length) with
    | error e => simp [hd] at h
    | ok p =>
      obtain ⟨w, s'⟩ := p
      simp only [hd] at h
      split at h
      · cases h
      rw [Except.ok.injEq] at h
      subst h
      obtain ⟨hfits, hp⟩ := decodeInterface_sound (live_reset b) rfl hd
      have hnil : s'.r = [] := length_eq_zero_iff.mp (by omega)
      have hr : b = encode w ++ s'.r := hp.r
      rw [hnil, append_nil] at hr
      exact ⟨hr, hfits⟩
  · rintro ⟨rfl, hfits⟩
    have hroom : Room (Stream.Reset (encode v) (encode v).length) (encode v).length :=
      ⟨le_refl _, by simp [Stream.Reset]⟩
    obtain ⟨s', hd, hm⟩ := decodeInterface_complete v _ [] hfuel hfits (live_reset _) rfl
      (by simp [Stream.Reset]) hroom
    have hnil : s'.r = [] := by
      rw [hm.r]
      exact drop_length
    simp only [hd, hnil, length_nil, gt_iff_lt, lt_self_iff_false, if_false]

/-! ## §5 — the encoder, the decoder and the splitting functions. -/

/-- **RLP is a bijection on its image.** A byte string decodes to the value tree `v` exactly when
it is what the encoder writes for `v`; and nothing else comes out of the decoder, so whatever is
not the encoding of a tree is rejected. -/
theorem decodeBytes_iff_encodeToBytes (b : Bytes) (fuel : Nat) (hfuel : b.length < fuel) :
    (∀ v : Item, (contentOf v).length < 2 ^ 64 →
      (DecodeBytes fuel b = .ok v ↔ b = EncodeToBytes v)) ∧
    (∀ v : Item, DecodeBytes fuel b = .ok v → (contentOf v).length < 2 ^ 64) := by
  constructor
  · intro v hfits
    rw [DecodeBytes_iff hfuel, EncodeToBytes_eq hfits, and_iff_left hfits]
  · intro v h
    exact ((DecodeBytes_iff hfuel v).mp h).2

/-- A list of an empty string, a byte and an empty list; and the same with the byte in the long
form. -/
theorem decodeBytes_iff_encodeToBytes_nested :
    DecodeBytes 5 [0xC3, 0x80, 0x05, 0xC0] = .ok (.list [.str [], .str [5], .list []]) ∧
      ∀ v, (contentOf v).length < 2 ^ 64 → (DecodeBytes 6 [0xC4, 0x80, 0x81, 0x05, 0xC0] = .ok v ↔
          [0xC4, 0x80, 0x81, 0x05, 0xC0] = EncodeToBytes v) :=
  ⟨((decodeBytes_iff_encodeToBytes _ 5 (by decide)).1 _ (by decide)).mpr (by decide),
    (decodeBytes_iff_encodeToBytes _ 6 (by decide)).1⟩

theorem uint_iff : (∃ s, (Stream.NewStream b).Uint = .ok (x, s) ∧ s.r = rest) ↔
      x < 2 ^ 64 ∧ b = encodeString (intBytes x) ++ rest := by
  have hlive : Live (Stream.NewStream b) := ⟨rfl, rfl⟩
  constructor
  · rintro ⟨s, h, rfl⟩
    obtain ⟨h64, hp⟩ := uint_sound hlive rfl h
    exact ⟨h64, hp.r⟩
  · rintro ⟨h64, rfl⟩
    have hroom : Room (Stream.NewStream (encodeString (intBytes x) ++ rest))
        (encodeString (intBytes x)).length :=
      ⟨by simp [Stream.NewStream, Stream.Reset], by simp [Stream.NewStream, Stream.Reset]⟩
    obtain ⟨s, h, hm⟩ := uint_complete hlive rfl h64 rfl hroom
    exact ⟨s, h, by rw [hm.r]; exact drop_left⟩

/-- **The two parsers agree**, on value trees and on integers. -/
theorem split_agrees_with_stream (b : Bytes) (m n : Nat) (hm : b.length < m) (hn : b.length < n) :
    (∀ v : Item, splitTree m b = some v ↔ DecodeBytes n b = .ok v) ∧
    (∀ (x : Nat) (rest : Bytes), SplitUint64 b = .ok (x, rest) ↔
      ∃ s, (Stream.NewStream b).Uint = .ok (x, s) ∧ s.r = rest) := by
  constructor
  · intro v
    rw [splitTree_iff hm, DecodeBytes_iff hn]
  · intro x rest
    rw [SplitUint64_iff, uint_iff]

theorem split_agrees_with_stream_nested :
    (splitTree 5 [0xC3, 0x80, 0x05, 0xC0] = some (.list [.str [], .str [5], .list []]) ↔
      DecodeBytes 6 [0xC3, 0x80, 0x05, 0xC0] = .ok (.list [.str [], .str [5], .list []])) ∧
    (SplitUint64 [0xC3, 0x80, 0x05, 0xC0] = .ok (5, []) ↔
      ∃ s, (Stream.NewStream [0xC3, 0x80, 0x05, 0xC0]).Uint = .ok (5, s) ∧ s.r = []) :=
  ⟨(split_agrees_with_stream _ 5 6 (by decide) (by decide)).1 _,
    (split_agrees_with_stream _ 5 6 (by decide) (by decide)).2 5 []⟩

end MxtChain.Rlp
