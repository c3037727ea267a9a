/-
# MxtChain.Trie.Encoding — the three key encodings of `trie/encoding.go`.

KEYBYTES is the key itself, HEX one letter per nibble with an optional terminator `16` behind them,
COMPACT the hex-prefix form that nodes carry on disk. A hex key is a list over `Fin 17`: the bytes
that the code stores in such a slice are never above `16`, and the index into the 17 children of a
branch cannot leave the array.
-/
import MxtChain.Common.Types
import MxtChain.Lib.Patricia.Tree

namespace MxtChain.Trie

open Lib.Patricia List

/-- A key in HEX encoding: nibbles, and possibly the terminator. -/
abbrev Hex := List (Fin 17)

instance neZero_letters : NeZero (17 : Nat) := ⟨by decide⟩

/-- The terminator byte `0x10` of HEX encoding. -/
def terminator : Fin 17 := 16

/-! ## §1 — the conversions. -/

def highNibble (b : UInt8) : Fin 17 := ⟨b.toNat / 16, by have := b.toNat_lt; omega⟩

def lowNibble (b : UInt8) : Fin 17 := ⟨b.toNat % 16, by omega⟩

/-- The nibbles of a byte string, without the terminator. -/
def nibbles : Bytes → Hex
  | [] => []
  | b :: rest => highNibble b :: lowNibble b :: nibbles rest

def keybytesToHex (str : Bytes) : Hex := nibbles str ++ [terminator]

/-- `hasTerm`: whether a hex key has the terminator flag. -/
def hasTerm (s : Hex) : Bool := s.getLast? == some terminator

/-- A letter of a hex key as the byte the slice holds. -/
def hexByte (x : Fin 17) : UInt8 := UInt8.ofNat x.val

/-- `decodeNibbles`: two nibbles to a byte. -/
def decodeNibbles : Hex → Bytes
  | a :: b :: rest => (hexByte a <<< 4 ||| hexByte b) :: decodeNibbles rest
  | _ => []

/-- The terminator flag `1 << 5` of the first compact byte. -/
def termFlag : UInt8 := 0x20

/-- The odd-length flag `1 << 4` of the first compact byte. -/
def oddFlag : UInt8 := 0x10

/-- The compact bytes of the nibbles `hex` behind a terminator flag: an odd first nibble shares
the first byte with the flags. -/
def packed (flag : UInt8) (hex : Hex) : Bytes :=
  match hex with
  | [] => [flag]
  | x :: rest =>
    if rest.length % 2 = 0 then (flag ||| oddFlag ||| hexByte x) :: decodeNibbles rest
    else flag :: decodeNibbles (x :: rest)

def hexToCompact (hex : Hex) : Bytes :=
  if hasTerm hex then packed termFlag hex.dropLast else packed 0 hex

/-- The loop of `hexToCompactInPlace`: the nibbles from `ni` on are packed into the bytes from `bi`
on. The two loop variables move through the one buffer. -/
def packInPlace (hexLen : Nat) (hex : Bytes) (bi ni : Nat) : Bytes :=
  if ni < hexLen then
    packInPlace hexLen (hex.set bi (hex.getD ni 0 <<< 4 ||| hex.getD (ni + 1) 0)) (bi + 1) (ni + 2)
  else hex
  termination_by hexLen - ni

/-- `hexToCompactInPlace`: the buffer after the conversion, and how many of its bytes are the
compact key. An empty buffer has no place for the flags. -/
def hexToCompactInPlace (hex : Bytes) : Except Err (Bytes × Nat) :=
  let term := hex.getLast? == some (hexByte terminator)
  let hexLen := if term then hex.length - 1 else hex.length
  let flag := if term then termFlag else 0
  let firstByte := if hexLen % 2 = 1 then flag ||| oddFlag ||| hex.getD 0 0 else flag
  let buf := packInPlace hexLen hex 1 (hexLen % 2)
  if hex = [] then .error (.crash "index out of range")
  else .ok (buf.set 0 firstByte, hexLen / 2 + 1)

def compactToHex (compact : Bytes) : Hex :=
  match keybytesToHex compact with
  | x :: y :: z :: rest =>
    -- delete terminator flag, then apply odd flag
    let base := if x < 2 then (x :: y :: z :: rest).dropLast else x :: y :: z :: rest
    base.drop (2 - x.val % 2)
  | _ => []

/-- `prefixLen`: the length of the common beginning of `a` and `b`. -/
def prefixLen : Hex → Hex → Nat
  | x :: a, y :: b => if x = y then prefixLen a b + 1 else 0
  | _, _ => 0

/-! ## §2 — keys are words. -/

theorem highNibble_ne (b : UInt8) : highNibble b ≠ terminator := by
  have := b.toNat_lt
  intro h
  have := congrArg Fin.val h
  simp [highNibble, terminator] at this
  omega

theorem lowNibble_ne (b : UInt8) : lowNibble b ≠ terminator := by
  intro h
  have := congrArg Fin.val h
  simp [lowNibble, terminator] at this
  omega

theorem terminator_notMem_nibbles (str : Bytes) : terminator ∉ nibbles str := by
  induction str with
  | nil => simp [nibbles]
  | cons b rest ih =>
    simp only [nibbles, mem_cons, not_or]
    exact ⟨fun h => highNibble_ne b h.symm, fun h => lowNibble_ne b h.symm, ih⟩

/-- **A converted key is a word**: its terminator is its last letter and stands nowhere else. -/
theorem word_keybytesToHex (str : Bytes) : Word terminator (keybytesToHex str) :=
  word_concat_term (terminator_notMem_nibbles str)

theorem eq_of_nibbles {a b : UInt8} (h : highNibble a = highNibble b)
    (l : lowNibble a = lowNibble b) : a = b := by
  have h1 := congrArg Fin.val h
  have h2 := congrArg Fin.val l
  simp only [highNibble, lowNibble] at h1 h2
  exact UInt8.toNat_inj.mp (by omega)

theorem nibbles_inj : ∀ {a b : Bytes}, nibbles a = nibbles b → a = b
  | [], [], _ => rfl
  | [], y :: b, h => by simp [nibbles] at h
  | x :: a, [], h => by simp [nibbles] at h
  | x :: a, y :: b, h => by
    simp only [nibbles, cons.injEq] at h
    rw [eq_of_nibbles h.1 h.2.1, nibbles_inj h.2.2]

theorem keybytesToHex_inj {a b : Bytes} (h : keybytesToHex a = keybytesToHex b) : a = b :=
  nibbles_inj (append_cancel_right h)

@[simp] theorem length_nibbles (str : Bytes) : (nibbles str).length = 2 * str.length := by
  induction str with
  | nil => rfl
  | cons b rest ih =>
    simp only [nibbles, length_cons, ih]
    omega

@[simp] theorem length_keybytesToHex (str : Bytes) :
    (keybytesToHex str).length = 2 * str.length + 1 := by
  simp [keybytesToHex]

/-! ## §3 — COMPACT reads back. -/

/-- A hex key as the tries use it: nibbles, with the terminator at most at the very end. -/
def ValidHex (h : Hex) : Prop := terminator ∉ h ∨ Word terminator h

variable {h a : Hex}

theorem hasTerm_of_notMem (hn : terminator ∉ h) : hasTerm h = false := by
  rw [hasTerm, beq_eq_false_iff_ne]
  intro hl
  exact hn (mem_of_getLast? hl)

theorem hasTerm_concat (a : Hex) : hasTerm (a ++ [terminator]) = true := by
  simp [hasTerm]

theorem hasTerm_of_word (hw : Word terminator h) : hasTerm h = true := by
  obtain ⟨a, _, rfl⟩ := hw.exists_concat
  exact hasTerm_concat a

set_option maxRecDepth 4000 in
theorem nibbles_pair : ∀ a b : Fin 17, a ≠ terminator → b ≠ terminator →
    highNibble (hexByte a <<< 4 ||| hexByte b) = a ∧
      lowNibble (hexByte a <<< 4 ||| hexByte b) = b := by
  decide +kernel

theorem nibbles_odd : ∀ x : Fin 17, x ≠ terminator → (highNibble (0 ||| oddFlag ||| hexByte x) = 1 ∧
      lowNibble (0 ||| oddFlag ||| hexByte x) = x) ∧
    (highNibble (termFlag ||| oddFlag ||| hexByte x) = 3 ∧
      lowNibble (termFlag ||| oddFlag ||| hexByte x) = x) := by
  decide +kernel

theorem nibbles_decodeNibbles : ∀ {h : Hex}, terminator ∉ h → h.length % 2 = 0 →
    nibbles (decodeNibbles h) = h
  | [], _, _ => rfl
  | [x], _, hl => by simp at hl
  | x :: y :: rest, hn, hl => by
    simp only [mem_cons, not_or] at hn
    obtain ⟨h1, h2⟩ := nibbles_pair x y (fun h => hn.1 h.symm) (fun h => hn.2.1 h.symm)
    have ih := nibbles_decodeNibbles hn.2.2 (by simp only [length_cons] at hl; omega)
    simp only [decodeNibbles, nibbles, h1, h2, ih]

theorem compactToHex_cons (b : UInt8) (rest : Bytes) : compactToHex (b :: rest) =
      (if highNibble b < 2 then highNibble b :: lowNibble b :: nibbles rest
        else highNibble b :: lowNibble b :: (nibbles rest ++ [terminator])).drop
          (2 - (highNibble b).val % 2) := by
  have hk : keybytesToHex (b :: rest) =
      highNibble b :: lowNibble b :: (nibbles rest ++ [terminator]) := rfl
  rw [compactToHex, hk]
  cases hr : nibbles rest ++ [terminator] with
  | nil => exact absurd hr (by simp)
  | cons z zs =>
    have hd : (highNibble b :: lowNibble b :: z :: zs).dropLast =
        highNibble b :: lowNibble b :: nibbles rest := by
      rw [← hr]
      rw [← cons_append, ← cons_append, dropLast_concat]
    simp only [hd]

theorem hexToCompact_of_notMem (hn : terminator ∉ a) : hexToCompact a = packed 0 a := by
  simp [hexToCompact, hasTerm_of_notMem hn]

theorem hexToCompact_concat (a : Hex) : hexToCompact (a ++ [terminator]) = packed termFlag a := by
  simp [hexToCompact, hasTerm_concat]

theorem compactToHex_packed (hn : terminator ∉ a) :
    compactToHex (packed 0 a) = a ∧ compactToHex (packed termFlag a) = a ++ [terminator] := by
  cases a with
  | nil => exact ⟨rfl, rfl⟩
  | cons x rest =>
    have hn' := hn
    simp only [mem_cons, not_or] at hn'
    by_cases hodd : rest.length % 2 = 0
    · obtain ⟨⟨h1, h2⟩, h3, h4⟩ := nibbles_odd x (fun h => hn'.1 h.symm)
      have hrest := nibbles_decodeNibbles hn'.2 hodd
      rw [packed, packed, if_pos hodd, if_pos hodd, compactToHex_cons, compactToHex_cons, h1, h2, h3,
        h4, hrest]
      exact ⟨rfl, rfl⟩
    · have hall := nibbles_decodeNibbles hn (by simp only [length_cons]; omega)
      rw [packed, packed, if_neg hodd, if_neg hodd, compactToHex_cons, compactToHex_cons, hall]
      exact ⟨rfl, rfl⟩

/-- **`compactToHex` undoes `hexToCompact`** on every key a trie node can have. -/
theorem compactToHex_hexToCompact (hv : ValidHex h) : compactToHex (hexToCompact h) = h := by
  rcases hv with hn | hw
  · rw [hexToCompact_of_notMem hn, (compactToHex_packed hn).1]
  · obtain ⟨a, hn, rfl⟩ := hw.exists_concat
    rw [hexToCompact_concat, (compactToHex_packed hn).2]

theorem hexToCompact_inj {b : Hex} (ha : ValidHex a) (hb : ValidHex b)
    (h : hexToCompact a = hexToCompact b) : a = b := by
  rw [← compactToHex_hexToCompact ha, h, compactToHex_hexToCompact hb]

theorem length_decodeNibbles : ∀ h : Hex, (decodeNibbles h).length = h.length / 2
  | [] => rfl
  | [x] => by simp [decodeNibbles]
  | x :: y :: rest => by
    simp only [decodeNibbles, length_cons, length_decodeNibbles rest]
    omega

theorem length_packed_le (flag : UInt8) (h : Hex) : (packed flag h).length ≤ h.length + 1 := by
  cases h with
  | nil => simp [packed]
  | cons x rest =>
    rw [packed]
    split <;> simp only [length_cons, length_decodeNibbles] <;> omega

theorem length_hexToCompact_le (h : Hex) : (hexToCompact h).length ≤ h.length + 1 := by
  rw [hexToCompact]
  split
  · have := length_packed_le termFlag h.dropLast
    rw [length_dropLast] at this
    omega
  · exact length_packed_le 0 h

/-! ## §4 — the conversion in place. -/

/-- **The loop packs what is ahead of it.** It never overwrites a nibble it has still to read: the
written byte stays at least one nibble behind. -/
theorem take_packInPlace : ∀ (ns : Hex) {hexLen bi ni : Nat} {buf tail : Bytes},
    buf.drop ni = ns.map hexByte ++ tail → ns.length % 2 = 0 → hexLen = ni + ns.length →
    bi ≤ ni + 1 → bi ≤ buf.length →
    (packInPlace hexLen buf bi ni).take (bi + ns.length / 2) = buf.take bi ++ decodeNibbles ns
  | [], hexLen, bi, ni, buf, tail, _, _, hl, _, _ => by
    rw [packInPlace, if_neg (by simp [hl])]
    simp [decodeNibbles]
  | [x], _, _, _, _, _, _, heven, _, _, _ => by simp at heven
  | x :: y :: ns, hexLen, bi, ni, buf, tail, hbuf, heven, hl, hbi, hlen => by
    have hsize := congrArg length hbuf
    simp only [length_drop, map_cons, length_append, length_cons, length_map] at hsize hl heven
    have hx : buf.getD ni 0 = hexByte x := by
      have := congrArg head? hbuf
      rw [head?_drop] at this
      simp [getD, this]
    have hrest : buf.drop (ni + 1) = hexByte y :: (ns.map hexByte ++ tail) := by
      rw [← drop_drop, hbuf]
      rfl
    have hy : buf.getD (ni + 1) 0 = hexByte y := by
      have := congrArg head? hrest
      rw [head?_drop] at this
      simp [getD, this]
    rw [packInPlace, if_pos (by omega), hx, hy]
    have hdrop : (buf.set bi (hexByte x <<< 4 ||| hexByte y)).drop (ni + 2) =
        ns.map hexByte ++ tail := by
      rw [drop_set_of_lt (by omega), ← drop_drop (i := 1), hrest]
      rfl
    have ih := take_packInPlace ns hdrop (by omega) (by omega : hexLen = ni + 2 + ns.length)
      (by omega : bi + 1 ≤ ni + 2 + 1) (by rw [length_set]; omega)
    have hcount : bi + (x :: y :: ns).length / 2 = bi + 1 + ns.length / 2 := by
      simp only [length_cons]
      omega
    rw [hcount, ih, decodeNibbles, take_add_one, take_set_of_le (le_refl _),
      getElem?_set_self (by omega)]
    simp

/-- The bytes that packing `a` in place leaves at the front of the buffer. -/
theorem take_packed (flag : UInt8) (a : Hex) (tail : Bytes) (h : a.map hexByte ++ tail ≠ []) :
    ((packInPlace a.length (a.map hexByte ++ tail) 1 (a.length % 2)).set 0
      (if a.length % 2 = 1 then flag ||| oddFlag ||| (a.map hexByte ++ tail).getD 0 0
        else flag)).take (a.length / 2 + 1) = packed flag a := by
  have hpos : 1 ≤ (a.map hexByte ++ tail).length := length_pos_iff.mpr h
  rw [take_set]
  rcases Nat.mod_two_eq_zero_or_one a.length with hpar | hpar
  · have hloop : (packInPlace a.length (a.map hexByte ++ tail) 1 0).take (1 + a.length / 2) =
        (a.map hexByte ++ tail).take 1 ++ decodeNibbles a :=
      take_packInPlace a rfl hpar (by omega) (by omega) hpos
    rw [hpar, if_neg (by omega), Nat.add_comm, hloop]
    obtain ⟨b, hb⟩ : ∃ b, (a.map hexByte ++ tail).take 1 = [b] :=
      length_eq_one_iff.mp (by rw [length_take]; omega)
    rw [hb]
    cases a with
    | nil => rfl
    | cons x rest =>
      have hodd : ¬ rest.length % 2 = 0 := by
        simp only [length_cons] at hpar
        omega
      rw [packed, if_neg hodd]
      rfl
  · cases a with
    | nil => simp at hpar
    | cons x rest =>
      have hrest : rest.length % 2 = 0 := by
        simp only [length_cons] at hpar
        omega
      have hloop : (packInPlace (x :: rest).length ((x :: rest).map hexByte ++ tail) 1 1).take
          (1 + rest.length / 2) = ((x :: rest).map hexByte ++ tail).take 1 ++ decodeNibbles rest :=
        take_packInPlace rest rfl hrest (by simp only [length_cons]; omega) (by omega) hpos
      have hcount : (x :: rest).length / 2 + 1 = 1 + rest.length / 2 := by
        simp only [length_cons]
        omega
      rw [hpar, if_pos rfl, hcount, hloop, packed, if_pos hrest]
      rfl

/-- **The conversion in place leaves the compact key at the front of the buffer.** -/
theorem hexToCompactInPlace_spec (hne : h ≠ []) :
    ∃ buf n, hexToCompactInPlace (h.map hexByte) = .ok (buf, n) ∧ buf.take n = hexToCompact h := by
  have hmap : h.map hexByte ≠ [] := by simpa using hne
  refine ⟨_, _, if_neg hmap, ?_⟩
  have hlast : ((h.map hexByte).getLast? == some (hexByte terminator)) = hasTerm h := by
    rw [getLast?_map, hasTerm]
    cases h.getLast? with
    | none => rfl
    | some x => revert x; decide
  rw [hlast]
  cases ht : hasTerm h with
  | false =>
    have hp := take_packed 0 h [] (by simpa using hne)
    simp only [append_nil] at hp
    simp only [Bool.false_eq_true, if_false, length_map]
    rw [hp, hexToCompact, ht]
    rfl
  | true =>
    obtain ⟨a, rfl⟩ : ∃ a, h = a ++ [terminator] := by
      rw [hasTerm, beq_iff_eq] at ht
      exact ⟨_, (dropLast_append_getLast? _ ht).symm⟩
    have hp := take_packed termFlag a [hexByte terminator] (by simp)
    simp only [if_true, map_append, map_cons, map_nil, length_append,
      length_map, length_singleton, Nat.add_sub_cancel]
    rw [hp, hexToCompact_concat]

/-! ## §5 — `prefixLen` is the length of a fork. -/

theorem prefixLen_eq_fork : ∀ a b : Hex, prefixLen a b = (fork a b).1.length
  | [], b => by simp [prefixLen, fork]
  | x :: a, [] => by simp [prefixLen, fork]
  | x :: a, y :: b => by
    by_cases h : x = y
    · simp [prefixLen, fork, h, prefixLen_eq_fork a b]
    · simp [prefixLen, fork, h]

theorem prefixLen_append_self (k r : Hex) : prefixLen (k ++ r) k = k.length := by
  rw [prefixLen_eq_fork, fork_self_append]

theorem prefixLen_self (k : Hex) : prefixLen k k = k.length := by
  have h := prefixLen_append_self k []
  rwa [append_nil] at h

theorem prefixLen_append_fork (p k r : Hex) {a b : Fin 17} (h : b ≠ a) :
    prefixLen (p ++ b :: r) (p ++ a :: k) = p.length := by
  rw [prefixLen_eq_fork, fork_append_left]
  simp [fork, h]

/-! ## §6 — the compact keys. -/

theorem pair_nibbles (b : UInt8) : hexByte (highNibble b) <<< 4 ||| hexByte (lowNibble b) = b := by
  have hall : ∀ n : Fin 256, hexByte (highNibble (UInt8.ofNat n)) <<< 4 |||
      hexByte (lowNibble (UInt8.ofNat n)) = UInt8.ofNat n := by decide +kernel
  have hb := hall ⟨b.toNat, b.toNat_lt⟩
  rwa [UInt8.ofNat_toNat] at hb

theorem decodeNibbles_nibbles (str : Bytes) : decodeNibbles (nibbles str) = str := by
  induction str with
  | nil => rfl
  | cons b rest ih => rw [nibbles, decodeNibbles, pair_nibbles, ih]

/-- **Compact bytes come from nibbles**: a terminator among the letters packs like another key that
has none. -/
theorem exists_packed_eq (a : Hex) :
    ∃ a', terminator ∉ a' ∧ ∀ flag, packed flag a' = packed flag a := by
  cases a with
  | nil => exact ⟨[], not_mem_nil, fun _ => rfl⟩
  | cons x rest =>
    have hlen : (nibbles (decodeNibbles rest)).length % 2 = 0 := by simp
    by_cases hodd : rest.length % 2 = 0
    · have hx : ∀ x : Fin 17, lowNibble (hexByte x) ≠ terminator ∧
          oddFlag ||| hexByte (lowNibble (hexByte x)) = oddFlag ||| hexByte x := by decide +kernel
      refine ⟨lowNibble (hexByte x) :: nibbles (decodeNibbles rest), ?_, fun flag => ?_⟩
      · simp only [mem_cons, not_or]
        exact ⟨(hx x).1.symm, terminator_notMem_nibbles _⟩
      · rw [packed, packed, if_pos hlen, if_pos hodd, UInt8.or_assoc, (hx x).2,
          decodeNibbles_nibbles, UInt8.or_assoc]
    · refine ⟨nibbles (decodeNibbles (x :: rest)), terminator_notMem_nibbles _, fun flag => ?_⟩
      have hp : packed flag (x :: rest) = flag :: decodeNibbles (x :: rest) := by
        rw [packed, if_neg hodd]
      rw [hp]
      cases hn : decodeNibbles (x :: rest) with
      | nil => rfl
      | cons b bs =>
        have hback := decodeNibbles_nibbles (b :: bs)
        rw [nibbles] at hback
        rw [nibbles, packed, if_neg (by simp only [length_cons, length_nibbles]; omega), hback]

theorem length_packInPlace (hexLen : Nat) (hex : Bytes) (bi ni : Nat) :
    (packInPlace hexLen hex bi ni).length = hex.length := by
  fun_induction packInPlace with
  | case1 hex bi ni _ ih => rw [ih, length_set]
  | case2 => rfl

/-- **COMPACT and HEX are two forms of one key**: a hex key reads back from its compact form,
packing it in place leaves that form at the front of the buffer, and a compact form is the one its
reading packs to again. -/
theorem compact_round_trips : (∀ h, ValidHex h → compactToHex (hexToCompact h) = h) ∧
    (∀ h : Hex, h ≠ [] → ∃ buf n, hexToCompactInPlace (h.map hexByte) = .ok (buf, n) ∧
      n ≤ buf.length ∧ buf.take n = hexToCompact h) ∧
    ∀ compact, (∃ h, hexToCompact h = compact) → hexToCompact (compactToHex compact) = compact := by
  refine ⟨fun h hv => compactToHex_hexToCompact hv, fun h hne => ?_, ?_⟩
  · obtain ⟨buf, n, hok, htake⟩ := hexToCompactInPlace_spec hne
    refine ⟨buf, n, hok, ?_, htake⟩
    have hpos := length_pos_iff.mpr hne
    rw [hexToCompactInPlace, if_neg (by simpa using hne)] at hok
    cases hok
    rw [length_set, length_packInPlace, length_map]
    split <;> omega
  · rintro compact ⟨h, rfl⟩
    rw [hexToCompact.eq_def h]
    split
    · obtain ⟨a, ha, hp⟩ := exists_packed_eq h.dropLast
      rw [← hp, (compactToHex_packed ha).2, hexToCompact_concat]
    · obtain ⟨a, ha, hp⟩ := exists_packed_eq h
      rw [← hp, (compactToHex_packed ha).1, hexToCompact_of_notMem ha]

theorem compact_round_trips_odd :
    compactToHex (hexToCompact [1, 2, 3, terminator]) = [1, 2, 3, terminator] ∧
    (∃ buf n, hexToCompactInPlace [1, 2, 3, 16] = .ok (buf, n) ∧ n ≤ buf.length ∧
      buf.take n = [0x31, 0x23]) ∧
    hexToCompact (compactToHex [0x31, 0x23]) = [0x31, 0x23] :=
  ⟨compact_round_trips.1 _ (.inr (by simp [Word, terminator])),
    compact_round_trips.2.1 [1, 2, 3, terminator] (by simp),
    compact_round_trips.2.2 _ ⟨[1, 2, 3, terminator], rfl⟩⟩

end MxtChain.Trie
