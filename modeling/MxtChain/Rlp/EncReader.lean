/-
# MxtChain.Rlp.EncReader — three ways out of the encoder's buffer.

A filled `encbuf` is emitted by `toBytes` into one slice, by `toWriter` in pieces, or by the `Read`
of an `encReader`, which resumes where the caller's buffer was full: in the middle of the string
data, or in the middle of a list header that stands in the `sizebuf` of the `encbuf`.

The result is `Value.encoders_agree`: all of them give the bytes `Value.encoding`, of the length
that `encbuf.size` states. Each loop is compared with `assemble`, the string data with the headers
put in; what a reader still has to give is `EncReader.remaining`.
-/
import MxtChain.Rlp.Values

namespace MxtChain.Rlp

open Lib List Option

/-! ## §1 — writing out. -/

section Writer

variable {σ ε : Type} (write : σ → Bytes → Except ε σ)

/-- The loop of `encbuf.toWriter`. `write` is the `Write` of the target: as an `io.Writer` it takes
all bytes or reports an error. -/
def EncBuf.toWriterLoop (str : Bytes) : List ListHead → Nat → σ → Except ε σ
  | [], strpos, out =>
    if strpos < str.length then write out (str.drop strpos) else .ok out
  | head :: rest, strpos, out =>
    if strpos < head.offset then do
      let out ← write out ((str.take head.offset).drop strpos)
      let out ← write out head.encode
      toWriterLoop str rest head.offset out
    else do
      let out ← write out head.encode
      toWriterLoop str rest strpos out

def EncBuf.toWriter (w : EncBuf) (out : σ) : Except ε σ := EncBuf.toWriterLoop write w.str w.lheads 0 out

end Writer

/-! ## §2 — the reader. -/

/-- A slice that the reader holds: a part of `str`, or of `sizebuf`. -/
inductive Piece where
  | str (start stop : Nat)
  | head (start stop : Nat)

/-- `piece[nn:]`. -/
def Piece.drop (nn : Nat) : Piece → Piece
  | .str start stop => .str (start + nn) stop
  | .head start stop => .head (start + nn) stop

/-- `encReader`. `sizebuf` is the auxiliary buffer of the `encbuf`; `buf` is gone after the end. -/
structure EncReader where
  buf : Option EncBuf
  sizebuf : Bytes
  lhpos : Nat
  strpos : Nat
  piece : Option Piece

namespace EncReader

/-- The bytes that a slice refers to now. -/
def bytesOf (r : EncReader) : Piece → Bytes
  | .str start stop => ((r.buf.elim [] EncBuf.str).take stop).drop start
  | .head start stop => (r.sizebuf.take stop).drop start

/-- `encReader.next`: the next piece, if the end is not reached. -/
def next (r : EncReader) : Option Piece × EncReader :=
  match r.buf with
  | none => (none, r)
  | some w =>
    match r.piece with
    | some p => (some p, r)
    | none =>
      match w.lheads[r.lhpos]? with
      | some head =>
        if r.strpos < head.offset then
          (some (.str r.strpos head.offset), { r with strpos := head.offset })
        else
          -- the header is encoded into `sizebuf`
          (some (.head 0 head.encode.length), { r with
              lhpos := r.lhpos + 1
              sizebuf := head.encode ++ r.sizebuf.drop head.encode.length })
      | none =>
        if r.strpos < w.str.length then
          (some (.str r.strpos w.str.length), { r with strpos := w.str.length })
        else (none, r)

/-- `r.piece = p`. -/
def hold (r : EncReader) (p : Option Piece) : EncReader := { r with piece := p }

/-- **What `next` can do**, by the state it finds. -/
inductive Step : EncReader → Option Piece → EncReader → Prop
  | gone {sizebuf : Bytes} {lhpos strpos : Nat} {piece : Option Piece} :
      Step ⟨none, sizebuf, lhpos, strpos, piece⟩ none ⟨none, sizebuf, lhpos, strpos, piece⟩
  | held {w : EncBuf} {sizebuf : Bytes} {lhpos strpos : Nat} {p : Piece} :
      Step ⟨some w, sizebuf, lhpos, strpos, some p⟩ (some p)
        ⟨some w, sizebuf, lhpos, strpos, some p⟩
  | before {w : EncBuf} {sizebuf : Bytes} {lhpos strpos : Nat} {head : ListHead}
      (heads : w.lheads.drop lhpos = head :: w.lheads.drop (lhpos + 1))
      (lt : strpos < head.offset) :
      Step ⟨some w, sizebuf, lhpos, strpos, none⟩ (some (.str strpos head.offset))
        ⟨some w, sizebuf, lhpos, head.offset, none⟩
  | header {w : EncBuf} {sizebuf : Bytes} {lhpos strpos : Nat} {head : ListHead}
      (heads : w.lheads.drop lhpos = head :: w.lheads.drop (lhpos + 1))
      (le : head.offset ≤ strpos) :
      Step ⟨some w, sizebuf, lhpos, strpos, none⟩ (some (.head 0 head.encode.length))
        ⟨some w, head.encode ++ sizebuf.drop head.encode.length, lhpos + 1, strpos, none⟩
  | after {w : EncBuf} {sizebuf : Bytes} {lhpos strpos : Nat} (heads : w.lheads.drop lhpos = [])
      (lt : strpos < w.str.length) :
      Step ⟨some w, sizebuf, lhpos, strpos, none⟩ (some (.str strpos w.str.length))
        ⟨some w, sizebuf, lhpos, w.str.length, none⟩
  | ended {w : EncBuf} {sizebuf : Bytes} {lhpos strpos : Nat} (heads : w.lheads.drop lhpos = [])
      (le : w.str.length ≤ strpos) :
      Step ⟨some w, sizebuf, lhpos, strpos, none⟩ none ⟨some w, sizebuf, lhpos, strpos, none⟩

theorem next_step (r : EncReader) : Step r r.next.1 r.next.2 := by
  obtain ⟨buf, sizebuf, lhpos, strpos, piece⟩ := r
  cases buf with
  | none => exact .gone
  | some w =>
    cases piece with
    | some p => exact .held
    | none =>
      simp only [next]
      cases hhead : w.lheads[lhpos]? with
      | some head =>
        obtain ⟨hlt, hget⟩ := List.getElem?_eq_some_iff.mp hhead
        have hcons : w.lheads.drop lhpos = head :: w.lheads.drop (lhpos + 1) := by
          rw [List.drop_eq_getElem_cons hlt, hget]
        by_cases hbefore : strpos < head.offset
        · simp only [if_pos hbefore]
          exact .before hcons hbefore
        · simp only [if_neg hbefore]
          exact .header hcons (Nat.not_lt.mp hbefore)
      | none =>
        have hnil : w.lheads.drop lhpos = [] :=
          List.drop_eq_nil_of_le (List.getElem?_eq_none_iff.mp hhead)
        by_cases hmore : strpos < w.str.length
        · simp only [if_pos hmore]
          exact .after hnil hmore
        · simp only [if_neg hmore]
          exact .ended hnil (Nat.not_lt.mp hmore)

theorem step_of_next {r r' : EncReader} {p : Option Piece} (h : r.next = (p, r')) :
    Step r p r' := by
  have hstep := r.next_step
  rwa [h] at hstep

/-- An upper bound on the pieces that the headers ahead and the string data give. -/
def piecesAhead (strpos stop : Nat) : List ListHead → Nat
  | [] => if strpos < stop then 1 else 0
  | head :: rest => 2 * (rest.length + 1) + if strpos < head.offset then 1 else 0

theorem piecesAhead_le (strpos stop : Nat) (heads : List ListHead) :
    piecesAhead strpos stop heads ≤ 2 * heads.length + 1 := by
  cases heads with
  | nil => simp only [piecesAhead]; split <;> omega
  | cons head rest => simp only [piecesAhead, length_cons]; split <;> omega

/-- An upper bound on the pieces that `next` has yet to give. -/
def pieces (r : EncReader) : Nat :=
  match r.buf with
  | none => 0
  | some w => (if r.piece.isSome then 1 else 0) +
      piecesAhead r.strpos w.str.length (w.lheads.drop r.lhpos)

theorem pieces_next {r r' : EncReader} {p : Piece} (h : r.next = (some p, r')) :
    (r'.hold none).pieces < r.pieces := by
  cases step_of_next h with
  | held => simp [pieces, hold]
  | before heads lt => simp [pieces, hold, heads, piecesAhead, lt]
  | @header w sizebuf lhpos strpos head heads le =>
    have hahead := piecesAhead_le strpos w.str.length (w.lheads.drop (lhpos + 1))
    have hnow : piecesAhead strpos w.str.length (w.lheads.drop lhpos) =
        2 * ((w.lheads.drop (lhpos + 1)).length + 1) := by
      rw [heads, piecesAhead, if_neg (Nat.not_lt.mpr le), Nat.add_zero]
    have hthen : (hold ⟨some w, head.encode ++ sizebuf.drop head.encode.length, lhpos + 1, strpos,
        none⟩ none).pieces = piecesAhead strpos w.str.length (w.lheads.drop (lhpos + 1)) :=
      Nat.zero_add _
    rw [hthen, pieces]
    dsimp only
    omega
  | after heads lt => simp [pieces, hold, heads, piecesAhead, lt]

/-- The loop of `encReader.Read` into a buffer of `size` bytes, of which `out` is filled. The flag
says whether `io.EOF` is returned. -/
def readLoop (r : EncReader) (size : Nat) (out : Bytes) : (Bytes × Bool) × EncReader :=
  match _h : r.next with
  | (none, r') => ((out, true), { r' with buf := none, piece := none })
  | (some p, r') =>
    let data := r'.bytesOf p
    let nn := min (size - out.length) data.length
    if nn < data.length then
      -- the piece does not fit: the rest is for the next time
      ((out ++ data.take nn, false), r'.hold (some (p.drop nn)))
    else readLoop (r'.hold none) size (out ++ data.take nn)
termination_by r.pieces
decreasing_by exact pieces_next _h

/-- `encReader.Read` into a buffer of `size` bytes. -/
def Read (r : EncReader) (size : Nat) : (Bytes × Bool) × EncReader := r.readLoop size []

/-- One `Read` after the other: what each of them returns. -/
def readAll : EncReader → List Nat → List (Bytes × Bool)
  | _, [] => []
  | r, size :: rest => (r.Read size).1 :: (r.Read size).2.readAll rest

end EncReader

/-! ## §3 — the entry points. -/

namespace Value

def EncodeToBytes (v : Value) : Except EncodeError Bytes := (v.writer EncBuf.reset).map EncBuf.toBytes

/-- `Encode`, to a target that is not itself an `encbuf`. -/
def Encode {σ ε : Type} (write : σ → Bytes → Except ε σ) (out : σ) (v : Value) :
    Except (EncodeError ⊕ ε) σ :=
  match v.writer EncBuf.reset with
  | .error e => .error (.inl e)
  | .ok eb => (eb.toWriter write out).mapError .inr

/-- `EncodeToReader`; the `encbuf` comes from the pool with some `sizebuf`. -/
def EncodeToReader (sizebuf : Bytes) (v : Value) : Except EncodeError (Nat × EncReader) :=
  (v.writer EncBuf.reset).map fun eb => (eb.size, ⟨some eb, sizebuf, 0, 0, none⟩)

end Value

/-! ## §4 — writing out is putting the headers in. -/

/-- **`toWriter` writes the assembled bytes**, in some pieces. -/
theorem toWriterLoop_eq {σ ε : Type} (write : σ → Bytes → Except ε σ) (str : Bytes)
    (heads : List ListHead) (strpos : Nat) (h : Ascending strpos str.length heads) :
    ∃ chunks : List Bytes, chunks.flatten = assemble strpos (str.drop strpos) heads ∧
      ∀ out, EncBuf.toWriterLoop write str heads strpos out = chunks.foldlM write out := by
  induction heads generalizing strpos with
  | nil =>
    by_cases hlt : strpos < str.length
    · refine ⟨[str.drop strpos], by simp [assemble], fun out => ?_⟩
      simp [EncBuf.toWriterLoop, hlt]
    refine ⟨[], ?_, fun out => ?_⟩
    · simp [assemble, drop_eq_nil_of_le (Nat.not_lt.mp hlt)]
    · simp only [EncBuf.toWriterLoop, if_neg hlt]
      rfl
  | cons head rest ih =>
    obtain ⟨hlo, hrest⟩ := h
    obtain ⟨chunks, hflat, hloop⟩ := ih head.offset hrest
    have hdrop : (str.drop strpos).drop (head.offset - strpos) = str.drop head.offset := by
      rw [drop_drop, Nat.add_sub_cancel' hlo]
    by_cases hlt : strpos < head.offset
    · refine ⟨(str.take head.offset).drop strpos :: head.encode :: chunks, ?_, fun out => ?_⟩
      · rw [flatten_cons, flatten_cons, hflat, assemble, hdrop, drop_take]
      · simp only [EncBuf.toWriterLoop, if_pos hlt, foldlM_cons, hloop]
    have hoff : head.offset = strpos := by omega
    refine ⟨head.encode :: chunks, ?_, fun out => ?_⟩
    · rw [flatten_cons, hflat, assemble, hdrop, hoff, Nat.sub_self, take_zero, nil_append]
    · rw [EncBuf.toWriterLoop, if_neg hlt, foldlM_cons, ← hoff]
      exact bind_congr hloop

/-! ## §5 — reading on from any point. -/

namespace EncReader

/-- What the reader still has to give. -/
def remaining (r : EncReader) : Bytes :=
  match r.buf with
  | none => []
  | some w => r.piece.elim [] r.bytesOf ++
      assemble r.strpos (w.str.drop r.strpos) (w.lheads.drop r.lhpos)

/-- The position fits the buffer. -/
def Ready (r : EncReader) : Prop :=
  ∀ w, r.buf = some w → Ascending r.strpos w.str.length (w.lheads.drop r.lhpos)

variable {r r' : EncReader}

theorem next_none (h : r.next = (none, r')) : r.remaining = [] := by
  cases step_of_next h with
  | gone => rfl
  | ended heads le => simp [remaining, heads, assemble, drop_eq_nil_of_le le]

/-- **The next piece** is the front of what remains. -/
theorem next_some {p : Piece} (hr : r.Ready) (h : r.next = (some p, r')) :
    (∃ w, r'.buf = some w) ∧ (r'.hold none).Ready ∧
      r.remaining = r'.bytesOf p ++ (r'.hold none).remaining := by
  cases step_of_next h with
  | held => exact ⟨⟨_, rfl⟩, hr, rfl⟩
  | @before w sizebuf lhpos strpos head heads lt =>
    obtain ⟨hlo, hrest⟩ : Ascending strpos w.str.length (head :: w.lheads.drop (lhpos + 1)) := by
      rw [← heads]
      exact hr w rfl
    have hdrop : (w.str.drop strpos).drop (head.offset - strpos) = w.str.drop head.offset := by
      rw [drop_drop, Nat.add_sub_cancel' hlo]
    refine ⟨⟨w, rfl⟩, ?_, ?_⟩
    · rintro w' ⟨⟩
      show Ascending head.offset w.str.length (w.lheads.drop lhpos)
      rw [heads]
      exact ⟨le_rfl, hrest⟩
    · simp only [remaining, hold, heads, assemble, bytesOf, elim_none, elim_some,
        nil_append, hdrop, Nat.sub_self, take_zero, drop_zero, drop_take]
  | @header w sizebuf lhpos strpos head heads le =>
    obtain ⟨hlo, hrest⟩ : Ascending strpos w.str.length (head :: w.lheads.drop (lhpos + 1)) := by
      rw [← heads]
      exact hr w rfl
    have hoff : head.offset = strpos := Nat.le_antisymm le hlo
    refine ⟨⟨w, rfl⟩, ?_, ?_⟩
    · rintro w' ⟨⟩
      rw [hoff] at hrest
      exact hrest
    · simp only [remaining, hold, heads, assemble, bytesOf, elim_none, nil_append, hoff,
        Nat.sub_self, take_zero, drop_zero, take_left]
  | @after w sizebuf lhpos strpos heads lt =>
    refine ⟨⟨w, rfl⟩, ?_, ?_⟩
    · rintro w' ⟨⟩
      show Ascending w.str.length w.str.length (w.lheads.drop lhpos)
      rw [heads]
      exact le_rfl
    · simp [remaining, hold, heads, assemble, bytesOf]

theorem bytesOf_drop (r : EncReader) (p : Piece) (nn : Nat) :
    r.bytesOf (p.drop nn) = (r.bytesOf p).drop nn := by
  cases p with
  | str start stop | head start stop => rw [Piece.drop, bytesOf, bytesOf, drop_drop]

theorem remaining_hold {w : EncBuf} (hbuf : r.buf = some w) (p : Piece) :
    (r.hold (some p)).remaining = r.bytesOf p ++ (r.hold none).remaining := by
  obtain ⟨buf, sizebuf, lhpos, strpos, piece⟩ := r
  obtain rfl : buf = some w := hbuf
  cases p with
  | str start stop | head start stop => rfl

theorem readLoop_none (h : r.next = (none, r')) (size : Nat) (out : Bytes) :
    r.readLoop size out = ((out, true), { r' with buf := none, piece := none }) := by
  rw [readLoop]
  split
  · rename_i r'' h'
    obtain rfl := (Prod.mk.inj (h'.symm.trans h)).2
    rfl
  · rename_i h'
    cases (Prod.mk.inj (h'.symm.trans h)).1

theorem readLoop_some {p : Piece} (h : r.next = (some p, r')) (size : Nat) (out : Bytes) :
    r.readLoop size out =
      if size - out.length < (r'.bytesOf p).length then
        ((out ++ (r'.bytesOf p).take (size - out.length), false),
          r'.hold (some (p.drop (size - out.length))))
      else (r'.hold none).readLoop size (out ++ r'.bytesOf p) := by
  rw [readLoop]
  split
  · rename_i h'
    cases (Prod.mk.inj (h'.symm.trans h)).1
  rename_i q r'' h'
  obtain ⟨hq, rfl⟩ := Prod.mk.inj (h'.symm.trans h)
  obtain rfl := some.inj hq
  by_cases hlt : size - out.length < (r''.bytesOf q).length
  · simp only [Nat.min_eq_left hlt.le, if_pos hlt]
  · simp only [Nat.min_eq_right (Nat.not_lt.mp hlt), if_neg hlt, if_neg (Nat.lt_irrefl _),
      take_length]

/-- **One `Read`** takes as much as there is room for, and reports the end if that is all. -/
theorem readLoop_spec (r : EncReader) (size : Nat) (out : Bytes) (hr : r.Ready)
    (hout : out.length ≤ size) :
    (r.readLoop size out).1 = (out ++ r.remaining.take (size - out.length),
        decide (r.remaining.length ≤ size - out.length)) ∧
      (r.readLoop size out).2.Ready ∧
      (r.readLoop size out).2.remaining = r.remaining.drop (size - out.length) := by
  -- the induction is on the number of pieces that are left
  induction hn : r.pieces using Nat.strongRecOn generalizing r out with
  | ind n ih =>
    rcases h : r.next with ⟨_ | p, r'⟩
    · rw [readLoop_none h, next_none h]
      refine ⟨by simp, ?_, by simp [remaining]⟩
      rintro w ⟨⟩
    obtain ⟨⟨w, hbuf⟩, hready, hrem⟩ := next_some hr h
    rw [readLoop_some h, hrem]
    by_cases hlt : size - out.length < (r'.bytesOf p).length
    · -- the piece does not fit
      rw [if_pos hlt, take_append_of_le_length hlt.le, drop_append_of_le_length hlt.le]
      refine ⟨?_, hready, ?_⟩
      · have hmore : ¬ (r'.bytesOf p ++ (r'.hold none).remaining).length ≤ size - out.length := by
          rw [length_append]
          omega
        rw [decide_eq_false hmore]
      · rw [remaining_hold hbuf, bytesOf_drop]
    have hfits := Nat.not_lt.mp hlt
    have hlen : (out ++ r'.bytesOf p).length = out.length + (r'.bytesOf p).length :=
      length_append
    have hsub : size - (out ++ r'.bytesOf p).length =
        size - out.length - (r'.bytesOf p).length := by omega
    have hless : (r'.hold none).pieces < n := hn ▸ pieces_next h
    obtain ⟨hres, hready', hrem'⟩ := ih _ hless _ (out ++ r'.bytesOf p) hready (by omega) rfl
    rw [hsub] at hres hrem'
    rw [if_neg hlt]
    refine ⟨hres.trans ?_, hready', hrem'.trans ?_⟩
    · rw [append_assoc, take_append, take_of_length_le hfits, Prod.mk.injEq,
        decide_eq_decide, length_append]
      exact ⟨rfl, by omega⟩
    · rw [drop_append, drop_eq_nil_of_le hfits, nil_append]

theorem read_spec (hr : r.Ready) (size : Nat) :
    (r.Read size).1 = (r.remaining.take size, decide (r.remaining.length ≤ size)) ∧
      (r.Read size).2.Ready ∧ (r.Read size).2.remaining = r.remaining.drop size :=
  readLoop_spec r size [] hr (Nat.zero_le _)

/-- **Any sequence of `Read`s** gives the remaining bytes in order. -/
theorem flatten_readAll (sizes : List Nat) (hr : r.Ready) :
    ((r.readAll sizes).map Prod.fst).flatten = r.remaining.take sizes.sum := by
  induction sizes generalizing r with
  | nil => simp [readAll]
  | cons size rest ih =>
    obtain ⟨hres, hready, hrem⟩ := read_spec hr size
    rw [readAll, map_cons, flatten_cons, ih hready, hres, hrem, sum_cons, take_add]

/-- The end is reported as soon as everything has been given. -/
theorem eof_readAll (sizes : List Nat) (hr : r.Ready) (k : Nat) (hk : k < sizes.length) :
    ((r.readAll sizes)[k]?).map Prod.snd =
      some (decide (r.remaining.length ≤ (sizes.take (k + 1)).sum)) := by
  induction sizes generalizing r k with
  | nil => cases hk
  | cons size rest ih =>
    obtain ⟨hres, hready, hrem⟩ := read_spec hr size
    cases k with
    | zero => simp [readAll, hres]
    | succ k =>
      have hrest := ih hready k (Nat.lt_of_succ_lt_succ hk)
      rw [readAll, getElem?_cons_succ, hrest, hrem, some.injEq, decide_eq_decide,
        length_drop, take_succ_cons, sum_cons]
      omega

end EncReader

/-! ## §6 — the result. -/

/-- **The encoders agree.** For every value that is encoded without an error, into a buffer whose
size is a machine integer: the bytes are those of `encoding`, in which every list is `announce` of
its contents; there are `size` of them; they are what `EncodeToBytes` returns, what `Encode` writes
to any target, and what the reader gives for any sequence of buffer sizes, with the end reported
when all are given; and a list header that states a length is read back as that length. -/
theorem Value.encoders_agree (v : Value) {w : EncBuf} (hv : v.writer EncBuf.reset = .ok w)
    (hfit : w.size < 2 ^ 64) :
    ∃ enc, v.encoding = .ok enc ∧ enc.length = w.size ∧ v.EncodeToBytes = .ok enc ∧
      (∀ (σ ε : Type) (write : σ → Bytes → Except ε σ) (out : σ),
        ∃ chunks : List Bytes, chunks.flatten = enc ∧
          v.Encode write out = (chunks.foldlM write out).mapError .inr) ∧
      (∀ sizebuf, ∃ r, v.EncodeToReader sizebuf = .ok (w.size, r) ∧ ∀ sizes : List Nat,
        ((r.readAll sizes).map Prod.fst).flatten = enc.take sizes.sum ∧
        ∀ k, k < sizes.length → ((r.readAll sizes)[k]?).map Prod.snd =
          some (decide (enc.length ≤ (sizes.take (k + 1)).sum))) ∧
      ∀ content rest, content.length ≤ enc.length → readTag (announce content ++ rest) =
          .ok (.list, (puthead 0xC0 0xF7 content.length).length, content.length) := by
  obtain ⟨enc, henc, hwrites⟩ := v.writes hv hfit
  have hsize : enc.length = w.size := by
    rw [hwrites.size_eq]
    exact (Nat.zero_add _).symm
  obtain ⟨str, heads, lhsize, rfl, hasc, hasm, -⟩ := hwrites
  simp only [EncBuf.reset, nil_append, length_nil, Nat.zero_add] at *
  refine ⟨enc, henc, hsize, ?_, ?_, ?_, ?_⟩
  · have hloop : EncBuf.toBytesLoop str heads 0 [] = enc := by
      rw [toBytesLoop_eq str heads 0 [] hasc, drop_zero, hasm, nil_append]
    rw [Value.EncodeToBytes, EncBuf.reset, hv]
    refine congrArg Except.ok ?_
    rw [EncBuf.toBytes, ← hsize, hloop, take_left]
  · intro σ ε write out
    obtain ⟨chunks, hflat, hloop⟩ := toWriterLoop_eq write str heads 0 hasc
    refine ⟨chunks, hflat.trans hasm, ?_⟩
    rw [Value.Encode, EncBuf.reset, hv]
    exact congrArg (Except.mapError Sum.inr) (hloop out)
  · intro sizebuf
    have hready : EncReader.Ready ⟨some ⟨str, heads, lhsize⟩, sizebuf, 0, 0, none⟩ := by
      rintro w ⟨⟩
      exact hasc
    have hrem : EncReader.remaining ⟨some ⟨str, heads, lhsize⟩, sizebuf, 0, 0, none⟩ = enc := hasm
    refine ⟨⟨some ⟨str, heads, lhsize⟩, sizebuf, 0, 0, none⟩, ?_, fun sizes => ⟨?_, fun k hk => ?_⟩⟩
    · rw [Value.EncodeToReader, EncBuf.reset, hv]
      rfl
    · rw [EncReader.flatten_readAll sizes hready, hrem]
    · rw [EncReader.eof_readAll sizes hready k hk, hrem]
  · intro content rest hle
    rw [announce, append_assoc]
    exact readTag_headOf (k := .list) (by simp) (by omega) _ (by simp)

/-- A struct with a nested list, read in buffers of one and two bytes. -/
theorem Value.encoders_agree_nested :
    ∃ r, (Value.struct [.uint 128, .slice false [.bool true, .nilInterface]]).EncodeToReader [] =
        .ok (6, r) ∧
      ((r.readAll [1, 2, 2, 1, 1]).map Prod.fst).flatten = [0xC5, 0x81, 0x80, 0xC2, 0x01, 0xC0] := by
  obtain ⟨enc, henc, -, -, -, hreader, -⟩ := Value.encoders_agree
    (.struct [.uint 128, .slice false [.bool true, .nilInterface]])
    (w := ⟨[0x81, 0x80, 0x01, 0xC0], [⟨0, 5⟩, ⟨2, 2⟩], 2⟩) rfl (by decide)
  obtain ⟨r, hr, hread⟩ := hreader []
  refine ⟨r, hr, ?_⟩
  obtain rfl : [0xC5, 0x81, 0x80, 0xC2, 0x01, 0xC0] = enc := Except.ok.inj (Eq.trans rfl henc)
  exact (hread [1, 2, 2, 1, 1]).1

end MxtChain.Rlp
