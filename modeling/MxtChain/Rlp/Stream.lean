/-
# MxtChain.Rlp.Stream — the stream decoder of `rlp/decode.go`.

A `Stream` reads from a byte slice. It keeps the number of bytes that may still be read, the stack
of the lists it is in with the position in each, and the kind and size of the value ahead once its
header was read. Decoding into an empty interface (`decodeInterface`) drives it.

An error ends the decoding of a value, so the model drops the stream with it, and with the stream
the copy of the error that `Kind` would return again. The one error a caller goes on after is
`EOL`, which `Kind` returns before it has changed anything.
-/
import MxtChain.Rlp.Canonical

namespace MxtChain.Rlp

/-- `listpos`: how far a list has been read. -/
structure ListPos where
  pos : Nat
  size : Nat

/-- `rlp.Stream` over a `bytes.Reader`; `r` are the unread bytes, the innermost list comes first in
`stack`, and no `kind` is the source's `-1`. -/
structure Stream where
  r : Bytes
  remaining : Nat
  limited : Bool
  kind : Option Kind
  size : Nat
  byteval : UInt8
  stack : List ListPos

namespace Stream

/-- `Stream.Reset` over a `bytes.Reader`: a limit of zero means the length of the data. -/
def Reset (b : Bytes) (inputLimit : Nat) : Stream where
  r := b
  remaining := if inputLimit > 0 then inputLimit else b.length
  limited := true
  kind := none
  size := 0
  byteval := 0
  stack := []

/-- `NewStream` over a `bytes.Reader` on `b`, without an explicit limit. -/
def NewStream (b : Bytes) : Stream := Reset b 0

/-- The position in the innermost list moves. -/
def bump (n : Nat) : List ListPos → List ListPos
  | [] => []
  | tos :: rest => ⟨tos.pos + n, tos.size⟩ :: rest

def willRead (s : Stream) (n : Nat) : Except DecErr Stream :=
  let s := { s with kind := none }
  -- check list overflow
  if ∃ tos ∈ s.stack.head?, n > tos.size - tos.pos then .error .elemTooLarge
  else
    let s := { s with stack := bump n s.stack }
    if s.limited then
      if n > s.remaining then .error (.raw .valueTooLarge)
      else .ok { s with remaining := s.remaining - n }
    else .ok s

/-- `Stream.readFull` into a buffer of `n` bytes. -/
def readFull (s : Stream) (n : Nat) : Except DecErr (Bytes × Stream) :=
  match s.willRead n with
  | .error e => .error e
  | .ok s =>
    if s.r.length < n then .error (.raw .unexpectedEOF)
    else .ok (s.r.take n, { s with r := s.r.drop n })

def readByte (s : Stream) : Except DecErr (UInt8 × Stream) :=
  match s.willRead 1 with
  | .error e => .error e
  | .ok s =>
    match s.r with
    | [] => .error (.raw .unexpectedEOF)
    | b :: rest => .ok (b, { s with r := rest })

/-- `Stream.readUint`: an integer of `size` bytes. -/
def readUint (s : Stream) (size : Nat) : Except DecErr (Nat × Stream) :=
  match size with
  | 0 => .ok (0, { s with kind := none })
  | 1 =>
    match s.readByte with
    | .error e => .error e
    | .ok (b, s) => .ok (b.toNat, s)
  | size =>
    match s.readFull size with
    | .error e => .error e
    | .ok (buf, s) =>
      if buf.head? = some 0 then .error (.raw .canonSize) else .ok (ofBigEndian buf, s)

/-- The size of a long string or list, read by `readKind`. -/
def readLongSize (s : Stream) (size : Nat) : Except DecErr (Nat × Stream) :=
  match s.readUint size with
  | .error e => .error e
  | .ok (n, s) => if n < 56 then .error (.raw .canonSize) else .ok (n, s)

def readKind (s : Stream) : Except DecErr ((Kind × Nat) × Stream) :=
  match s.readByte with
  | .error e =>
    -- at top level the end of the input is `io.EOF`
    if s.stack = [] ∧ (e = .raw .unexpectedEOF ∨ e = .raw .valueTooLarge) then .error .eof
    else .error e
  | .ok (b, s) =>
    let s := { s with byteval := 0 }
    if b < 0x80 then .ok ((.byte, 0), { s with byteval := b })
    else if b < 0xB8 then .ok ((.string, (b - 0x80).toNat), s)
    else if b < 0xC0 then
      (s.readLongSize (b - 0xB7).toNat).map fun (n, s) => ((.string, n), s)
    else if b < 0xF8 then .ok ((.list, (b - 0xC0).toNat), s)
    else (s.readLongSize (b - 0xF7).toNat).map fun (n, s) => ((.list, n), s)

/-- `Stream.Kind`: the kind and size of the next value. -/
def Kind (s : Stream) : Except DecErr ((Rlp.Kind × Nat) × Stream) :=
  match s.kind with
  | some k => .ok ((k, s.size), s)
  | none =>
    -- don't read further at the end of the innermost list
    if ∃ tos ∈ s.stack.head?, tos.pos = tos.size then .error .eol
    else
      match s.readKind with
      | .error e => .error e
      | .ok ((k, size), s) =>
        match s.stack with
        | [] =>
          if s.limited ∧ size > s.remaining then .error (.raw .valueTooLarge)
          else .ok ((k, size), { s with kind := some k, size := size })
        | tos :: _ =>
          if size > tos.size - tos.pos then .error .elemTooLarge
          else .ok ((k, size), { s with kind := some k, size := size })

def Bytes (s : Stream) : Except DecErr (MxtChain.Bytes × Stream) :=
  match s.Kind with
  | .error e => .error e
  | .ok ((.byte, _), s) => .ok ([s.byteval], { s with kind := none })
  | .ok ((.string, size), s) =>
    match s.readFull size with
    | .error e => .error e
    | .ok (b, s) =>
      if size = 1 ∧ (∃ c ∈ b.head?, c < 128) then .error (.raw .canonSize) else .ok (b, s)
  | .ok ((.list, _), _) => .error (.raw .expectedString)

def uint (s : Stream) (maxbits : Nat) : Except DecErr (Nat × Stream) :=
  match s.Kind with
  | .error e => .error e
  | .ok ((.byte, _), s) =>
    if s.byteval = 0 then .error .canonInt else .ok (s.byteval.toNat, { s with kind := none })
  | .ok ((.string, size), s) =>
    if size > maxbits / 8 then .error .uintOverflow
    else
      match s.readUint size with
      | .error e => .error (if e = .raw .canonSize then .canonInt else e)
      | .ok (v, s) => if size > 0 ∧ v < 128 then .error (.raw .canonSize) else .ok (v, s)
  | .ok ((.list, _), _) => .error (.raw .expectedString)

def Uint (s : Stream) : Except DecErr (Nat × Stream) := s.uint 64

def List (s : Stream) : Except DecErr (Nat × Stream) :=
  match s.Kind with
  | .error e => .error e
  | .ok ((kind, size), s) =>
    if kind = .list then .ok (size, { s with stack := ⟨0, size⟩ :: s.stack, kind := none, size := 0 })
    else .error (.raw .expectedList)

def ListEnd (s : Stream) : Except DecErr Stream :=
  match s.stack with
  | [] => .error .notInList
  | tos :: rest =>
    if tos.pos ≠ tos.size then .error .notAtEOL
    else .ok { s with stack := bump tos.size rest, kind := none, size := 0 }

end Stream

/-- `decodeSliceElems`: elements are decoded up to the end of the list. -/
def decodeSliceElems (elemdec : Stream → Except DecErr (Item × Stream)) :
    Nat → Stream → Except DecErr (List Item × Stream)
  | 0, _ => .error .stuck
  | n + 1, s =>
    match elemdec s with
    | .error .eol => .ok ([], s)
    | .error e => .error e
    | .ok (v, s) => (decodeSliceElems elemdec n s).map fun (vs, s) => (v :: vs, s)

def decodeListSlice (elemdec : Stream → Except DecErr (Item × Stream)) (n : Nat) (s : Stream) :
    Except DecErr (List Item × Stream) :=
  match s.List with
  | .error e => .error e
  | .ok (size, s) =>
    if size = 0 then s.ListEnd.map fun s => ([], s)
    else
      match decodeSliceElems elemdec n s with
      | .error e => .error e
      | .ok (items, s) => s.ListEnd.map fun s => (items, s)

/-- `decodeInterface`: a list becomes a slice of interfaces, anything else a byte slice. -/
def decodeInterface : Nat → Stream → Except DecErr (Item × Stream)
  | 0, _ => .error .stuck
  | fuel + 1, s =>
    match s.Kind with
    | .error e => .error e
    | .ok ((kind, _), s) =>
      if kind = .list then
        (decodeListSlice (decodeInterface fuel) fuel s).map fun (items, s) => (.list items, s)
      else s.Bytes.map fun (b, s) => (.str b, s)

/-- `DecodeBytes` into an empty interface. -/
def DecodeBytes (fuel : Nat) (b : Bytes) : Except DecErr Item :=
  match decodeInterface fuel (Stream.Reset b b.length) with
  | .error e => .error e
  | .ok (v, s) => if s.r.length > 0 then .error .moreThanOneValue else .ok v

end MxtChain.Rlp
