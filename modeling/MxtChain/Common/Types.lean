/-
# MxtChain.Common.Types — the byte-level types every module speaks about.

`common.Hash` is an array of `HashLength` bytes; its length is a field of the structure, so a hash
of another length cannot be built. `Slice` is a byte slice of the machine: its length, and the
length of anything the code makes of a few of them, fits a 64-bit `int`.
-/
import Mathlib

namespace MxtChain

abbrev Bytes := List UInt8

def HashLength : Nat := 32

/-- `common.Hash`: an array of `HashLength` bytes. -/
structure Hash where
  bytes : Bytes
  length_eq : bytes.length = HashLength
  deriving DecidableEq

namespace Hash

theorem ext_bytes {a b : Hash} (h : a.bytes = b.bytes) : a = b := by
  cases a
  cases b
  cases h
  rfl

/-- The zero hash `common.Hash{}`. -/
def zero : Hash := ⟨List.replicate 32 0, rfl⟩

instance : Inhabited Hash := ⟨zero⟩

/-- `common.BytesToHash`: a longer slice is cropped from the left, a shorter one is padded there. -/
def ofBytes (b : Bytes) : Hash where
  bytes := List.replicate (HashLength - b.length) 0 ++ b.drop (b.length - HashLength)
  length_eq := by
    simp only [List.length_append, List.length_replicate, List.length_drop]
    omega

@[simp] theorem ofBytes_bytes (h : Hash) : ofBytes h.bytes = h := by
  apply ext_bytes
  simp [ofBytes, h.length_eq]

@[simp] theorem length_bytes (h : Hash) : h.bytes.length = 32 := h.length_eq

end Hash

/-- How long a byte slice may get: the whole of a 48-bit address space. A node encoding made of a
few of them has a length far below `2 ^ 64`. -/
def maxSliceLength : Nat := 2 ^ 48

/-- A byte slice the machine can hold. -/
structure Slice where
  data : Bytes
  fits : data.length < maxSliceLength
  deriving DecidableEq

/-- How a call of the code can go wrong. -/
inductive Err where
  /-- `MissingNodeError{NodeHash, Path}` -/
  | missingNode (hash : Hash) (path : List (Fin 17))
  /-- an error value made with `errors.New` or `fmt.Errorf` -/
  | failure (msg : String)
  /-- a run-time panic -/
  | crash (msg : String)
  /-- the recursion went deeper than the bound it was given -/
  | diverged
  deriving DecidableEq

def AddressLength : Nat := 20

/-- `common.Address`: an array of `AddressLength` bytes. -/
structure Address where
  bytes : Bytes
  length_eq : bytes.length = AddressLength
  deriving DecidableEq

namespace Address

theorem ext_bytes {a b : Address} (h : a.bytes = b.bytes) : a = b := by
  cases a
  cases b
  cases h
  rfl

/-- `common.BytesToAddress`: a longer slice is cropped from the left, a shorter one is padded
there. -/
def ofBytes (b : Bytes) : Address where
  bytes := List.replicate (AddressLength - b.length) 0 ++ b.drop (b.length - AddressLength)
  length_eq := by
    simp only [List.length_append, List.length_replicate, List.length_drop]
    omega

instance : Inhabited Address := ⟨ofBytes []⟩

end Address

end MxtChain
