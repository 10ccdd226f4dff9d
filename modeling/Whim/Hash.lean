import Whim.Chunked

/-!
# Keyed hashing

Scalars and strings of at most seven bytes are hashed by a keyed permutation; longer strings go through a streaming
hasher, of which nothing is assumed beyond being a function of its writes.
-/

namespace Whim

open List

/-- One write to a streaming hasher. -/
inductive HashWrite
  | u8 (n : UInt8)
  | u64 (n : UInt64)
  | usize (n : ℕ)
  | bytes (b : List UInt8)
  deriving DecidableEq, Repr

/-- The index of one interned newtype chain (`NewtypeValueId`). -/
abbrev NewtypeValueId := UInt32

/-- `random` finishes a hasher built from the random state after the given writes. -/
structure HashState where
  random : List HashWrite → UInt64
  intSeed : UInt64
  uintSeed : UInt64
  boolSeed : UInt64
  shortStringSeed : UInt64
  newtypeSeed : UInt64

def permute (value seed : UInt64) : UInt64 :=
  let value := value ^^^ seed
  let value := value ^^^ (value >>> 32)
  let value := value*0xd6e8feb86659fd93
  value ^^^ (value >>> 32)

namespace HashState

def deriveSeed (random : List HashWrite → UInt64) (domain : UInt64) : UInt64 := random [.u64 domain]

def new (random : List HashWrite → UInt64) : HashState where
  random := random
  intSeed := deriveSeed random 0x7df2720f8d2d878d
  uintSeed := deriveSeed random 0x8c91b41e6de2571b
  boolSeed := deriveSeed random 0xf8d284dd44bdaebd
  shortStringSeed := deriveSeed random 0x65a114da5446886d
  newtypeSeed := deriveSeed random 0xa29fb31c087645ed

variable (hs : HashState)

def hashInt (value : Int64) : UInt64 := permute value.toUInt64 hs.intSeed
def hashUint (value : UInt64) : UInt64 := permute value hs.uintSeed
def hashFresh (identity : UInt64) : UInt64 := permute identity (hs.uintSeed ^^^ 0x418d73a9fcd602b5)
def hashBool (value : Bool) : UInt64 := permute (if value then 1 else 0) hs.boolSeed
def hashShortString (packed : UInt64) : UInt64 := permute packed hs.shortStringSeed
def hashNewtype (hash : UInt64) (tag : NewtypeValueId) : UInt64 := permute hash (hs.newtypeSeed ^^^ tag.toUInt64)

/-- The writes that `string_hasher` starts with. -/
def stringHasher (len : ℕ) : List HashWrite := [.u8 2,.usize len]

end HashState

/-- `u64::from_le_bytes`. -/
def fromLeBytes : List UInt8 → UInt64
  | [] => 0
  | b::bs => b.toUInt64+256*fromLeBytes bs

/-- `HASH_BLOCK_SIZE`: the size of the blocks in which long strings reach the hasher. -/
def hashBlockSize : ℕ := 256

def packShortString (bytes : List UInt8) : UInt64 :=
  fromLeBytes (bytes++replicate (7-bytes.length) 0++[UInt8.ofNat bytes.length])

def hashBytes (hs : HashState) (bytes : List UInt8) : UInt64 :=
  if bytes.length ≤ 7 then hs.hashShortString (packShortString bytes)
  else hs.random (HashState.stringHasher bytes.length++(Chunked.blocks hashBlockSize bytes).map .bytes)

/-- A heap string seen through its bytes; its length is a `usize`. -/
structure ByteString where
  bytes : List UInt8
  length_lt : bytes.length < 2 ^ 64
  deriving DecidableEq

namespace ByteString

def hash64 (s : ByteString) (hs : HashState) : UInt64 := hashBytes hs s.bytes

theorem ext_bytes {s t : ByteString} (h : s.bytes = t.bytes) : s = t := by
  cases s
  cases t
  cases h
  rfl

end ByteString

/-- The inline string of at most seven bytes; unused bytes are zero. -/
structure ShortString where
  bytes : List UInt8
  len : ℕ
  length_bytes : bytes.length = 7
  len_le : len ≤ 7
  padding : bytes.drop len = replicate (7-len) 0
  deriving DecidableEq

namespace ShortString

def capacity : ℕ := 7

def asBytes (s : ShortString) : List UInt8 := s.bytes.take s.len

def fromBytes (bytes : List UInt8) : Option ShortString :=
  if h : bytes.length ≤ capacity then
    some {
      bytes := bytes++replicate (7-bytes.length) 0
      len := bytes.length
      length_bytes := by simp only [capacity] at h; simp; omega
      len_le := h
      padding := by simp }
  else none

def hash64 (s : ShortString) (hs : HashState) : UInt64 :=
  hs.hashShortString (fromLeBytes (s.bytes++[UInt8.ofNat s.len]))

@[simp] theorem length_asBytes (s : ShortString) : s.asBytes.length = s.len := by
  simp [asBytes,s.length_bytes,s.len_le]

theorem bytes_eq (s : ShortString) : s.bytes = s.asBytes++replicate (7-s.len) 0 := by
  rw [asBytes,← s.padding,take_append_drop]

variable {s t : ShortString}

theorem asBytes_injective (h : s.asBytes = t.asBytes) : s = t := by
  have hlen : s.len = t.len := by simpa using congrArg length h
  have hbytes : s.bytes = t.bytes := by rw [s.bytes_eq,t.bytes_eq,h,hlen]
  cases s
  cases t
  cases hlen
  cases hbytes
  rfl

@[simp] theorem asBytes_inj : s.asBytes = t.asBytes ↔ s = t := ⟨asBytes_injective,congrArg asBytes⟩

theorem fromBytes_asBytes {bs : List UInt8} (h : fromBytes bs = some s) : s.asBytes = bs := by
  unfold fromBytes at h
  split at h <;> cases h
  simp [asBytes]

/-- Inline and heap strings with the same bytes hash alike. -/
theorem hash64_eq (s : ShortString) (hs : HashState) : s.hash64 hs = hashBytes hs s.asBytes := by
  have hpack : packShortString s.asBytes = fromLeBytes (s.bytes++[UInt8.ofNat s.len]) := by
    rw [packShortString,length_asBytes,← bytes_eq]
  simp [hash64,hashBytes,hpack,s.len_le]

end ShortString
end Whim
