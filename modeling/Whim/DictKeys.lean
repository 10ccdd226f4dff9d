import Whim.Hash
import Whim.OrderedMap

/-!
# Dictionary keys

Keys are scalars and strings, each possibly under a newtype tag. A heap string and a short string with the same bytes
are one key.
-/

namespace Whim

inductive Key
  | int (value : Int64)
  | uint (value : UInt64)
  | bool (value : Bool)
  | string (value : ByteString)
  | shortString (value : ShortString)
  | newtypeInt (value : Int64) (tag : NewtypeValueId)
  | newtypeUint (value : UInt64) (tag : NewtypeValueId)
  | newtypeBool (value : Bool) (tag : NewtypeValueId)
  | newtypeString (value : ByteString) (tag : NewtypeValueId)
  | newtypeShortString (value : ShortString) (tag : NewtypeValueId)
  | fresh (value : UInt64)
  | newtypeFresh (value : UInt64) (tag : NewtypeValueId)
  deriving DecidableEq

/-- The borrowed form has the same variants as the owned one. -/
abbrev KeyRef := Key

namespace Key

def hash64 (key : Key) (hs : HashState) : UInt64 :=
  match key with
  | .int value => hs.hashInt value
  | .uint value => hs.hashUint value
  | .fresh value => hs.hashFresh value
  | .bool value => hs.hashBool value
  | .string value => value.hash64 hs
  | .shortString value => value.hash64 hs
  | .newtypeInt value tag => hs.hashNewtype (hs.hashInt value) tag
  | .newtypeUint value tag => hs.hashNewtype (hs.hashUint value) tag
  | .newtypeFresh value tag => hs.hashNewtype (hs.hashFresh value) tag
  | .newtypeBool value tag => hs.hashNewtype (hs.hashBool value) tag
  | .newtypeString value tag => hs.hashNewtype (value.hash64 hs) tag
  | .newtypeShortString value tag => hs.hashNewtype (value.hash64 hs) tag

/-- `PartialEq for Key`. -/
def eq (left right : Key) : Bool :=
  match left, right with
  | .int left, .int right => left == right
  | .uint left, .uint right => left == right
  | .fresh left, .fresh right => left == right
  | .bool left, .bool right => left == right
  | .string left, .string right => left.bytes == right.bytes
  | .shortString left, .shortString right => left == right
  | .newtypeInt left a, .newtypeInt right b => a == b && left == right
  | .newtypeUint left a, .newtypeUint right b => a == b && left == right
  | .newtypeFresh left a, .newtypeFresh right b => a == b && left == right
  | .newtypeBool left a, .newtypeBool right b => a == b && left == right
  | .newtypeString left a, .newtypeString right b => a == b && left.bytes == right.bytes
  | .newtypeShortString left a, .newtypeShortString right b => a == b && left == right
  | .newtypeString left a, .newtypeShortString right b => a == b && left.bytes == right.asBytes
  | .newtypeShortString right b, .newtypeString left a => a == b && left.bytes == right.asBytes
  | .string left, .shortString right => left.bytes == right.asBytes
  | .shortString right, .string left => left.bytes == right.asBytes
  | _, _ => false

instance : BEq Key := ⟨eq⟩

/-- The kind and payload of a key, strings by their bytes. -/
inductive Content
  | int (value : Int64)
  | uint (value : UInt64)
  | bool (value : Bool)
  | string (bytes : List UInt8)
  | fresh (value : UInt64)
  deriving DecidableEq

/-- What a key denotes: its content and its newtype tag. -/
def denote : Key → Content × Option NewtypeValueId
  | .int value => (.int value,none)
  | .uint value => (.uint value,none)
  | .fresh value => (.fresh value,none)
  | .bool value => (.bool value,none)
  | .string value => (.string value.bytes,none)
  | .shortString value => (.string value.asBytes,none)
  | .newtypeInt value tag => (.int value,some tag)
  | .newtypeUint value tag => (.uint value,some tag)
  | .newtypeFresh value tag => (.fresh value,some tag)
  | .newtypeBool value tag => (.bool value,some tag)
  | .newtypeString value tag => (.string value.bytes,some tag)
  | .newtypeShortString value tag => (.string value.asBytes,some tag)

theorem eq_iff_denote (a b : Key) : a.eq b ↔ a.denote = b.denote := by
  cases a <;> cases b <;> simp [eq,denote,and_comm] <;> grind

variable {a b k : Key}

theorem beq_iff_denote : (a == b) ↔ a.denote = b.denote := eq_iff_denote a b

instance : EquivBEq Key where
  rfl := beq_iff_denote.mpr rfl
  symm h := beq_iff_denote.mpr (beq_iff_denote.mp h).symm
  trans h₁ h₂ := beq_iff_denote.mpr ((beq_iff_denote.mp h₁).trans (beq_iff_denote.mp h₂))

def Content.hash (hs : HashState) : Content → UInt64
  | .int value => hs.hashInt value
  | .uint value => hs.hashUint value
  | .bool value => hs.hashBool value
  | .string bytes => hashBytes hs bytes
  | .fresh value => hs.hashFresh value

/-- The hash of a key by what it denotes. -/
def denotationHash (hs : HashState) : Content × Option NewtypeValueId → UInt64
  | (content,none) => content.hash hs
  | (content,some tag) => hs.hashNewtype (content.hash hs) tag

theorem hash64_eq_denote (k : Key) (hs : HashState) : k.hash64 hs = denotationHash hs k.denote := by
  cases k <;>
    simp [hash64,denote,denotationHash,Content.hash,ByteString.hash64,ShortString.hash64_eq]

/-- Equal keys have equal hashes. -/
theorem hash64_congr (h : (a == b)) (hs : HashState) : a.hash64 hs = b.hash64 hs := by
  rw [hash64_eq_denote,hash64_eq_denote,beq_iff_denote.mp h]

@[simp] theorem int_beq_int (a b : Int64) : (Key.int a == Key.int b) = (a == b) := rfl

theorem beq_int_iff {a : Int64} : (k == Key.int a) ↔ k = .int a := by
  cases k <;> simp [beq_iff_denote,denote]

theorem int_beq_iff {a : Int64} : (Key.int a == k) ↔ k = .int a := by
  rw [BEq.comm,beq_int_iff]

section

open OrderedMap

variable {V : Type} {m : List (Key × V)}

/-- The keys of a map by what they denote. -/
def denotations (m : List (Key × V)) : List (Content × Option NewtypeValueId) := m.map (·.1.denote)

theorem nodupKeys_iff_denotations : NodupKeys m ↔ (denotations m).Nodup := by
  have hne : ∀ a b : Key × V, (a.1 == b.1) = false ↔ a.1.denote ≠ b.1.denote := by
    intro a b
    rw [ne_eq,← beq_iff_denote]
    simp
  simp only [NodupKeys,denotations,List.Nodup,List.pairwise_map,hne]

theorem isSome_lookup_iff {k : Key} : (lookup m k).isSome ↔ k.denote ∈ denotations m := by
  simp only [lookup,Option.isSome_map,List.find?_isSome,denotations,List.mem_map,beq_iff_denote]

theorem mem_denotations_iff {c : Content × Option NewtypeValueId} :
    c ∈ denotations m ↔ ∃ k, denote k = c ∧ (lookup m k).isSome := by
  simp only [isSome_lookup_iff]
  constructor
  · intro hc
    obtain ⟨e,-,rfl⟩ := List.mem_map.mp hc
    exact ⟨e.1,rfl,hc⟩
  · rintro ⟨k,rfl,hk⟩
    exact hk

end

end Key

/-- One position in the insertion-ordered entry vector. -/
inductive Slot (V : Type)
  | occupied (key : Key) (value : V)
  | vacant

namespace Slot

variable {V : Type}

/-- The key and value a slot holds. -/
def entry : Slot V → Option (Key × V)
  | .occupied key value => some (key,value)
  | .vacant => none

def matchesKey (slot : Slot V) (key : Key) : Bool :=
  match slot with
  | .occupied stored _ => stored == key
  | .vacant => false

/-- `slot_matches_ref` repeats the comparison of keys over borrowed keys. -/
def matchesRef (slot : Slot V) (key : KeyRef) : Bool :=
  match slot with
  | .occupied stored _ =>
    match stored, key with
    | .int left, .int right => left == right
    | .uint left, .uint right => left == right
    | .fresh left, .fresh right => left == right
    | .bool left, .bool right => left == right
    | .string left, .string right => left.bytes == right.bytes
    | .shortString left, .shortString right => left == right
    | .newtypeInt left a, .newtypeInt right b => a == b && left == right
    | .newtypeUint left a, .newtypeUint right b => a == b && left == right
    | .newtypeFresh left a, .newtypeFresh right b => a == b && left == right
    | .newtypeBool left a, .newtypeBool right b => a == b && left == right
    | .newtypeString left a, .newtypeString right b => a == b && left.bytes == right.bytes
    | .newtypeShortString left a, .newtypeShortString right b => a == b && left == right
    | .newtypeString left a, .newtypeShortString right b => a == b && left.bytes == right.asBytes
    | .newtypeShortString left a, .newtypeString right b => a == b && left.asBytes == right.bytes
    | .string left, .shortString right => left.bytes == right.asBytes
    | .shortString left, .string right => left.asBytes == right.bytes
    | _, _ => false
  | .vacant => false

def matchesString (slot : Slot V) (key : ByteString) : Bool :=
  match slot with
  | .occupied (.string stored) _ => stored.bytes == key.bytes
  | .occupied (.shortString stored) _ => stored.asBytes == key.bytes
  | _ => false

def matchesShortString (slot : Slot V) (key : ShortString) : Bool :=
  match slot with
  | .occupied (.string stored) _ => stored.bytes == key.asBytes
  | .occupied (.shortString stored) _ => stored == key
  | _ => false

/-- `get_int` probes for integer keys directly. -/
def matchesInt (slot : Slot V) (key : Int64) : Bool :=
  match slot with
  | .occupied (.int stored) _ => stored == key
  | _ => false

/-- All five probes compare the stored key with `Key`'s equality. -/
theorem matchesRef_eq (slot : Slot V) (key : KeyRef) : slot.matchesRef key = slot.matchesKey key := by
  rcases slot with ⟨stored,v⟩ | _
  · rw [Bool.eq_iff_iff,matchesKey,Key.beq_iff_denote]
    cases stored <;> cases key <;> simp [matchesRef,Key.denote,and_comm]
  · rfl

theorem matchesString_eq (slot : Slot V) (key : ByteString) :
    slot.matchesString key = slot.matchesKey (.string key) := by
  rcases slot with ⟨stored,v⟩ | _
  · rw [Bool.eq_iff_iff,matchesKey,Key.beq_iff_denote]
    cases stored <;> simp [matchesString,Key.denote]
  · rfl

theorem matchesShortString_eq (slot : Slot V) (key : ShortString) :
    slot.matchesShortString key = slot.matchesKey (.shortString key) := by
  rcases slot with ⟨stored,v⟩ | _
  · rw [Bool.eq_iff_iff,matchesKey,Key.beq_iff_denote]
    cases stored <;> simp [matchesShortString,Key.denote]
  · rfl

theorem matchesInt_eq (slot : Slot V) (key : Int64) : slot.matchesInt key = slot.matchesKey (.int key) := by
  rcases slot with ⟨stored,v⟩ | _
  · rw [Bool.eq_iff_iff,matchesKey,Key.beq_iff_denote]
    cases stored <;> simp [matchesInt,Key.denote]
  · rfl

end Slot
end Whim
