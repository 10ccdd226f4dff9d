import Whim.DictKeys
import Whim.HashTable
import Whim.TypeCheckCache

/-!
# The dictionary object

A packed vector, or insertion-ordered slots with tombstones, found through a hash index over slot numbers.
-/

namespace Whim

/-- The source's unchecked invariants; breaking one is undefined behaviour in a release build. -/
inductive Violation
  /-- A slot number does not fit `u32`. -/
  | slotLimit
  /-- The index references a vacant slot. -/
  | vacantSlot
  deriving DecidableEq, Repr

/-- Computations that stop where an unchecked invariant is broken. -/
abbrev Checked := Except Violation

structure IndexEntry where
  slot : UInt32
  fingerprint : UInt32
  deriving DecidableEq, Repr

namespace IndexEntry

/-- The fingerprint keeps the low 32 bits of the hash. -/
def new (slot : UInt32) (hash : UInt64) : IndexEntry := ⟨slot,hash.toUInt32⟩

def matchesHash (entry : IndexEntry) (hash : UInt64) : Bool := entry.fingerprint == hash.toUInt32

end IndexEntry

structure DictObject (V : Type) where
  packed : Option (List V)
  entries : List (Slot V)
  index : HashTable IndexEntry
  live : ℕ
  typeCheck : ArrayTypeCheckCache

/-- `usize::try_from` on an `i64`. -/
def usizeTryFrom (key : Int64) : Option ℕ := if 0 ≤ key then some key.toNatClampNeg else none

/-- A slot number as the index stores it. -/
def slotNumber (position : ℕ) : Checked UInt32 :=
  match u32TryFrom position with
  | some slot => .ok slot
  | none => .error .slotLimit

namespace DictObject

variable {V : Type}

def new : DictObject V := ⟨some [],[],HashTable.empty,0,ArrayTypeCheckCache.new⟩

/-- The slot an index entry names. Reading past the end is undefined behaviour in the source. -/
def slotAt (entries : List (Slot V)) (entry : IndexEntry) : Slot V := entries.getD entry.slot.toNat .vacant

def slotHash (hs : HashState) : Slot V → UInt64
  | .occupied key _ => key.hash64 hs
  | .vacant => 0

/-- The closure with which the index rehashes its entries. -/
def hasher (hs : HashState) (entries : List (Slot V)) (entry : IndexEntry) : UInt64 :=
  slotHash hs (slotAt entries entry)

/-- The closure with which the index is probed. -/
def probe (entries : List (Slot V)) (hash : UInt64) (p : Slot V → Bool) (entry : IndexEntry) : Bool :=
  entry.matchesHash hash && p (slotAt entries entry)

def len (d : DictObject V) : ℕ :=
  match d.packed with
  | some values => values.length
  | none => d.live

def packedEntries (values : List V) : List (Key × V) :=
  values.mapIdx fun index value => (.int (Int64.ofNat index),value)

def occupied (entries : List (Slot V)) : List (Key × V) := entries.filterMap Slot.entry

def iter (d : DictObject V) : List (Key × V) :=
  match d.packed with
  | some values => packedEntries values
  | none => occupied d.entries

def entryAtSlot (d : DictObject V) (slot : ℕ) : Option (Option (Key × V)) :=
  match d.packed with
  | some values => (values[slot]?).map fun value => some (.int (Int64.ofNat slot),value)
  | none => (d.entries[slot]?).map Slot.entry

def noteTypeCheckMutation (d : DictObject V) (slot : UInt32) : DictObject V :=
  { d with typeCheck := d.typeCheck.noteMutation slot.toNat }

section

variable (hs : HashState) (d : DictObject V)

def findSlot (hash : UInt64) (p : Slot V → Bool) : Option IndexEntry := d.index.find hash (probe d.entries hash p)

def readFound : Option IndexEntry → Checked (Option V)
  | none => .ok none
  | some entry =>
    match slotAt d.entries entry with
    | .occupied _ value => .ok (some value)
    | .vacant => .error .vacantSlot

def getInt (key : Int64) : Checked (Option V) :=
  match d.packed with
  | some values => .ok ((usizeTryFrom key).bind (values[·]?))
  | none => d.readFound (d.findSlot (hs.hashInt key) (·.matchesInt key))

def getRef (key : KeyRef) : Checked (Option V) :=
  match d.packed with
  | some values =>
    match key with
    | .int position => .ok ((usizeTryFrom position).bind (values[·]?))
    | _ => .ok none
  | none => d.readFound (d.findSlot (key.hash64 hs) (·.matchesRef key))

def get (key : Key) : Checked (Option V) := d.getRef hs key

def getString (key : ByteString) : Checked (Option V) :=
  match d.packed with
  | some _ => .ok none
  | none => d.readFound (d.findSlot (key.hash64 hs) (·.matchesString key))

def getShortString (key : ShortString) : Checked (Option V) :=
  match d.packed with
  | some _ => .ok none
  | none => d.readFound (d.findSlot (key.hash64 hs) (·.matchesShortString key))

end

section

variable (hs : HashState) (g : HashTable.Growth IndexEntry) (d : DictObject V)

/-- Replace the value of the slot an index entry names, returning the previous value. -/
def writeFound (entry : IndexEntry) (write : V → V) : Checked (Option V × DictObject V) :=
  match slotAt d.entries entry with
  | .occupied key value =>
    .ok (some value,{ d with entries := d.entries.set entry.slot.toNat (.occupied key (write value)) })
  | .vacant => .error .vacantSlot

/-- The probe that `get_mut_ref` selects by the kind of key. -/
def mutProbe (key : KeyRef) : Slot V → Bool :=
  match key with
  | .string key => (·.matchesString key)
  | .shortString key => (·.matchesShortString key)
  | key => (·.matchesRef key)

/-- `get_mut_ref` followed by one write through the reference; returns the value before it. -/
def getMutRef (key : KeyRef) (write : V → V) : Checked (Option V × DictObject V) :=
  match d.packed with
  | some values =>
    match key with
    | .int position =>
      match usizeTryFrom position with
      | none => .ok (none,d)
      | some position =>
        match values[position]? with
        | none => .ok (none,d)
        | some value =>
          .ok (some value,
            { d.noteTypeCheckMutation (UInt32.ofNat position) with
              packed := some (values.set position (write value)) })
    | _ => .ok (none,d)
  | none =>
    match d.findSlot (key.hash64 hs) (mutProbe key) with
    | none => .ok (none,d)
    | some entry => (d.noteTypeCheckMutation entry.slot).writeFound entry write

/-- Append an occupied slot and register it in the index under `position`. -/
def pushSlot (position : UInt32) (key : Key) (value : V) (storage : List (Slot V) × HashTable IndexEntry) :
    List (Slot V) × HashTable IndexEntry :=
  let hash := key.hash64 hs
  let entries := storage.1++[.occupied key value]
  (entries,storage.2.insertUnique g hash (.new position hash) (hasher hs entries))

def materializeLoop : ℕ → List V → List (Slot V) × HashTable IndexEntry →
    Checked (List (Slot V) × HashTable IndexEntry)
  | _, [], storage => .ok storage
  | position, value::values, storage => do
    let slot ← slotNumber position
    materializeLoop (position+1) values
      (pushSlot hs g slot (.int (Int64.ofNat slot.toNat)) value storage)

def materializeIndex : Checked (DictObject V) :=
  match d.packed with
  | none => .ok d
  | some values => do
    let index := d.index.reserve g values.length (hasher hs d.entries)
    let storage ← materializeLoop hs g 0 values (d.entries,index)
    .ok { d with packed := none, live := values.length, entries := storage.1, index := storage.2 }

def compactLoop : List (Slot V) → List (Slot V) × HashTable IndexEntry →
    Checked (List (Slot V) × HashTable IndexEntry)
  | [], storage => .ok storage
  | .occupied key value::old, storage => do
    let slot ← slotNumber storage.1.length
    compactLoop old (pushSlot hs g slot key value storage)
  | .vacant::old, storage => compactLoop old storage

def compactIfSparse : Checked (DictObject V) :=
  if d.entries.length-d.live ≤ d.live then .ok d
  else do
    let storage ← compactLoop hs g d.entries ([],d.index.clear)
    .ok { d with entries := storage.1, index := storage.2 }

/-- The hash-entry path of insertion: overwrite the found slot or append a new one. -/
def insertEntry (key : Key) (p : Slot V → Bool) (value : V) : Checked (Option V × DictObject V) := do
  let hash := key.hash64 hs
  let nextPosition ← slotNumber d.entries.length
  match d.index.entry g hash (probe d.entries hash p) (hasher hs d.entries) with
  | .occupied entry index =>
    let (previous,d) ← { d with index := index }.writeFound entry fun _ => value
    .ok (previous,d.noteTypeCheckMutation entry.slot)
  | .vacant index =>
    let d := { d with
      index := index.insertVacant hash (.new nextPosition hash)
      entries := d.entries++[Slot.occupied key value]
      live := d.live+1 }
    .ok (none,d.noteTypeCheckMutation nextPosition)

/-- Insertion into indexed storage, probing with `p`. A full index is searched first, since asking
it for an entry would grow it even when the key is present. -/
def insertWith (key : Key) (p : Slot V → Bool) (value : V) : Checked (Option V × DictObject V) := do
  let d ← d.materializeIndex hs g
  if d.live ≠ 0 ∧ d.index.capacity = d.live then
    match ← d.getMutRef hs key fun _ => value with
    | (some previous,d) => .ok (some previous,d)
    | (none,d) => d.insertEntry hs g key p value
  else d.insertEntry hs g key p value

def insertIndexed (key : Key) (value : V) : Checked (Option V × DictObject V) :=
  d.insertWith hs g key (·.matchesKey key) value

def insertShortString (key : ShortString) (value : V) : Checked (Option V × DictObject V) :=
  d.insertWith hs g (.shortString key) (·.matchesShortString key) value

def insertInt (key : Int64) (value : V) : Checked (Option V × DictObject V) :=
  match d.packed, usizeTryFrom key with
  | some values, some position =>
    match values[position]? with
    | some previous =>
      .ok (some previous,
        { d with packed := some (values.set position value) }.noteTypeCheckMutation
          (UInt32.ofNat position))
    | none =>
      if position = values.length then do
        let slot ← slotNumber position
        .ok (none,{ d with packed := some (values++[value]) }.noteTypeCheckMutation slot)
      else d.insertIndexed hs g (.int key) value
  | _, _ => d.insertIndexed hs g (.int key) value

def insert (key : Key) (value : V) : Checked (Option V × DictObject V) :=
  match key with
  | .int key => d.insertInt hs g key value
  | key => d.insertIndexed hs g key value

/-- Removal from indexed storage. -/
def removeIndexed (key : Key) : Checked (Option V × DictObject V) := do
  let d ← d.materializeIndex hs g
  let hash := key.hash64 hs
  match d.index.removeEntry g hash (probe d.entries hash (·.matchesKey key)) with
  | none => .ok (none,d)
  | some (entry,index) =>
    match slotAt d.entries entry with
    | .vacant => .error .vacantSlot
    | .occupied _ value =>
      let d := { d with
        index := index
        entries := d.entries.set entry.slot.toNat .vacant
        live := d.live-1
        typeCheck := d.typeCheck.noteRemoval }
      .ok (some value,← d.compactIfSparse hs g)

def remove (key : Key) : Checked (Option V × DictObject V) :=
  match d.packed with
  | some values =>
    match key with
    | .int position =>
      match usizeTryFrom position with
      | none => .ok (none,d)
      | some position =>
        if values.length ≤ position then .ok (none,d)
        else if position+1 = values.length then
          .ok (values.getLast?,
            { d with packed := some values.dropLast, typeCheck := d.typeCheck.noteRemoval })
        else d.removeIndexed hs g key
    | _ => .ok (none,d)
  | none => d.removeIndexed hs g key

/-- Growing the index keeps slots and entries where they are. -/
def reserveIndex (additional : ℕ) : DictObject V :=
  { d with index := d.index.reserve g additional (hasher hs d.entries) }

def reserveForBuild (additional : ℕ) : Checked (DictObject V) := do
  let d ← if d.packed.map List.isEmpty = some true then d.materializeIndex hs g else .ok d
  match d.packed with
  | none => .ok (d.reserveIndex hs g additional)
  | some _ => .ok d

def reserveHint (additional : ℕ) : DictObject V :=
  match d.packed with
  | some _ => d
  | none => d.reserveIndex hs g additional

/-- `packed_values_for_pin` followed by writes to the elements of the returned slice. -/
def packedValuesForPin (write : ℕ → V → V) : DictObject V :=
  match d.packed with
  | none => d
  | some values => { d with packed := some (values.mapIdx write), typeCheck := d.typeCheck.invalidate }

def getTypeCheck (id : ArrayTypeCheckId) : ArrayTypeCheck := d.typeCheck.get id

def markTypeChecked (id : ArrayTypeCheckId) : DictObject V := { d with typeCheck := d.typeCheck.markChecked id }

def cowClone : DictObject V := d

end

end DictObject
end Whim
