import Whim.Hash

/-!
# Heap strings

Flat buffers, ropes, and slices of a flat base, shared through reference counts. An operation gives no result where a
caller's contract is broken or the source leaves defined behaviour.
-/

namespace Whim

/-- Boxes are named by their position in the heap. -/
inductive StringRepr
  | flat (bytes : List UInt8)
  | cons (left right : ℕ) (len : ℕ)
  | slice (base : ℕ) (offset len : ℕ)

/-- A box: the header's reference count and flags, the cached hash (zero when not computed) and the
representation. The count is a `u32` that wraps in a release build. -/
structure StringNode where
  count : UInt32
  immortal : Bool
  interned : Bool
  hash : UInt64
  repr : StringRepr

/-- The boxes by address; a freed box is `none` and its address is not used again. -/
abbrev StringHeap := List (Option StringNode)

/-- The strings a representation keeps alive. -/
def StringRepr.children : StringRepr → List ℕ
  | .flat _ => []
  | .cons left right _ => [left,right]
  | .slice base _ _ => [base]

@[simp] theorem StringRepr.children_flat (bs : List UInt8) : (StringRepr.flat bs).children = [] := rfl

namespace StringHeap

def eagerFlatLimit : ℕ := 32

def node (h : StringHeap) (id : ℕ) : Option StringNode := h.getD id none

def repr (h : StringHeap) (id : ℕ) : Option StringRepr := (h.node id).map (·.repr)

def update (h : StringHeap) (id : ℕ) (f : StringNode → StringNode) : StringHeap :=
  match h.node id with
  | some n => h.set id (some (f n))
  | none => h

def alloc (h : StringHeap) (repr : StringRepr) : ℕ × StringHeap := (h.length,h++[some ⟨1,false,false,0,repr⟩])

/-- Cloning a handle: immortal boxes are not counted. -/
def retain (h : StringHeap) (id : ℕ) : StringHeap :=
  h.update id fun n => if n.immortal then n else { n with count := n.count+1 }

/-- Dropping handles: a mortal box whose count reaches zero is freed and its own handles are dropped. -/
def releaseLoop : ℕ → List ℕ → StringHeap → StringHeap
  | 0, _, h => h
  | _, [], h => h
  | fuel+1, id::pending, h =>
    match h.node id with
    | none => releaseLoop fuel pending h
    | some n =>
      if n.immortal then releaseLoop fuel pending h
      else if n.count-1 = 0 then releaseLoop fuel (n.repr.children++pending) (h.set id none)
      else releaseLoop fuel pending (h.set id (some { n with count := n.count-1 }))

/-- Every box is freed at most once and drops at most two handles then. -/
def release (h : StringHeap) (ids : List ℕ) : StringHeap := releaseLoop (ids.length+2*h.length) ids h

def len (h : StringHeap) (id : ℕ) : ℕ :=
  match h.repr id with
  | some (.flat bytes) => bytes.length
  | some (.cons _ _ len) => len
  | some (.slice _ _ len) => len
  | none => 0

/-- The bytes of a slice's window into its flat base. -/
def window (h : StringHeap) (base : ℕ) (offset len : ℕ) : List UInt8 :=
  match h.repr base with
  | some (.flat bytes) => (bytes.drop offset).take len
  | _ => []

/-- The leaf chunks from left to right. Operands are older than the ropes that hold them. -/
def chunks (h : StringHeap) (id : ℕ) : List (List UInt8) :=
  match h.repr id with
  | some (.flat bytes) => [bytes]
  | some (.slice base offset len) => [h.window base offset len]
  | some (.cons left right _) => if left < id ∧ right < id then h.chunks left++h.chunks right else []
  | none => []
termination_by id
decreasing_by
  · exact And.left ‹left < id ∧ right < id›
  · exact And.right ‹left < id ∧ right < id›

def contiguousSlice (h : StringHeap) (id : ℕ) : Option (List UInt8) :=
  match h.repr id with
  | some (.flat bytes) => some bytes
  | some (.slice base offset len) => some (h.window base offset len)
  | _ => none

/-- `HeapBytes::from_fragments`, whose caller promises the total length. -/
def fromFragments (len : ℕ) (fragments : List (List UInt8)) : Option (List UInt8) :=
  if fragments.flatten.length = len then some fragments.flatten else none

/-- Overwriting the representation drops the handles of the old one. -/
def replaceRepr (h : StringHeap) (id : ℕ) (repr : StringRepr) : StringHeap :=
  match h.repr id with
  | some old => (h.update id fun n => { n with repr := repr }).release old.children
  | none => h

def flattenRope (h : StringHeap) (id : ℕ) : Option (List UInt8 × StringHeap) :=
  (fromFragments (h.len id) (h.chunks id)).map fun buffer => (buffer,h.replaceRepr id (.flat buffer))

def flatten (h : StringHeap) (id : ℕ) : Option (List UInt8 × StringHeap) :=
  match h.contiguousSlice id with
  | some bytes => some (bytes,h)
  | none => h.flattenRope id

/-- `handle_bytes`. -/
def handleBytes (h : StringHeap) (id : ℕ) : Option (List UInt8 × StringHeap) := h.flatten id

def fromBytes (h : StringHeap) (bytes : List UInt8) : ℕ × StringHeap := h.alloc (.flat bytes)

/-- The length is a `usize` sum, which wraps in a release build. -/
def concat (h : StringHeap) (left right : ℕ) : Option (ℕ × StringHeap) :=
  let len := (h.len left+h.len right) % 2 ^ 64
  if len ≤ eagerFlatLimit then
    (fromFragments len (h.chunks left++h.chunks right)).map fun bytes => h.alloc (.flat bytes)
  else some (((h.retain left).retain right).alloc (.cons left right len))

def isFlat (h : StringHeap) (id : ℕ) : Bool :=
  match h.repr id with
  | some (.flat _) => true
  | _ => false

def isUnique (h : StringHeap) (id : ℕ) : Bool :=
  match h.node id with
  | some n => !n.immortal && !n.interned && n.count == 1
  | none => false

/-- Append to the flat buffer of a box and forget its hash. -/
def appendFlat (h : StringHeap) (id : ℕ) (extra : List UInt8) : StringHeap :=
  h.update id fun n =>
    match n.repr with
    | .flat bytes => { n with hash := 0, repr := .flat (bytes++extra) }
    | _ => n

def appendUnique (h : StringHeap) (id : ℕ) (extra : List UInt8) : Bool × StringHeap :=
  if !h.isUnique id || !h.isFlat id then (false,h) else (true,h.appendFlat id extra)

/-- The bytes that `append_unique_string` appends, chunk by chunk for a rope. -/
def appendSource (h : StringHeap) (extra : ℕ) : List UInt8 :=
  match h.repr extra with
  | some (.flat bytes) => bytes
  | some (.slice base offset len) => h.window base offset len
  | some (.cons _ _ _) => (h.chunks extra).foldl (· ++ ·) []
  | none => []

def appendUniqueString (h : StringHeap) (id extra : ℕ) : Bool × StringHeap :=
  if !h.isUnique id || !h.isFlat id then (false,h) else (true,h.appendFlat id (h.appendSource extra))

/-- The flat box and offset that a slice of `base` is anchored at. -/
def anchor (h : StringHeap) (base : ℕ) : ℕ × ℕ :=
  match h.repr base with
  | some (.slice inner innerOffset _) => (inner,innerOffset)
  | _ => (base,0)

def sliceAt (h : StringHeap) (base : ℕ) (offset len : ℕ) : ℕ × StringHeap :=
  let (inner,innerOffset) := h.anchor base
  (h.retain inner).alloc (.slice inner (innerOffset+offset) len)

def slice (h : StringHeap) (base : ℕ) (offset len : ℕ) : Option (ℕ × StringHeap) :=
  match h.repr base with
  | some (.cons _ _ _) => (h.flatten base).map fun (_,h) => h.sliceAt base offset len
  | _ => some (h.sliceAt base offset len)

/-- `FlatStringSlices::new` followed by its `slice`. -/
def flatStringSlice (h : StringHeap) (base : ℕ) (offset len : ℕ) : Option (ℕ × StringHeap) :=
  (h.flatten base).map fun (_,h) => h.sliceAt base offset len

def hashFragments (hs : HashState) (len : ℕ) (fragments : List (List UInt8)) : UInt64 :=
  hs.random (HashState.stringHasher len++(Chunked.regroup hashBlockSize fragments).map .bytes)

def computeHash (hs : HashState) (h : StringHeap) (id : ℕ) : UInt64 :=
  match h.contiguousSlice id with
  | some bytes => hashBytes hs bytes
  | none => hashFragments hs (h.len id) (h.chunks id)

def hash64 (hs : HashState) (h : StringHeap) (id : ℕ) : UInt64 × StringHeap :=
  match h.node id with
  | none => (0,h)
  | some n =>
    if n.hash ≠ 0 then (n.hash,h)
    else
      let hash := h.computeHash hs id
      (hash,h.update id fun n => { n with hash := hash })

def cmpBytes (h : StringHeap) (a b : ℕ) : Ordering :=
  if a = b then .eq
  else
    match h.contiguousSlice a, h.contiguousSlice b with
    | some left, some right => Chunked.lex left right
    | _, _ => Chunked.lexChunks (h.chunks a) (h.chunks b) [] []

def eqContent (h : StringHeap) (a b : ℕ) : Bool :=
  if h.len a ≠ h.len b then false
  else
    match h.contiguousSlice a, h.contiguousSlice b with
    | some left, some right => left == right
    | _, _ => h.cmpBytes a b == .eq

def eqBytes (h : StringHeap) (a b : ℕ) : Bool := a == b || h.eqContent a b

/-- The interned box of these bytes; the interner holds exactly the live interned boxes. -/
def findInterned (h : StringHeap) (bytes : List UInt8) : Option ℕ :=
  (List.range h.length).find? fun id =>
    match h.node id with
    | some ⟨_,_,true,_,.flat stored⟩ => stored == bytes
    | _ => false

/-- `Heap::intern`, with the handle of the atom it returns. -/
def intern (hs : HashState) (h : StringHeap) (bytes : List UInt8) : ℕ × StringHeap :=
  match h.findInterned bytes with
  | some id => (id,h.retain id)
  | none => (h.length,h++[some ⟨1,false,true,hashBytes hs bytes,.flat bytes⟩])

/-- `Atom::make_immortal`; atoms are interned boxes. -/
def makeImmortal (h : StringHeap) (id : ℕ) : StringHeap :=
  h.update id fun n => if n.interned then { n with immortal := true } else n

end StringHeap
end Whim
