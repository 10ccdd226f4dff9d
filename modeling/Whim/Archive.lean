import Mathlib.Data.List.Perm.Basic
import Whim.ByteStreams

/-!
# The checksum of an installed package

The entries of a directory tree, sorted by their paths, and the byte stream that is hashed for them. A tree is what
the file system lists, in any order.
-/

namespace Whim.Archive

open ByteStreams List

def maximumEntries : ℕ := 100000
def maximumFileBytes : ℕ := 256*1024*1024
def maximumTotalBytes : ℕ := 1024*1024*1024
def maximumPathBytes : ℕ := 4096

abbrev Name := List UInt8

/-- A relative path, from the outermost directory on. -/
abbrev Path := List Name

inductive Entry
  | file (mode : UInt32) (contents : List UInt8)
  | directory (mode : UInt32) (children : List (Name × Entry))
  | special

/-- The children of a directory in the order in which the file system lists them. -/
abbrev Listing := List (Name × Entry)

inductive Error
  | inspect (path : Path)
  | unsafeInstalledPath (path : Path)
  | installedPathTooLong (path : Path) (limit : ℕ)
  | tooManyInstalledEntries (limit : ℕ)
  | fileTooLarge (path : Path) (size limit : ℕ)
  | sizeOverflow
  | packageTooLarge (limit : ℕ)

def pathBytes (path : Path) : List UInt8 := [47].intercalate path

def Entry.children : Entry → Listing
  | directory _ children => children
  | _ => []

theorem Entry.sizeOf_children (e : Entry) : sizeOf e.children ≤ sizeOf e := by
  cases e with
  | file =>
    simp [children]
    omega
  | directory => simp [children]
  | special => simp [children]

section

def child (listing : Listing) (name : Name) : Option Entry := (listing.find? (·.1 == name)).map (·.2)

/-- What `symlink_metadata` finds at a path below a directory. -/
def entryAt : Listing → Path → Option Entry
  | _, [] => none
  | listing, [name] => child listing name
  | listing, name::next::rest => (child listing name).bind fun entry => entryAt entry.children (next::rest)

/-- All entries below a directory, each with its path. -/
def entriesBelow (directory : Path) : Listing → List (Path × Entry)
  | [] => []
  | (name,entry)::rest =>
    (directory++[name],entry)::(entriesBelow (directory++[name]) entry.children++entriesBelow directory rest)
termination_by listing => sizeOf listing
decreasing_by
  · have := entry.sizeOf_children
    simp
    omega
  · simp

end

section

def sortedByName (listing : Listing) : Listing := listing.mergeSort fun a b => byteLe a.1 b.1

theorem sortedByName_perm (l : Listing) : (sortedByName l).Perm l := mergeSort_perm _ _

/-- The directory that an entry adds to the stack. -/
def Entry.subdirectory (path : Path) : Entry → List (Path × Listing)
  | directory _ children => [(path,children)]
  | _ => []

/-- The loop over the children of a directory. -/
def collectChildren (directory : Path) (entries : List Path) (pending : List (Path × Listing)) :
    Listing → Except Error (List Path × List (Path × Listing))
  | [] => .ok (entries,pending)
  | (name,entry)::rest =>
    if maximumPathBytes < (pathBytes (directory++[name])).length then
      .error (.installedPathTooLong (directory++[name]) maximumPathBytes)
    else if maximumEntries ≤ entries.length then .error (.tooManyInstalledEntries maximumEntries)
    else collectChildren directory (entries++[directory++[name]])
      (entry.subdirectory (directory++[name])++pending) rest

/-- The entries that the directories on the stack still add. -/
def outstanding (pending : List (Path × Listing)) : List (Path × Entry) :=
  pending.flatMap fun directory => entriesBelow directory.1 directory.2

theorem outstanding_append (a b : List (Path × Listing)) : outstanding (a++b) = outstanding a++outstanding b :=
  flatMap_append

theorem outstanding_subdirectory (path : Path) (e : Entry) :
    outstanding (e.subdirectory path) = entriesBelow path e.children := by
  cases e <;> simp [outstanding,Entry.subdirectory,Entry.children,entriesBelow]

/-- The order of a listing only orders its entries. -/
theorem entriesBelow_perm (dir : Path) {a b : Listing} (h : a.Perm b) :
    (entriesBelow dir a).Perm (entriesBelow dir b) := by
  induction h with
  | nil => exact .refl _
  | cons c _ ih =>
    obtain ⟨name,e⟩ := c
    rw [entriesBelow,entriesBelow]
    exact (ih.append_left _).cons _
  | swap f second rest =>
    obtain ⟨name,e⟩ := f
    obtain ⟨name',e'⟩ := second
    simp only [entriesBelow]
    -- Both sides are the two entries, what is below each of them, and the rest.
    rw [← cons_append,← cons_append,← append_assoc,← cons_append,← cons_append,
      ← append_assoc]
    exact perm_append_comm.append_right _
  | trans _ _ ih ih' => exact ih.trans ih'

/-- A bound on the number of entries and directories to come. -/
def effort (pending : List (Path × Listing)) : ℕ :=
  (pending.map fun directory => (entriesBelow directory.1 directory.2).length+1).sum

theorem effort_subdirectory (path : Path) (e : Entry) (ps : List (Path × Listing)) :
    effort (e.subdirectory path++ps) ≤ effort ps+(entriesBelow path e.children).length+1 := by
  cases e with
  | directory =>
    simp only [effort,Entry.subdirectory,Entry.children,singleton_append,map_cons,sum_cons]
    omega
  | _ =>
    simp only [Entry.subdirectory,nil_append]
    omega

/-- The children add no more work than is below their directory. -/
theorem effort_collectChildren {dir : Path} {es : List Path} {ps : List (Path × Listing)}
    {l : Listing} {collected : List Path × List (Path × Listing)} (h : collectChildren dir es ps l = .ok collected) :
    effort collected.2 ≤ effort ps+(entriesBelow dir l).length := by
  induction l generalizing es ps with
  | nil =>
    cases h
    exact Nat.le_add_right _ _
  | cons c _ ih =>
    obtain ⟨name,e⟩ := c
    rw [collectChildren] at h
    split at h
    · cases h
    split at h
    · cases h
    have hr := ih h
    have hsub := effort_subdirectory (dir++[name]) e ps
    rw [entriesBelow,length_cons,length_append]
    omega

/-- `collect_entries`: directories are taken from the stack until it is empty. -/
def collectLoop (entries : List Path) : List (Path × Listing) → Except Error (List Path)
  | [] => .ok entries
  | (directory,listing)::pending =>
    match _ : collectChildren directory entries pending (sortedByName listing) with
    | .error error => .error error
    | .ok collected => collectLoop collected.1 collected.2
termination_by pending => effort pending
decreasing_by
  next hcollected =>
  have hchildren := effort_collectChildren hcollected
  rw [(entriesBelow_perm directory (sortedByName_perm listing)).length_eq] at hchildren
  simp only [effort,map_cons,sum_cons] at hchildren ⊢
  omega

end

section

/-- Whether anybody may execute the entry. -/
def executable (mode : UInt32) : UInt8 := (mode &&& 0o111 != 0).toUInt8

def validateFileSize (path : Path) (size total : ℕ) : Except Error ℕ :=
  if maximumFileBytes < size then .error (.fileTooLarge path size maximumFileBytes)
  else if 2 ^ 64 ≤ total+size then .error .sizeOverflow
  else if maximumTotalBytes < total+size then .error (.packageTooLarge maximumTotalBytes)
  else .ok (total+size)

/-- What the hash gets for one entry. The length of a directory is zero. -/
def record (path : Path) (kind executable : UInt8) (contents : List UInt8) : List UInt8 :=
  framed (pathBytes path)++[kind,executable]++framed contents

/-- What the hash gets for the entries at some paths, with the size of all files so far. -/
def updates (root : Listing) : List Path → ℕ → Except Error (List UInt8)
  | [], _ => .ok []
  | path::paths, total =>
    match entryAt root path with
    | none => .error (.inspect path)
    | some (.directory mode _) => do
      let rest ← updates root paths total
      return record path 0 (executable mode) []++rest
    | some (.file mode contents) => do
      let total ← validateFileSize path contents.length total
      let rest ← updates root paths total
      return record path 1 (executable mode) contents++rest
    | some .special => .error (.unsafeInstalledPath path)

def sortedByPath (entries : List Path) : List Path := entries.mergeSort fun a b => byteLe (pathBytes a) (pathBytes b)

/-- All that `checksum` feeds to the hash. -/
def stream (root : Listing) : Except Error (List UInt8) := do
  let entries ← collectLoop [] [([],root)]
  updates root (sortedByPath entries) 0

end
end Whim.Archive
