import Mathlib.Algebra.BigOperators.Group.List.Basic
import Mathlib.Data.List.Nodup
import Whim.Archive

/-!
# Trees are determined by their checksum stream

The stream of a tree within the limits determines the tree up to the order of listings: its records can be read back,
and the sort puts them in one order only.
-/

namespace Whim.Archive

open ByteStreams List

/-- What a tree has at a path, apart from what is below. -/
inductive View
  | directory (executable : Bool)
  | file (executable : Bool) (contents : List UInt8)
  deriving DecidableEq

def Entry.view : Entry → Option View
  | file mode contents => some (.file (mode &&& 0o111 != 0) contents)
  | directory mode _ => some (.directory (mode &&& 0o111 != 0))
  | special => none

def view (root : Listing) (path : Path) : Option View := (entryAt root path).bind Entry.view

/-- In each directory every name is listed once, and names have no separators. -/
inductive WellFormed : Listing → Prop
  | mk {listing : Listing} (hnodup : (listing.map Prod.fst).Nodup) (hnames : ∀ child ∈ listing, (47 : UInt8) ∉ child.1)
    (hchildren : ∀ child ∈ listing, WellFormed child.2.children) : WellFormed listing

def Entry.size : Entry → ℕ
  | file _ contents => contents.length
  | _ => 0

/-- The tree is within the limits, and all its entries are files or directories. -/
structure Fits (root : Listing) : Prop where
  entries : (entriesBelow [] root).length ≤ maximumEntries
  paths : ∀ e ∈ entriesBelow [] root, (pathBytes e.1).length ≤ maximumPathBytes
  files : ∀ e ∈ entriesBelow [] root, e.2.size ≤ maximumFileBytes
  total : ((entriesBelow [] root).map fun e => e.2.size).sum ≤ maximumTotalBytes
  plain : ∀ e ∈ entriesBelow [] root, e.2.view.isSome

section

variable {ls : Listing} {dir path : Path} {name : Name} {entry : Entry}

theorem child_eq_some (hnd : (ls.map Prod.fst).Nodup) : child ls name = some entry ↔ (name,entry) ∈ ls := by
  constructor
  · intro h
    obtain ⟨⟨name',e'⟩,hf,rfl⟩ := Option.map_eq_some_iff.mp h
    have heq := find?_some hf
    cases eq_of_beq heq
    exact mem_of_find?_eq_some hf
  · intro hmem
    cases hf : ls.find? (·.1 == name) with
    | none => exact absurd (beq_self_eq_true name) (find?_eq_none.mp hf _ hmem)
    | some f =>
      have heq : f.1 = name := eq_of_beq (by simpa using find?_some hf)
      have hsame := inj_on_of_nodup_map hnd (mem_of_find?_eq_some hf) hmem heq
      rw [child,hf,hsame]
      rfl

theorem mem_entriesBelow_iff : (path,entry) ∈ entriesBelow dir ls ↔ ∃ c ∈ ls,
    (path,entry) = (dir++[c.1],c.2) ∨ (path,entry) ∈ entriesBelow (dir++[c.1]) c.2.children := by
  induction ls with
  | nil => simp [entriesBelow]
  | cons f _ ih =>
    obtain ⟨name',e'⟩ := f
    rw [entriesBelow,mem_cons,mem_append,ih]
    rw [exists_mem_cons_iff,or_assoc]

theorem entryAt_cons (rs : Path) : entryAt ls (name::rs) = some entry ↔ ∃ f, child ls name = some f ∧
    (rs = [] ∧ f = entry ∨ entryAt f.children rs = some entry) := by
  cases rs with
  | nil => simp [entryAt]
  | cons => simp [entryAt,Option.bind_eq_some_iff]

/-- The enumeration has what is found at each path. -/
theorem mem_entriesBelow (h : WellFormed ls) (dir : Path) :
    (path,entry) ∈ entriesBelow dir ls ↔ ∃ rs, path = dir++rs ∧ entryAt ls rs = some entry := by
  induction h generalizing dir path entry with
  | mk hnd _ _ ih =>
    rw [mem_entriesBelow_iff]
    constructor
    · rintro ⟨⟨name,f⟩,hmem,heq | hbelow⟩
      · cases heq
        exact ⟨[name],rfl,(entryAt_cons []).mpr ⟨f,(child_eq_some hnd).mpr hmem,.inl ⟨rfl,rfl⟩⟩⟩
      · obtain ⟨rs,rfl,hr⟩ := (ih (name,f) hmem (dir++[name])).mp hbelow
        exact ⟨name::rs,by simp,(entryAt_cons rs).mpr ⟨f,(child_eq_some hnd).mpr hmem,.inr hr⟩⟩
    · rintro ⟨rs,rfl,hr⟩
      cases rs with
      | nil => cases hr
      | cons name rs =>
        obtain ⟨f,hfound,hr⟩ := (entryAt_cons rs).mp hr
        have hmem := (child_eq_some hnd).mp hfound
        refine ⟨(name,f),hmem,?_⟩
        rcases hr with ⟨rfl,rfl⟩ | hr
        · exact .inl rfl
        · exact .inr ((ih (name,f) hmem (dir++[name])).mpr ⟨rs,by simp,hr⟩)

/-- A path below a directory starts with the directory and one of its children. -/
theorem start_of_mem_entriesBelow (dir : Path) (ls : Listing) :
    ∀ e ∈ entriesBelow dir ls, ∃ c ∈ ls, ∃ rs, e.1 = dir++c.1::rs := by
  fun_induction entriesBelow dir ls with
  | case1 => exact forall_mem_nil _
  | case2 _ _ _ _ ihbelow ihrest =>
    refine forall_mem_cons.mpr ⟨⟨_,mem_cons_self,[],rfl⟩,forall_mem_append.mpr ⟨fun e he => ?_,fun e he => ?_⟩⟩
    · obtain ⟨c,-,more,hmore⟩ := ihbelow e he
      exact ⟨_,mem_cons_self,c.1::more,by simpa using hmore⟩
    · obtain ⟨c,hchild,more,hmore⟩ := ihrest e he
      exact ⟨c,mem_cons_of_mem _ hchild,more,hmore⟩

theorem WellFormed.of_cons {rs : Listing} (h : WellFormed ((name,entry)::rs)) :
    name ∉ rs.map Prod.fst ∧ WellFormed entry.children ∧ WellFormed rs := by
  cases h with
  | mk hnd hnames hchildren =>
    rw [map_cons,nodup_cons] at hnd
    rw [forall_mem_cons] at hnames hchildren
    exact ⟨hnd.1,hchildren.1,.mk hnd.2 hnames.2 hchildren.2⟩

/-- Every path is enumerated once. -/
theorem nodup_entriesBelow (h : WellFormed ls) (dir : Path) : ((entriesBelow dir ls).map Prod.fst).Nodup := by
  fun_induction entriesBelow dir ls with
  | case1 => exact nodup_nil
  | case2 dir name entry rs ihbelow ihrest =>
    obtain ⟨hn,hchildren,hr⟩ := h.of_cons
    -- A path of the rest starts with another name.
    have ho : ∀ e ∈ entriesBelow dir rs, ∀ more, e.1 ≠ dir++name::more := by
      intro e he more heq
      obtain ⟨c,hchild,more',heq'⟩ := start_of_mem_entriesBelow dir rs e he
      have hcons := append_cancel_left (heq.symm.trans heq')
      exact hn (mem_map.mpr ⟨c,hchild,(List.cons.inj hcons).1.symm⟩)
    have hbelow : ∀ e ∈ entriesBelow (dir++[name]) entry.children, ∃ next more,
        e.1 = dir++name::next::more := by
      intro e he
      obtain ⟨c,-,more,heq⟩ := start_of_mem_entriesBelow (dir++[name]) entry.children e he
      exact ⟨c.1,more,by simpa using heq⟩
    rw [map_cons,map_append,nodup_cons,nodup_append]
    refine ⟨fun hmem => ?_,ihbelow hchildren,ihrest hr,?_⟩
    · rcases mem_append.mp hmem with hmem | hmem
      · obtain ⟨e,he,heq⟩ := mem_map.mp hmem
        obtain ⟨next,more,heq'⟩ := hbelow e he
        have hcons := append_cancel_left (heq.symm.trans heq')
        cases (List.cons.inj hcons).2
      · obtain ⟨e,he,heq⟩ := mem_map.mp hmem
        exact ho e he [] heq
    · intro path hp path' hp' heq
      obtain ⟨e,he,rfl⟩ := mem_map.mp hp
      obtain ⟨e',he',rfl⟩ := mem_map.mp hp'
      obtain ⟨next,more,heq'⟩ := hbelow e he
      exact ho e' he' (next::more) (heq.symm.trans heq')

/-- The names on a path of a tree have no separators. -/
theorem slashless_of_mem_entriesBelow (h : WellFormed ls) (dir : Path) :
    ∀ e ∈ entriesBelow dir ls, (∀ name ∈ dir, (47 : UInt8) ∉ name) → ∀ name ∈ e.1, (47 : UInt8) ∉ name := by
  fun_induction entriesBelow dir ls with
  | case1 => exact forall_mem_nil _
  | case2 dir name _ _ ihbelow ihrest =>
    obtain ⟨-,hchildren,hr⟩ := h.of_cons
    have hhere : (∀ name ∈ dir, (47 : UInt8) ∉ name) → ∀ name' ∈ dir++[name], (47 : UInt8) ∉ name' := by
      intro hdirectory
      cases h with
      | mk _ hnames =>
        exact forall_mem_append.mpr ⟨hdirectory,forall_mem_singleton.mpr (hnames _ mem_cons_self)⟩
    refine forall_mem_cons.mpr ⟨hhere,forall_mem_append.mpr ⟨fun e he hdirectory => ?_,ihrest hr⟩⟩
    exact ihbelow hchildren e he (hhere hdirectory)

end

section

/-- A path that names something in a tree. -/
def ValidPath (path : Path) : Prop := path ≠ [] ∧ ∀ name ∈ path, (47 : UInt8) ∉ name

theorem pathBytes_inj {a b : Path} (ha : ValidPath a) (hb : ValidPath b) (h : pathBytes a = pathBytes b) : a = b := by
  have hsplit := congrArg (List.splitOn (47 : UInt8)) h
  rwa [pathBytes,pathBytes,splitOn_intercalate _ ha.2 ha.1,splitOn_intercalate _ hb.2 hb.1] at hsplit

def paths (root : Listing) : List Path := (entriesBelow [] root).map Prod.fst

theorem validPath_of_mem_paths {root : Listing} (h : WellFormed root) : ∀ path ∈ paths root, ValidPath path := by
  refine forall_mem_map.mpr fun e he => ⟨?_,slashless_of_mem_entriesBelow h [] e he (forall_mem_nil _)⟩
  obtain ⟨c,-,rs,heq⟩ := start_of_mem_entriesBelow [] root e he
  rw [heq]
  exact cons_ne_nil _ _

theorem pairwise_sortedByPath (es : List Path) :
    (sortedByPath es).Pairwise fun a b => byteLe (pathBytes a) (pathBytes b) := by
  apply pairwise_mergeSort
  · exact fun _ _ _ => byteLe_trans
  · exact fun a b => byteLe_total (pathBytes a) (pathBytes b)

theorem sortedByPath_perm (es : List Path) : (sortedByPath es).Perm es := mergeSort_perm _ _

/-- Sorting leaves nothing of the order in which the paths were collected. -/
theorem sortedByPath_eq {a b : List Path} (h : a.Perm b) (hvalid : ∀ path ∈ b, ValidPath path) :
    sortedByPath a = sortedByPath b := by
  have ha := (sortedByPath_perm a).trans h
  have hb := sortedByPath_perm b
  refine (ha.trans hb.symm).eq_of_pairwise ?_ (pairwise_sortedByPath a) (pairwise_sortedByPath b)
  intro x y hx hy hxy hyx
  exact pathBytes_inj (hvalid x (ha.mem_iff.mp hx)) (hvalid y (hb.mem_iff.mp hy)) (byteLe_antisymm hxy hyx)

end

section

/-- Within the limits the children of a directory are collected, and what they leave on the stack is what is below. -/
theorem collectChildren_ok {dir : Path} {ls : Listing} (es : List Path) (ps : List (Path × Listing))
    (hpaths : ∀ e ∈ entriesBelow dir ls, (pathBytes e.1).length ≤ maximumPathBytes)
    (hcount : es.length+(entriesBelow dir ls).length ≤ maximumEntries) :
    ∃ collected, collectChildren dir es ps ls = .ok collected ∧
      (collected.1++(outstanding collected.2).map Prod.fst).Perm
        (es++(entriesBelow dir ls++outstanding ps).map Prod.fst) := by
  induction ls generalizing es ps with
  | nil => exact ⟨_,rfl,by simp [entriesBelow]⟩
  | cons c _ ih =>
    obtain ⟨name,entry⟩ := c
    rw [entriesBelow] at hpaths hcount ⊢
    rw [length_cons,length_append] at hcount
    rw [forall_mem_cons,forall_mem_append] at hpaths
    have hlen : (es++[dir++[name]]).length = es.length+1 := length_append
    obtain ⟨collected,hcollected,hp⟩ := ih (es++[dir++[name]])
      (entry.subdirectory (dir++[name])++ps) hpaths.2.2 (by omega)
    rw [collectChildren,if_neg (Nat.not_lt.mpr hpaths.1),if_neg (by omega)]
    refine ⟨collected,hcollected,hp.trans ?_⟩
    rw [outstanding_append,outstanding_subdirectory,append_assoc,singleton_append,cons_append,
      map_cons]
    refine (List.Perm.cons _ ?_).append_left _
    rw [append_assoc]
    exact (perm_append_comm_assoc _ _ _).map _

theorem outstanding_cons (dir : Path) (ls : Listing) (ps : List (Path × Listing)) :
    outstanding ((dir,ls)::ps) = entriesBelow dir ls++outstanding ps := rfl

/-- The same for the sorted children of a directory that is taken from the stack. -/
theorem collectSorted_ok {dir : Path} {es : List Path} {ps : List (Path × Listing)} {ls : Listing}
    (hpaths : ∀ path ∈ es++(outstanding ((dir,ls)::ps)).map Prod.fst,(pathBytes path).length ≤ maximumPathBytes)
    (hcount : (es++(outstanding ((dir,ls)::ps)).map Prod.fst).length ≤ maximumEntries) :
    ∃ collected, collectChildren dir es ps (sortedByName ls) = .ok collected ∧
      (collected.1++(outstanding collected.2).map Prod.fst).Perm
        (es++(outstanding ((dir,ls)::ps)).map Prod.fst) := by
  have hsorted := entriesBelow_perm dir (sortedByName_perm ls)
  rw [outstanding_cons] at hpaths hcount
  rw [length_append,length_map,length_append] at hcount
  obtain ⟨collected,hcollected,hp⟩ := collectChildren_ok es ps
    (fun e he => hpaths e.1 (mem_append_right _ (mem_map_of_mem (mem_append_left _ (hsorted.mem_iff.mp he)))))
    (by rw [hsorted.length_eq]; omega)
  exact ⟨collected,hcollected,hp.trans (((hsorted.append_right _).map _).append_left _)⟩

theorem collectLoop_ok (es : List Path) (ps : List (Path × Listing))
    (hpaths : ∀ path ∈ es++(outstanding ps).map Prod.fst, (pathBytes path).length ≤ maximumPathBytes)
    (hcount : (es++(outstanding ps).map Prod.fst).length ≤ maximumEntries) :
    ∃ r, collectLoop es ps = .ok r ∧ r.Perm (es++(outstanding ps).map Prod.fst) := by
  fun_induction collectLoop es ps with
  | case1 es => exact ⟨es,rfl,by simp [outstanding]⟩
  | case2 _ _ _ _ _ herr =>
    obtain ⟨collected,hcollected,-⟩ := collectSorted_ok hpaths hcount
    cases herr.symm.trans hcollected
  | case3 _ _ _ _ _ hcollected ih =>
    obtain ⟨collected',hcollected',hp⟩ := collectSorted_ok hpaths hcount
    cases hcollected.symm.trans hcollected'
    obtain ⟨r,hres,hp'⟩ := ih (fun path hpath => hpaths path (hp.mem_iff.mp hpath)) (hp.length_eq ▸ hcount)
    exact ⟨r,hres,hp'.trans hp⟩

end

section

namespace View

def kind : View → UInt8
  | directory _ => 0
  | file _ _ => 1

def executable : View → Bool
  | directory executable => executable
  | file executable _ => executable

def contents : View → List UInt8
  | directory _ => []
  | file _ contents => contents

/-- What the hash gets for an entry. -/
def record (path : Path) (v : View) : List UInt8 := Archive.record path v.kind v.executable.toUInt8 v.contents

end View

variable {path path' : Path} {v v' : View} {rs r' : List UInt8}

/-- The lengths in the record of an entry fit their fields, and its path names something. -/
structure Recordable (path : Path) (v : View) : Prop where
  valid : ValidPath path
  path : (pathBytes path).length < 2 ^ 64
  contents : v.contents.length < 2 ^ 64

theorem view_ext (hk : v.kind = v'.kind) (hexecutable : v.executable.toUInt8 = v'.executable.toUInt8)
    (hcontents : v.contents = v'.contents) : v = v' := by
  have hbit : v.executable = v'.executable := by
    revert hexecutable
    cases v.executable <;> cases v'.executable <;> decide
  cases v <;> cases v' <;> simp_all [View.kind,View.executable,View.contents]

/-- A stream that starts with the record of an entry starts with no other. -/
theorem record_inj (h : Recordable path v) (h' : Recordable path' v')
    (heq : v.record path++rs = v'.record path'++r') : path = path' ∧ v = v' ∧ rs = r' := by
  simp only [View.record,record,append_assoc] at heq
  obtain ⟨hp,heq⟩ := framed_inj h.path h'.path heq
  obtain ⟨hbytes,heq⟩ := append_inj heq rfl
  obtain ⟨hcontents,hr⟩ := framed_inj h.contents h'.contents heq
  simp only [List.cons.injEq,and_true] at hbytes
  exact ⟨pathBytes_inj h.valid h'.valid hp,view_ext hbytes.1 hbytes.2 hcontents,hr⟩

def records (items : List (Path × View)) : List UInt8 := items.flatMap fun item => item.2.record item.1

theorem records_inj {items is' : List (Path × View)} (h : ∀ item ∈ items, Recordable item.1 item.2)
    (h' : ∀ item ∈ is', Recordable item.1 item.2) (heq : records items = records is') : items = is' := by
  induction items generalizing is' with
  | nil =>
    cases is' with
    | nil => rfl
    | cons => simp [records,View.record,record,framed,littleEndian] at heq
  | cons _ _ ih =>
    cases is' with
    | nil => simp [records,View.record,record,framed,littleEndian] at heq
    | cons =>
      rw [forall_mem_cons] at h h'
      obtain ⟨hp,hview,hr⟩ := record_inj h.1 h'.1 heq
      rw [Prod.ext hp hview,ih h.2 h'.2 hr]

/-- Within the limits every entry is fed to the hash as its record. -/
theorem updates_ok (root : Listing) (items : List (Path × Entry)) (total : ℕ)
    (hat : ∀ item ∈ items, entryAt root item.1 = some item.2) (hplain : ∀ item ∈ items, item.2.view.isSome)
    (hfiles : ∀ item ∈ items, item.2.size ≤ maximumFileBytes)
    (htotal : total+(items.map fun item => item.2.size).sum ≤ maximumTotalBytes) :
    updates root (items.map Prod.fst) total =
      .ok (records (items.filterMap fun item => item.2.view.map (item.1,·))) := by
  induction items generalizing total with
  | nil => rfl
  | cons item items ih =>
    obtain ⟨path,entry⟩ := item
    rw [forall_mem_cons] at hat hplain hfiles
    rw [map_cons,sum_cons] at htotal
    have hlookup : entryAt root path = some entry := hat.1
    have hlimit : maximumTotalBytes < 2 ^ 64 := by decide
    cases entry with
    | special => cases hplain.1
    | directory =>
      have hsum : total+(0+(items.map fun item => item.2.size).sum) ≤ maximumTotalBytes := htotal
      have hr := ih total hat.2 hplain.2 hfiles.2 (by omega)
      simp only [map_cons,updates,hlookup,hr]
      rfl
    | file _ c =>
      have hsize : c.length ≤ maximumFileBytes := hfiles.1
      have hsum : total+(c.length+(items.map fun item => item.2.size).sum) ≤ maximumTotalBytes := htotal
      have hvalid : validateFileSize path c.length total = .ok (total+c.length) := by
        rw [validateFileSize,if_neg (by omega),if_neg (by omega),if_neg (by omega)]
      have hr := ih (total+c.length) hat.2 hplain.2 hfiles.2 (by omega)
      simp only [map_cons,updates,hlookup,hvalid]
      show (updates root (items.map Prod.fst) (total+c.length) >>= _) = _
      rw [hr]
      rfl

end

section

variable {root a b : Listing}

/-- The entries of a tree in the order of its stream. -/
def items (root : Listing) : List (Path × View) :=
  (sortedByPath (paths root)).filterMap fun path => (view root path).map (path,·)

theorem mem_entries (h : WellFormed root) {path : Path} {entry : Entry} :
    (path,entry) ∈ entriesBelow [] root ↔ entryAt root path = some entry := by
  rw [mem_entriesBelow h []]
  simp

theorem mem_items (h : WellFormed root) {path : Path} {v : View} : (path,v) ∈ items root ↔ view root path = some v := by
  simp only [items,mem_filterMap,(sortedByPath_perm _).mem_iff,Option.map_eq_some_iff,Prod.mk.injEq]
  constructor
  · rintro ⟨_,-,_,hview,rfl,rfl⟩
    exact hview
  · intro hview
    obtain ⟨entry,hentry,-⟩ := Option.bind_eq_some_iff.mp hview
    exact ⟨path,mem_map.mpr ⟨(path,entry),(mem_entries h).mpr hentry,rfl⟩,v,hview,rfl,rfl⟩

/-- The entries at the sorted paths. -/
def sortedEntries (root : Listing) : List (Path × Entry) :=
  (sortedByPath (paths root)).filterMap fun path => (entryAt root path).map (path,·)

section
variable (h : WellFormed root)
include h

theorem sortedEntries_perm : (sortedEntries root).Perm (entriesBelow [] root) := by
  have hall : (paths root).filterMap (fun path => (entryAt root path).map (path,·)) = entriesBelow [] root := by
    rw [paths,filterMap_map]
    refine (filterMap_congr fun e he => ?_).trans filterMap_some
    show (entryAt root e.1).map (e.1,·) = some e
    rw [(mem_entries h).mp he]
    rfl
  rw [← hall]
  exact (sortedByPath_perm _).filterMap _

theorem map_fst_sortedEntries : (sortedEntries root).map Prod.fst = sortedByPath (paths root) := by
  rw [sortedEntries,map_filterMap]
  refine (filterMap_congr fun path hp => ?_).trans filterMap_some
  obtain ⟨e,he,rfl⟩ := mem_map.mp ((sortedByPath_perm _).mem_iff.mp hp)
  rw [(mem_entries h).mp he]
  rfl

/-- A tree within the limits has a stream, the records of its entries. -/
theorem stream_ok (hf : Fits root) : stream root = .ok (records (items root)) := by
  have houtstanding : []++(outstanding [([],root)]).map Prod.fst = paths root := by
    rw [outstanding_cons]
    simp [outstanding,paths]
  obtain ⟨r,hres,hp⟩ := collectLoop_ok [] [([],root)]
    (by rw [houtstanding]; exact forall_mem_map.mpr hf.paths)
    (by rw [houtstanding,paths,length_map]; exact hf.entries)
  rw [houtstanding] at hp
  have hsorted := sortedByPath_eq hp (validPath_of_mem_paths h)
  have hentries := sortedEntries_perm h
  have hupdates := updates_ok root (sortedEntries root) 0
    (fun e he => (mem_entries h).mp (hentries.mem_iff.mp he)) (fun e he => hf.plain e (hentries.mem_iff.mp he))
    (fun e he => hf.files e (hentries.mem_iff.mp he))
    (by rw [Nat.zero_add,(hentries.map _).sum_eq]; exact hf.total)
  have hitems : (sortedEntries root).filterMap (fun item => item.2.view.map (item.1,·)) = items root := by
    rw [sortedEntries,items,filterMap_filterMap]
    refine filterMap_congr fun path _ => ?_
    rw [view]
    cases entryAt root path <;> rfl
  rw [map_fst_sortedEntries h,hitems] at hupdates
  show (collectLoop [] [([],root)] >>= fun es => updates root (sortedByPath es) 0) = _
  rw [hres]
  show updates root (sortedByPath r) 0 = _
  rw [hsorted,hupdates]

theorem recordable_items (hf : Fits root) : ∀ item ∈ items root, Recordable item.1 item.2 := by
  rintro ⟨path,v⟩ hitem
  obtain ⟨entry,hentry,hview⟩ := Option.bind_eq_some_iff.mp ((mem_items h).mp hitem)
  have hmem := (mem_entries h).mpr hentry
  have hp : (pathBytes path).length ≤ maximumPathBytes := hf.paths _ hmem
  have hfile := hf.files _ hmem
  have hlimits : maximumPathBytes < 2 ^ 64 ∧ maximumFileBytes < 2 ^ 64 := by decide
  refine ⟨validPath_of_mem_paths h path (mem_map.mpr ⟨_,hmem,rfl⟩),Nat.lt_of_le_of_lt hp hlimits.1,?_⟩
  cases entry with
  | special => cases hview
  | directory =>
    cases hview
    exact Nat.two_pow_pos 64
  | file =>
    cases hview
    exact Nat.lt_of_le_of_lt hfile hlimits.2

theorem mem_paths (hf : Fits root) {path : Path} : path ∈ paths root ↔ (view root path).isSome := by
  constructor
  · intro hp
    obtain ⟨⟨_,entry⟩,hmem,rfl⟩ := mem_map.mp hp
    have hplain := hf.plain _ hmem
    rw [view,(mem_entries h).mp hmem]
    exact hplain
  · intro hsome
    obtain ⟨v,hv⟩ := Option.isSome_iff_exists.mp hsome
    obtain ⟨entry,hentry,-⟩ := Option.bind_eq_some_iff.mp hv
    exact mem_map.mpr ⟨_,(mem_entries h).mpr hentry,rfl⟩

end

/-- The streams of two trees within the limits are the same exactly if the trees are, whatever the order of their
listings. -/
theorem stream_injective (ha : WellFormed a) (hb : WellFormed b) (hfa : Fits a) (hfb : Fits b) :
    ∃ bytes bytes', stream a = .ok bytes ∧ stream b = .ok bytes' ∧
      (bytes = bytes' ↔ ∀ path, view a path = view b path) := by
  refine ⟨_,_,stream_ok ha hfa,stream_ok hb hfb,?_,?_⟩
  · intro heq path
    have hitems := records_inj (recordable_items ha hfa) (recordable_items hb hfb) heq
    refine Option.ext fun v => ?_
    rw [← mem_items ha,← mem_items hb,hitems]
  · intro hview
    have hpaths : (paths a).Perm (paths b) := by
      refine (perm_ext_iff_of_nodup (nodup_entriesBelow ha []) (nodup_entriesBelow hb [])).mpr fun path => ?_
      rw [← paths,← paths,mem_paths ha hfa,mem_paths hb hfb,hview]
    rw [items,items,sortedByPath_eq hpaths (validPath_of_mem_paths hb)]
    simp only [hview]

/-- A package with a directory that holds one file. -/
def oneFile (mode : UInt32) : Listing := [([98],.directory 0o755 [([97],.file mode [1,2,3])])]

theorem wellFormed_oneFile (mode : UInt32) : WellFormed (oneFile mode) := by
  refine .mk (by simp [oneFile]) (by simp [oneFile]) (forall_mem_singleton.mpr ?_)
  refine .mk (by simp [Entry.children]) (by simp [Entry.children]) (forall_mem_singleton.mpr ?_)
  exact .mk nodup_nil (forall_mem_nil _) (forall_mem_nil _)

theorem fits_oneFile (mode : UInt32) : Fits (oneFile mode) := by
  have hentries : entriesBelow [] (oneFile mode) =
      [([[98]],.directory 0o755 [([97],.file mode [1,2,3])]),([[98],[97]],.file mode [1,2,3])] := by
    simp [entriesBelow,oneFile,Entry.children]
  constructor <;> rw [hentries]
  · show 2 ≤ maximumEntries
    decide
  · simp only [forall_mem_cons]
    exact ⟨by decide,by decide,forall_mem_nil _⟩
  · simp only [forall_mem_cons]
    exact ⟨Nat.zero_le _,by simp [Entry.size,maximumFileBytes],forall_mem_nil _⟩
  · simp [Entry.size,maximumTotalBytes]
  · simp [Entry.view]

/-- Making the file executable changes the stream. -/
theorem stream_injective_oneFile : stream (oneFile 0o644) ≠ stream (oneFile 0o755) := by
  obtain ⟨bytes,bytes',hplain,hexecutable,hiff⟩ :=
    stream_injective (wellFormed_oneFile 0o644) (wellFormed_oneFile 0o755)
    (fits_oneFile 0o644) (fits_oneFile 0o755)
  rw [hplain,hexecutable]
  intro heq
  exact absurd (hiff.mp (Except.ok.inj heq) [[98],[97]]) (by decide)

end
end Whim.Archive
