import Whim.DescriptorHash

/-!
# Interning of type environments

A binding of a name over a parent environment is interned by its digest. An environment's id is its index, cut to 32
bits, so ids are canonical up to `2 ^ 32` environments.
-/

namespace Whim.TypeEnvironments

open TypeDescriptor List OrderedMap UInt64 Option

/-- `RuntimeTypeEnvironment` -/
structure Environment where
  parent : Option UInt32
  binding : Option (Atom × TypeDescriptor)

structure Tables where
  environments : List Environment
  cache : List (UInt64 × List UInt32)

/-- The arguments of `intern_type_binding`. -/
structure Request where
  ordered : Bool
  parent : UInt32
  name : Atom
  descriptor : TypeDescriptor

namespace Tables

/-- The tables of a new engine: the root environment. -/
def new : Tables := ⟨[⟨none,none⟩],[]⟩

section

variable (digest : List HashWrite → UInt64) (address : Atom → ℕ)

/-- `type_environment_hash` -/
def hash (request : Request) : UInt64 :=
  digest (.usize request.parent.toNat::.usize (address request.name)::
    hashDescriptor digest address request.ordered request.descriptor)

def bindingMatches (request : Request) : Option (Atom × TypeDescriptor) → Bool
  | some (name,descriptor) => name == request.name && descriptorEqual request.ordered descriptor request.descriptor
  | none => false

def environmentMatches (request : Request) (environment : Environment) : Bool :=
  environment.parent == some request.parent && bindingMatches request environment.binding

/-- The candidates of a digest, in the order they were added. -/
def candidates (tables : Tables) (hash : UInt64) : List UInt32 := (lookup tables.cache hash).getD []

/-- The first candidate with the binding. -/
def find (tables : Tables) (request : Request) : Option UInt32 :=
  (tables.candidates (hash digest address request)).find? fun candidate =>
    tables.environments[candidate.toNat]?.any (environmentMatches request)

/-- The table with a new environment for the binding, whose id is its index as an integer of 32 bits. -/
def add (tables : Tables) (request : Request) : Tables where
  environments := tables.environments++[⟨some request.parent,some (request.name,request.descriptor)⟩]
  cache := insert tables.cache (hash digest address request)
    (tables.candidates (hash digest address request)++[UInt32.ofNat tables.environments.length])

/-- `intern_type_binding` -/
def internTypeBinding (tables : Tables) (request : Request) : Tables × UInt32 :=
  match tables.find digest address request with
  | some candidate => (tables,candidate)
  | none => (tables.add digest address request,UInt32.ofNat tables.environments.length)

/-- The tables after a sequence of calls. -/
def after (tables : Tables) (requests : List Request) : Tables :=
  requests.foldl (fun tables request => (tables.internTypeBinding digest address request).1) tables

/-- The ids that a sequence of calls returns. -/
def ids (tables : Tables) : List Request → List UInt32
  | [] => []
  | request::requests =>
    (tables.internTypeBinding digest address request).2::
      ids (tables.internTypeBinding digest address request).1 requests

end

section

variable {digest : List HashWrite → UInt64} {address : Atom → ℕ} {ts : Tables} {req o : Request}

/-- The candidates of all digests are environments of the table. -/
def Indexed (tables : Tables) : Prop :=
  ∀ hash, ∀ candidate ∈ tables.candidates hash, candidate.toNat < tables.environments.length

theorem candidates_add (key : UInt64) : (ts.add digest address req).candidates key = if hash digest address req = key
    then ts.candidates key++[UInt32.ofNat ts.environments.length] else ts.candidates key := by
  simp only [candidates,add,lookup_insert,beq_iff_eq]
  split
  next heq => rw [← heq,getD_some]
  next => rfl

theorem toNat_ofNat_le (n : ℕ) : (UInt32.ofNat n).toNat ≤ n := by
  rw [UInt32.toNat_ofNat']
  exact Nat.mod_le _ _

theorem Indexed.add (h : ts.Indexed) (digest : List HashWrite → UInt64) (address : Atom → ℕ) (req : Request) :
    (ts.add digest address req).Indexed := by
  intro key candidate hcandidate
  have hlen : (ts.add digest address req).environments.length = ts.environments.length+1 :=
    length_append
  rw [candidates_add] at hcandidate
  rw [hlen]
  split at hcandidate
  · rcases mem_append.mp hcandidate with hold | hnew
    · exact Nat.lt_succ_of_lt (h key candidate hold)
    · rw [mem_singleton.mp hnew]
      exact Nat.lt_succ_of_le (toNat_ofNat_le _)
  · exact Nat.lt_succ_of_lt (h key candidate hcandidate)

theorem Indexed.intern (h : ts.Indexed) (req : Request) : (ts.internTypeBinding digest address req).1.Indexed := by
  unfold internTypeBinding
  split
  · exact h
  · exact h.add digest address req

theorem find?_append_environments {es : List Environment} {ids : List UInt32}
    (h : ∀ id ∈ ids, id.toNat < es.length) (more : List Environment) (test : Environment → Bool) :
    (ids.find? fun id => (es++more)[id.toNat]?.any test) =
      ids.find? fun id => es[id.toNat]?.any test := by
  induction ids with
  | nil => rfl
  | cons _ _ ih =>
    obtain ⟨hid,hids⟩ := forall_mem_cons.mp h
    rw [find?_cons,find?_cons,getElem?_append_left hid,ih hids]

section
variable (h : ts.Indexed)
include h

/-- What is found is still found after an environment was added. -/
theorem find_add {id : UInt32} (hf : ts.find digest address req = some id) :
    (ts.add digest address o).find digest address req = some id := by
  unfold find at hf ⊢
  rw [candidates_add]
  split
  · rw [find?_append]
    unfold add
    rw [find?_append_environments (h _),hf,some_or]
  · unfold add
    rw [find?_append_environments (h _),hf]

/-- A new environment is found, unless its index has too many bits. -/
theorem find_added (hfits : ts.environments.length < 2 ^ 32) (hf : ts.find digest address req = none) :
    (ts.add digest address req).find digest address req = some (UInt32.ofNat ts.environments.length) := by
  have hindex : (UInt32.ofNat ts.environments.length).toNat = ts.environments.length := by
    rw [UInt32.toNat_ofNat',Nat.mod_eq_of_lt hfits]
  unfold find at hf ⊢
  rw [candidates_add,if_pos rfl,find?_append]
  unfold add
  rw [find?_append_environments (h _),hf,none_or,find?_cons_of_pos]
  rw [hindex,getElem?_concat_length]
  simp [environmentMatches,bindingMatches,descriptorEqual_refl]

theorem find_intern_of_find {id : UInt32} (hf : ts.find digest address req = some id) (o : Request) :
    (ts.internTypeBinding digest address o).1.find digest address req = some id := by
  unfold internTypeBinding
  split
  · exact hf
  · exact find_add h hf

/-- A call finds again what it has returned. -/
theorem find_intern (hfits : ts.environments.length < 2 ^ 32) (req : Request) :
    (ts.internTypeBinding digest address req).1.find digest address req =
      some (ts.internTypeBinding digest address req).2 := by
  unfold internTypeBinding
  split
  next hf => exact hf
  next hf => exact find_added h hfits hf

end

/-- No call changes an environment. -/
theorem intern_environments (req : Request) :
    ts.environments <+: (ts.internTypeBinding digest address req).1.environments := by
  unfold internTypeBinding
  split
  · exact prefix_rfl
  · exact prefix_append _ _

end

section

variable {digest : List HashWrite → UInt64} {address : Atom → ℕ} {ts : Tables} {requests : List Request}

theorem after_environments (ts : Tables) (requests : List Request) :
    ts.environments <+: (ts.after digest address requests).environments := by
  induction requests generalizing ts with
  | nil => exact prefix_rfl
  | cons req _ ih => exact (intern_environments req).trans (ih _)

theorem find_after (h : ts.Indexed) {req : Request} {id : UInt32} (hf : ts.find digest address req = some id) :
    (ts.after digest address requests).find digest address req = some id := by
  induction requests generalizing ts with
  | nil => exact hf
  | cons o _ ih => exact ih (h.intern o) (find_intern_of_find h hf o)

/-- Each call is made with a table whose length is an integer of 32 bits. -/
def Fits (digest : List HashWrite → UInt64) (address : Atom → ℕ) (tables : Tables) (requests : List Request) : Prop :=
  ∀ count < requests.length, (tables.after digest address (requests.take count)).environments.length < 2 ^ 32

section
variable {req : Request}

theorem Fits.of_cons (h : Fits digest address ts (req::requests)) : ts.environments.length < 2 ^ 32 ∧
    Fits digest address (ts.internTypeBinding digest address req).1 requests :=
  ⟨h 0 (Nat.zero_lt_succ _),fun c hcount => h (c+1) (Nat.succ_lt_succ hcount)⟩

/-- At the end, every call of a sequence is still answered as it was. -/
theorem find_of_ids (h : ts.Indexed) (hf : Fits digest address ts requests) {i : ℕ}
    {id : UInt32} (hrequest : requests[i]? = some req) (hid : (ts.ids digest address requests)[i]? = some id) :
    (ts.after digest address requests).find digest address req = some id := by
  induction requests generalizing ts i with
  | nil => cases hrequest
  | cons f _ ih =>
    obtain ⟨hlen,hr⟩ := hf.of_cons
    cases i with
    | zero =>
      cases hrequest
      cases hid
      exact find_after (h.intern _) (find_intern h hlen _)
    | succ => exact ih (h.intern f) hr hrequest hid

theorem environmentMatches_iff {env : Environment} :
    environmentMatches req env ↔ env.parent = some req.parent ∧ ∃ d, env.binding = some (req.name,d) ∧
        descriptorEqual req.ordered d req.descriptor := by
  obtain ⟨p,bindings⟩ := env
  rcases bindings with - | ⟨name,d⟩ <;> simp [environmentMatches,bindingMatches]

/-- What is found has the name, and a descriptor that is equal to that of the request. -/
theorem binding_of_find {id : UInt32} (h : ts.find digest address req = some id) :
    ∃ env d, ts.environments[id.toNat]? = some env ∧ env.binding = some (req.name,d) ∧
      descriptorEqual req.ordered d req.descriptor := by
  unfold find at h
  have hany := find?_some h
  rw [Option.any_eq_true] at hany
  obtain ⟨env,henv,hmatch⟩ := hany
  obtain ⟨-,d,hbinding,hequal⟩ := environmentMatches_iff.mp hmatch
  exact ⟨env,d,henv,hbinding,hequal⟩

end

/-- Requests with one parent and name find one id exactly when their descriptors are equal. -/
theorem find_eq_iff {req o : Request} {id otherId : UInt32} (hordered : req.ordered = o.ordered)
    (hparent : req.parent = o.parent) (hn : req.name = o.name)
    (hid : ts.find digest address req = some id) (ho : ts.find digest address o = some otherId) :
    id = otherId ↔ descriptorEqual req.ordered req.descriptor o.descriptor := by
  have hequivalence : Equivalence fun a b => descriptorEqual req.ordered a b = true := descriptorEqual_equivalence
  constructor
  · rintro rfl
    obtain ⟨env,d,henv,hbinding,hequal⟩ := binding_of_find hid
    obtain ⟨env',d',henv',hbinding',hequal'⟩ := binding_of_find ho
    cases henv.symm.trans henv'
    rw [hn] at hbinding
    cases hbinding.symm.trans hbinding'
    rw [← hordered] at hequal'
    exact hequivalence.trans (hequivalence.symm hequal) hequal'
  · intro hequal
    have hh : hash digest address req = hash digest address o := by
      rw [hash,hash,hparent,hn,← hordered,hashesAlike req.descriptor o.descriptor hequal]
    have hmatches : environmentMatches req = environmentMatches o := by
      funext env
      rw [Bool.eq_iff_iff,environmentMatches_iff,environmentMatches_iff,hparent,hn,← hordered]
      refine and_congr_right fun _ => exists_congr fun d => and_congr_right fun _ => ?_
      exact ⟨fun h => hequivalence.trans h hequal,fun h => hequivalence.trans h (hequivalence.symm hequal)⟩
    rw [find,hh,hmatches] at hid
    exact some_inj.mp (hid.symm.trans ho)

theorem new_indexed : new.Indexed := by
  intro hash candidate hcandidate
  cases hcandidate

/-- Interning is canonical: equality of descriptors is an equivalence that the hash respects, no environment ever
changes, and as long as the table's length fits its ids, calls with one parent and name return one id exactly for
equal descriptors. -/
theorem interning_canonical (digest : List HashWrite → UInt64) (address : Atom → ℕ) :
    (∀ ordered, Equivalence fun a b => descriptorEqual ordered a b = true) ∧
    (∀ ordered a b, descriptorEqual ordered a b = true → ∀ state,
      digest (state++hashDescriptor digest address ordered a) =
        digest (state++hashDescriptor digest address ordered b)) ∧ ∀ requests more : List Request,
      (∀ (index : ℕ) (environment : Environment),
        (new.after digest address requests).environments[index]? = some environment →
        (new.after digest address (requests++more)).environments[index]? = some environment) ∧
      (Fits digest address new requests → ∀ (i j : ℕ) (request other : Request) (id otherId : UInt32),
        requests[i]? = some request → requests[j]? = some other →
        (new.ids digest address requests)[i]? = some id → (new.ids digest address requests)[j]? = some otherId →
        request.ordered = other.ordered → request.parent = other.parent → request.name = other.name →
        (id = otherId ↔ descriptorEqual request.ordered request.descriptor other.descriptor = true)) := by
  refine ⟨fun _ => descriptorEqual_equivalence,?_,?_⟩
  · intro ordered a b hequal state
    rw [hashesAlike a b hequal]
  intro requests more
  refine ⟨?_,?_⟩
  · intro index environment henvironment
    obtain ⟨added,hadded⟩ := after_environments (new.after digest address requests) more
    rw [after,foldl_append,← after,← after,← hadded]
    exact getElem?_append_left (List.getElem?_eq_some_iff.mp henvironment).1 |>.trans henvironment
  · intro hfits i j request other id otherId hrequest hother hid hotherId hordered hparent hname
    exact find_eq_iff hordered hparent hname (find_of_ids new_indexed hfits hrequest hid)
      (find_of_ids new_indexed hfits hother hotherId)

end

section

def typeId : Atom := ⟨[64,116],by decide⟩

def eitherOrder : List Request := [⟨false,0,typeId,.union [.int,.string]⟩,⟨false,0,typeId,.union [.string,.int]⟩]

theorem interning_canonical_eitherOrder : Fits (fun _ => 0) (fun _ => 0) new eitherOrder ∧
    (new.ids (fun _ => 0) (fun _ => 0) eitherOrder)[0]? = (new.ids (fun _ => 0) (fun _ => 0) eitherOrder)[1]? := by
  have hfits : Fits (fun _ => 0) (fun _ => 0) new eitherOrder := by
    unfold Fits
    decide
  obtain ⟨-,-,hruns⟩ := interning_canonical (fun _ => 0) fun _ => 0
  have hids := (hruns eitherOrder []).2 hfits 0 1 _ _ _ _ rfl rfl rfl rfl rfl rfl rfl
  exact ⟨hfits,congrArg some (hids.mpr (by decide))⟩

/-- A request for a literal of the number. -/
def literalRequest (number : ℕ) : Request := ⟨true,0,typeId,.uintLiteral (ofNat number)⟩

/-- All bindings are literals of smaller numbers. -/
def BoundBelow (tables : Tables) (number : ℕ) : Prop :=
  ∀ environment ∈ tables.environments, ∀ name descriptor, environment.binding = some (name,descriptor) →
    ∃ smaller < number, descriptor = .uintLiteral (ofNat smaller)

variable {digest : List HashWrite → UInt64} {address : Atom → ℕ} {ts : Tables} {number : ℕ}

section
variable (h : ts.BoundBelow number)
include h

theorem BoundBelow.find (hlt : number < 2 ^ 64) : ts.find digest address (literalRequest number) = none := by
  rw [eq_none_iff_forall_ne_some]
  intro id hid
  obtain ⟨env,d,henv,hbinding,hequal⟩ := binding_of_find hid
  obtain ⟨smaller,hsmaller,rfl⟩ := h env (mem_of_getElem? henv) _ _ hbinding
  simp only [literalRequest,descriptorEqual,beq_iff_eq] at hequal
  have hnat := congrArg toNat hequal
  rw [toNat_ofNat',toNat_ofNat',Nat.mod_eq_of_lt hlt,Nat.mod_eq_of_lt (by omega)] at hnat
  omega

theorem BoundBelow.add : (ts.add digest address (literalRequest number)).BoundBelow (number+1) := by
  intro env hmem name d hbinding
  rcases mem_append.mp hmem with hold | hnew
  · obtain ⟨smaller,hsmaller,heq⟩ := h env hold name d hbinding
    exact ⟨smaller,by omega,heq⟩
  · cases mem_singleton.mp hnew
    cases hbinding
    exact ⟨number,Nat.lt_succ_self _,rfl⟩

/-- Requests for literals of growing numbers each get the next index, cut to 32 bits. -/
theorem ids_literals (c : ℕ) (hlt : number+c ≤ 2 ^ 64) :
    ts.ids digest address ((List.range' number c).map literalRequest) =
      (List.range' ts.environments.length c).map UInt32.ofNat := by
  induction c generalizing ts number with
  | zero => rfl
  | succ _ ih =>
    have hlen : (ts.add digest address (literalRequest number)).environments.length =
        ts.environments.length+1 := length_append
    have hintern : ts.internTypeBinding digest address (literalRequest number) =
        (ts.add digest address (literalRequest number),UInt32.ofNat ts.environments.length) := by
      rw [internTypeBinding,h.find (by omega)]
    rw [range'_succ,range'_succ,map_cons,map_cons,ids,hintern,ih h.add (by omega),hlen]

end

/-- After `2 ^ 32` environments a literal gets the id that another literal has. -/
theorem wrapped_id_shared : ∃ requests : List Request, requests[0]? = some (literalRequest 0) ∧
    requests[2 ^ 32]? = some (literalRequest (2 ^ 32)) ∧ (new.ids (fun _ => 0) (fun _ => 0) requests)[0]? = some 1 ∧
    (new.ids (fun _ => 0) (fun _ => 0) requests)[2 ^ 32]? = some 1 ∧
    descriptorEqual true (literalRequest 0).descriptor (literalRequest (2 ^ 32)).descriptor = false := by
  have hbound : new.BoundBelow 0 := by
    intro environment hmem name descriptor hbinding
    cases mem_singleton.mp hmem
    cases hbinding
  refine ⟨(List.range' 0 (2 ^ 32+1)).map literalRequest,?_,?_,?_,?_,by decide⟩
  · rw [getElem?_map,getElem?_range' (by omega)]
    rfl
  · rw [getElem?_map,getElem?_range' (by omega)]
    simp
  · rw [ids_literals hbound _ (by omega),getElem?_map,getElem?_range' (by omega)]
    rfl
  · rw [ids_literals hbound _ (by omega),getElem?_map,getElem?_range' (by omega)]
    rfl

end
end Tables
end Whim.TypeEnvironments
