import Pvfs.Server.Squash

/-! # Read-only exports

The prelude refuses a request that modifies a file system exported read-only to the host it
comes from. It can do so only for the file system it finds in the request, so the protection
rests on the table of request kinds: a kind that changes the storage has to say that it
modifies, and which object it names.

What the machines do after the prelude is kept here as the set of calls each of them can make
that create, change or remove something in the storage, over all of its paths, clean-up
included. Machines of several requests run interleaved, so a run is any list of calls each of
which one of the requests can make. -/

namespace Pvfs.Server

open List

inductive StorageChange where
  | dspaceCreate
  | dspaceCreateList
  | dspaceSetattr
  | dspaceRemove
  | dspaceRemoveList
  | keyvalWrite
  | keyvalWriteList
  | keyvalRemove
  | keyvalRemoveList
  | bstreamWrite
  | bstreamResize
  | precreatePoolGetHandles
  | precreatePoolFill
deriving DecidableEq, Repr

structure StorageCall where
  change : StorageChange
  fsId : FsId
deriving DecidableEq, Repr

/-- `lebf_decode_req` knows the operation; the others are refused before any machine is started. -/
def ServerOp.decodes : ServerOp → Bool
  | .invalid | .writeCompletion | .perfUpdate | .precreatePoolRefiller | .jobTimer
  | .protoError => false
  | _ => true

/-- The calls that the machine of a request can make, on any of its paths. -/
def ServerReq.changes (req : ServerReq) : List StorageChange :=
  match req.op with
  -- create.sm; the last four undo what was done when a later step fails
  | .create =>
    [.dspaceCreate, .dspaceCreateList, .dspaceSetattr, .precreatePoolGetHandles, .keyvalWriteList,
      .keyvalRemoveList, .precreatePoolFill, .dspaceRemoveList, .dspaceRemove]
  | .remove | .batchRemove | .mgmtRemoveObject => [.dspaceRemove]
  | .io | .smallIo => if req.ioType = .write then [.bstreamWrite] else []
  | .setattr => [.dspaceSetattr, .keyvalWrite]
  | .crdirent | .chdirent => [.keyvalWrite, .dspaceSetattr]
  | .rmdirent => [.keyvalRemove, .dspaceSetattr]
  | .truncate => [.bstreamResize]
  | .mkdir => [.dspaceCreate, .dspaceSetattr, .keyvalWrite]
  | .mgmtRemoveDirent | .deleattr => [.keyvalRemove]
  | .seteattr => [.keyvalWriteList]
  -- batch-create.sm refuses a request for no objects
  | .batchCreate => if req.objectCount < 1 then [] else [.dspaceCreateList]
  | .unstuff => [.precreatePoolGetHandles, .keyvalWrite, .dspaceSetattr, .keyvalRemoveList]
  | .migrationPoster => [.dspaceCreateList, .dspaceSetattr, .bstreamWrite]
  | .setDfAttrPoster => [.dspaceSetattr]
  | _ => []

section
variable {Host Addr : Type}

/-- A request that creates objects although no object is looked at in its prelude: a mkdir or a batch
create of at least one. -/
def ServerReq.CreatesUnchecked (req : ServerReq) : Prop :=
  req.op = .mkdir ∨ req.op = .batchCreate ∧ 1 ≤ req.objectCount

instance (req : ServerReq) : Decidable req.CreatesUnchecked :=
  inferInstanceAs (Decidable (_ ∨ _ ∧ _))

/-- `setup_prelude` of batch-remove.sm, which sets the object up for each handle in turn. -/
def batchRemoveSetup (addr : Addr) (req : ServerReq) (handle : Handle) : PreludeOp Addr where
  req := req
  addr := addr
  targetFsId := req.fsId
  targetHandle := handle
  accessType := getAccessType req

def preludeOps (addr : Addr) (req : ServerReq) : List (PreludeOp Addr) :=
  if req.op = .batchRemove then req.handles.map (batchRemoveSetup addr req)
  else [preludeSetup addr req]

/-- A request from an address can make a call: its operation is known, the prelude succeeds, and
the call is one of its machine's, all of which are made on the file system in the request. -/
def Makes (checkGroup : Nat → Nat → Except PvfsError Unit) (queryAddrRange : Addr → Host → Bool)
    (config : ServerConfiguration Host) (addr : Addr) (req : ServerReq) (call : StorageCall) : Prop :=
  req.op.decodes = true ∧
    (∃ s ∈ preludeOps addr req, ∃ answers req',
      (preludeWork checkGroup queryAddrRange config answers s).result = .ok req' ∧
        call.fsId = req'.fsId) ∧
    call.change ∈ req.changes

def Served (checkGroup : Nat → Nat → Except PvfsError Unit) (queryAddrRange : Addr → Host → Bool)
    (config : ServerConfiguration Host) (reqs : List (Addr × ServerReq))
    (calls : List StorageCall) : Prop :=
  ∀ call ∈ calls, ∃ r ∈ reqs, Makes checkGroup queryAddrRange config r.1 r.2 call

/-- The storage after some calls; each changes the file system it is made on in some way. -/
def applyCalls {α : Type} (effect : StorageCall → α → α) :
    (FsId → α) → List StorageCall → FsId → α
  | stores, [] => stores
  | stores, call :: calls =>
    applyCalls effect
      (fun fsId => if fsId = call.fsId then effect call (stores fsId) else stores fsId) calls

theorem applyCalls_of_ne {α : Type} {effect : StorageCall → α → α} {calls : List StorageCall}
    {fsId : FsId} (hne : ∀ call ∈ calls, call.fsId ≠ fsId) (stores : FsId → α) :
    applyCalls effect stores calls fsId = stores fsId := by
  induction calls generalizing stores with
  | nil => rfl
  | cons call calls ih =>
    rw [applyCalls, ih fun c hc => hne c (mem_cons_of_mem _ hc)]
    exact if_neg (hne call mem_cons_self).symm

variable {checkGroup : Nat → Nat → Except PvfsError Unit} {queryAddrRange : Addr → Host → Bool}
  {config : ServerConfiguration Host} {fs : FilesystemConfiguration Host} {addr : Addr}
  {req : ServerReq} {call : StorageCall}

theorem preludeOps_modify (hchange : call.change ∈ req.changes)
    (hchecked : ¬ req.CreatesUnchecked) :
    ∀ s ∈ preludeOps addr req,
      s.req = req ∧ s.addr = addr ∧ s.targetFsId = req.fsId ∧ s.accessType = .modify := by
  obtain ⟨op, credentials, fsId, handle, ioType, attr, handles, objectCount⟩ := req
  intro s hs
  cases op
  case batchRemove =>
    obtain ⟨h, -, rfl⟩ := mem_map.mp hs
    exact ⟨rfl, rfl, rfl, rfl⟩
  case mkdir => exact absurd (.inl rfl) hchecked
  case batchCreate =>
    by_cases hcount : objectCount < 1
    · rw [ServerReq.changes, if_pos hcount] at hchange
      exact absurd hchange not_mem_nil
    · exact absurd (.inr ⟨rfl, Nat.not_lt.mp hcount⟩) hchecked
  case io | smallIo =>
    -- only a write changes anything, and only a read says that it does not
    cases mem_singleton.mp hs
    refine ⟨rfl, rfl, rfl, ?_⟩
    cases ioType with
    | write => rfl
    | read | unknown => cases hchange
  all_goals first
    | exact absurd hchange not_mem_nil
    | (cases mem_singleton.mp hs
       exact ⟨rfl, rfl, rfl, rfl⟩)

theorem fsId_of_permIds {s : PreludeOp Addr} {p : PermIds}
    (h : permIds queryAddrRange config s = some p) : p.req.fsId = s.req.fsId := by
  unfold permIds at h
  repeat' split at h
  all_goals first
    | (cases h; rfl)
    | cases h

theorem makes_other_fs (hfs : configFindFsId config fs.collId = some fs) (hro : fs.readOnly = true)
    (hhost : ∃ host ∈ fs.roHosts, queryAddrRange addr host = true)
    (hkind : req.fsId = fs.collId → ¬ req.CreatesUnchecked)
    (hmakes : Makes checkGroup queryAddrRange config addr req call) : call.fsId ≠ fs.collId := by
  intro hcall
  obtain ⟨-, ⟨s, hs, answers, req', hresult, hcallfs⟩, hchange⟩ := hmakes
  obtain ⟨p, hp, rfl⟩ := (preludeWork_by).2 req' hresult
  have hsreq : s.req = req := by
    unfold preludeOps at hs
    split at hs
    · obtain ⟨h, -, rfl⟩ := mem_map.mp hs
      rfl
    · cases mem_singleton.mp hs
      rfl
  have hreq : req.fsId = fs.collId := by
    rw [← hcall, hcallfs, fsId_of_permIds hp, hsreq]
  obtain ⟨-, haddr, htarget, haccess⟩ :=
    preludeOps_modify hchange (hkind hreq) s hs
  have hdenied : permitOperation queryAddrRange config s.targetFsId s.accessType s.addr = false := by
    rw [htarget, hreq, haddr, permitOperation_iff hfs]
    exact ⟨haccess, hro, hhost⟩
  rw [permIds, if_pos (by rw [htarget, hreq]; exact fs.collId_ne), hdenied] at hp
  cases hp

theorem makes_unchecked (h : req.CreatesUnchecked) :
    ∃ change, Makes checkGroup queryAddrRange config addr req ⟨change, req.fsId⟩ := by
  have hserved : ∃ answers,
      (preludeWork checkGroup queryAddrRange config answers (preludeSetup addr req)).result =
        .ok req := by
    refine ⟨⟨.ok (), .error .enoent, .error .enoent⟩, ?_⟩
    obtain ⟨op, credentials, fsId, handle, ioType, attr, handles, objectCount⟩ := req
    rcases h with h | ⟨h, -⟩ <;> cases h <;> rfl
  obtain ⟨answers, hresult⟩ := hserved
  have hops : preludeSetup addr req ∈ preludeOps addr req := by
    rw [preludeOps, if_neg (by rcases h with h | ⟨h, -⟩ <;> rw [h] <;> decide)]
    exact mem_singleton_self _
  rcases h with h | ⟨h, hcount⟩
  · refine ⟨.dspaceCreate, by rw [h]; rfl, ⟨_, hops, answers, req, hresult, rfl⟩, ?_⟩
    rw [ServerReq.changes, h]
    exact mem_cons_self
  · refine ⟨.dspaceCreateList, by rw [h]; rfl, ⟨_, hops, answers, req, hresult, rfl⟩, ?_⟩
    rw [ServerReq.changes, h]
    dsimp only
    rw [if_neg (Nat.not_lt.mpr hcount)]
    exact mem_cons_self

/-- **A read-only export is not modified**, by any run of the server for any requests from hosts it
is read-only for, just when none of them is a mkdir or a batch create of an object on it. -/
theorem read_only_kept_iff {α : Type} [Nontrivial α]
    (checkGroup : Nat → Nat → Except PvfsError Unit)
    (hfs : configFindFsId config fs.collId = some fs) (hro : fs.readOnly = true)
    (reqs : List (Addr × ServerReq))
    (hhosts : ∀ r ∈ reqs, ∃ host ∈ fs.roHosts, queryAddrRange r.1 host = true) :
    (∀ calls, Served checkGroup queryAddrRange config reqs calls →
        ∀ (effect : StorageCall → α → α) (stores : FsId → α),
          applyCalls effect stores calls fs.collId = stores fs.collId) ↔
      ∀ r ∈ reqs, r.2.fsId = fs.collId → ¬ r.2.CreatesUnchecked := by
  constructor
  · intro hkept r hr hfsId hkind
    obtain ⟨change, hmakes⟩ :=
      @makes_unchecked Host Addr checkGroup queryAddrRange config r.1 r.2 hkind
    -- let the call change what is there
    obtain ⟨a, b, hab⟩ := exists_pair_ne α
    have hserved : Served checkGroup queryAddrRange config reqs [⟨change, r.2.fsId⟩] := by
      intro call hcall
      cases mem_singleton.mp hcall
      exact ⟨r, hr, hmakes⟩
    have hsame := hkept _ hserved (fun _ _ => b) fun _ => a
    rw [hfsId, applyCalls, applyCalls, if_pos rfl] at hsame
    exact hab hsame.symm
  · intro hkinds calls hserved effect stores
    apply applyCalls_of_ne
    intro call hcall
    obtain ⟨r, hr, hmakes⟩ := hserved call hcall
    exact makes_other_fs hfs hro (hhosts r hr) (hkinds r hr) hmakes

end

def readOnlyFs : FilesystemConfiguration Nat :=
  { squashedFs with readOnly := true, roHosts := [5] }

def onReadOnlyFs (op : ServerOp) : ServerReq :=
  { takeOver ⟨1000, 1000⟩ with op := op, ioType := .write }

theorem read_only_kept_ordinary :
    (∀ r ∈ [(5, onReadOnlyFs .create), (5, onReadOnlyFs .io)],
      ∃ host ∈ readOnlyFs.roHosts, (r.1 == host) = true) ∧
    ∀ calls, Served (fun _ _ => .error .enoent) (fun addr host => addr == host) [readOnlyFs]
        [(5, onReadOnlyFs .create), (5, onReadOnlyFs .io)] calls →
      ∀ (effect : StorageCall → Nat → Nat) (stores : FsId → Nat),
        applyCalls effect stores calls 9 = stores 9 := by
  have hhosts : ∀ r ∈ [(5, onReadOnlyFs .create), (5, onReadOnlyFs .io)],
      ∃ host ∈ readOnlyFs.roHosts, (r.1 == host) = true := by decide
  have hkinds : ∀ r ∈ [(5, onReadOnlyFs .create), (5, onReadOnlyFs .io)],
      r.2.fsId = readOnlyFs.collId → ¬ r.2.CreatesUnchecked := by decide
  exact ⟨hhosts, (@read_only_kept_iff Nat Nat (fun addr host => addr == host) [readOnlyFs] readOnlyFs
    Nat _ (fun _ _ => .error .enoent) rfl rfl _ hhosts).mpr hkinds⟩

/-- A mkdir from a host the file system is read-only for creates a dataspace in it. -/
theorem read_only_modified :
    (∃ host ∈ readOnlyFs.roHosts, ((5 : Nat) == host) = true) ∧
      (prelude (fun _ _ => .error .enoent) (fun addr host : Nat => addr == host) [readOnlyFs]
        ⟨.ok (), .error .enoent, .error .enoent⟩ 5 (onReadOnlyFs .mkdir)).result =
          .ok (onReadOnlyFs .mkdir) ∧
      Served (fun _ _ => .error .enoent) (fun addr host : Nat => addr == host) [readOnlyFs]
        [(5, onReadOnlyFs .mkdir)] [⟨.dspaceCreate, 9⟩] ∧
      applyCalls (fun _ n => n + 1) (fun _ => 0) [⟨.dspaceCreate, 9⟩] 9 = 1 := by
  refine ⟨by decide, rfl, ?_, rfl⟩
  intro call hcall
  cases mem_singleton.mp hcall
  refine ⟨_, mem_singleton_self _, rfl, ⟨_, mem_singleton_self _,
    ⟨.ok (), .error .enoent, .error .enoent⟩, _, rfl, rfl⟩, ?_⟩
  exact mem_cons_self

end Pvfs.Server
