import Pvfs.Lib.Bytes
import Pvfs.Server.Scheduler

/-! # The prelude of a request (prelude.sm, pvfs2-server-req.c, pint-util.c)

Before a request is carried out, one nested machine decides whether it may be: it schedules the
request, reads the attributes of the object it names, and checks the permissions of its sender.
What it looks at is given per request kind by a table: the permissions needed, whether the
request modifies, and how to get at the object (file system and handle) it names. A kind that
has no such function in the table names no object, as far as the prelude can tell.

The configuration of a file system may export it read-only to some hosts, and may have the ids
of other hosts replaced by an anonymous pair. Matching an address against an entry of a host
list is a parameter here, as is the group database of the system. -/

namespace Pvfs.Server

open Pvfs.Lib

abbrev FsId := Nat

/-- `PVFS_FS_ID_NULL`. -/
def fsIdNull : FsId := 0

/-- `PVFS_HANDLE_NULL`. -/
def handleNull : Handle := 0

structure Identity where
  uid : Nat
  gid : Nat
deriving DecidableEq, Repr

inductive PvfsError where
  | eacces
  | erofs
  | einval
  | eio
  | enoent
  | other (code : Nat)
deriving DecidableEq, Repr

/-! ## The configuration -/

/-- `struct filesystem_configuration_s`: its id and its export options. The three flags are the
bits of `exp_flags`. A file system without an id is refused when the configuration is read
(`is_populated_filesystem_configuration`). -/
structure FilesystemConfiguration (Host : Type) where
  collId : FsId
  collId_ne : collId ≠ fsIdNull
  readOnly : Bool
  rootSquash : Bool
  allSquash : Bool
  roHosts : List Host
  rootSquashHosts : List Host
  rootSquashExceptionsHosts : List Host
  allSquashHosts : List Host
  expAnon : Identity

abbrev ServerConfiguration (Host : Type) := List (FilesystemConfiguration Host)

/-- `PINT_config_find_fs_id`. -/
def configFindFsId {Host : Type} (config : ServerConfiguration Host) (fsId : FsId) :
    Option (FilesystemConfiguration Host) :=
  config.find? fun fs => fs.collId = fsId

/-! ## Requests -/

/-- `enum PVFS_io_type`; any other value can be sent as well. -/
inductive IoType where
  | read
  | write
  | unknown
deriving DecidableEq, Repr

/-- The attributes a setattr or mkdir request carries: their owner and group, and whether the mask
has the two. -/
structure ReqAttr where
  maskUid : Bool
  maskGid : Bool
  owner : Nat
  group : Nat
deriving DecidableEq, Repr

/-- `struct PVFS_server_req`. What is in the union `u` for the kind of the request is kept in one
record: the file system and the handle it names, the type of an I/O request, the attributes of
setattr and mkdir, the handles of a batch remove and the number of objects of a batch create. -/
structure ServerReq where
  op : ServerOp
  credentials : Identity
  fsId : FsId
  handle : Handle
  ioType : IoType
  attr : ReqAttr
  handles : List Handle
  objectCount : Nat
deriving DecidableEq, Repr

/-- `enum PINT_server_req_permissions`; a structure that does not set it has the first. -/
inductive ReqPermissions where
  | checkInvalid
  | checkWrite
  | checkRead
  | checkNone
  | checkAttr
  | checkCrdirent
deriving DecidableEq, Repr

/-- `struct PINT_server_req_params`. -/
structure ReqParams where
  perm : ReqPermissions := .checkInvalid
  accessType : Option (ServerReq → AccessType) := none
  getObjectRef : Option (ServerReq → FsId × Handle) := none

/-- `PINT_server_req_readonly`. -/
def reqReadonly : ServerReq → AccessType := fun _ => .readonly

/-- `PINT_server_req_modify` (and `PINT_server_req_migration`). -/
def reqModify : ServerReq → AccessType := fun _ => .modify

/-- `PINT_server_req_access_io`, and the one for small I/O, which reads the same member. -/
def reqAccessIo : ServerReq → AccessType := fun req =>
  if req.ioType = .read then .readonly else .modify

/-- What `PINT_GET_OBJECT_REF_DEFINE` defines. -/
def objectRef : ServerReq → FsId × Handle := fun req => (req.fsId, req.handle)

def fsRef : ServerReq → FsId × Handle := fun req => (req.fsId, handleNull)

/-- `PINT_server_req_table`. -/
def ServerOp.params : ServerOp → Option ReqParams
  | .invalid | .writeCompletion | .mgmtDspaceInfoList | .mgmtEventMon => none
  | .create => some ⟨.checkNone, reqModify, fsRef⟩
  | .remove => some ⟨.checkNone, reqModify, objectRef⟩
  | .io => some ⟨.checkNone, reqAccessIo, objectRef⟩
  | .getattr => some ⟨.checkAttr, reqReadonly, objectRef⟩
  | .setattr => some ⟨.checkAttr, reqModify, objectRef⟩
  | .lookupPath => some ⟨.checkNone, none, objectRef⟩
  | .crdirent => some ⟨.checkCrdirent, reqModify, objectRef⟩
  | .rmdirent => some ⟨.checkWrite, reqModify, objectRef⟩
  | .chdirent => some ⟨.checkWrite, reqModify, objectRef⟩
  | .truncate => some ⟨.checkNone, reqModify, objectRef⟩
  -- `PINT_get_object_ref_mkdir` is defined, but not in the table
  | .mkdir => some ⟨.checkNone, reqModify, none⟩
  | .readdir => some ⟨.checkRead, none, objectRef⟩
  | .getconfig => some ⟨.checkNone, none, none⟩
  | .flush => some ⟨.checkNone, reqModify, objectRef⟩
  | .mgmtSetparam => some ⟨.checkNone, reqModify, fsRef⟩
  | .mgmtNoop => some ⟨.checkNone, reqReadonly, none⟩
  | .statfs => some ⟨.checkInvalid, none, fsRef⟩
  | .perfUpdate => some ⟨.checkInvalid, none, none⟩
  | .mgmtPerfMon => some ⟨.checkNone, none, none⟩
  | .mgmtIterateHandles => some ⟨.checkNone, none, fsRef⟩
  | .mgmtRemoveObject => some ⟨.checkNone, reqModify, objectRef⟩
  | .mgmtRemoveDirent => some ⟨.checkNone, reqModify, objectRef⟩
  | .mgmtGetDirdataHandle => some ⟨.checkNone, none, objectRef⟩
  | .jobTimer => some ⟨.checkInvalid, none, none⟩
  | .protoError => some ⟨.checkInvalid, none, none⟩
  | .geteattr => some ⟨.checkAttr, none, objectRef⟩
  | .seteattr => some ⟨.checkAttr, reqModify, objectRef⟩
  | .deleattr => some ⟨.checkAttr, reqModify, objectRef⟩
  | .listeattr => some ⟨.checkAttr, none, objectRef⟩
  | .smallIo => some ⟨.checkNone, reqAccessIo, objectRef⟩
  | .listattr => some ⟨.checkNone, reqReadonly, fsRef⟩
  | .batchCreate => some ⟨.checkNone, reqModify, none⟩
  | .batchRemove => some ⟨.checkNone, reqModify, none⟩
  | .precreatePoolRefiller => some ⟨.checkInvalid, none, none⟩
  | .unstuff => some ⟨.checkWrite, reqModify, objectRef⟩
  | .migrationPoster => some ⟨.checkNone, reqModify, fsRef⟩
  | .setDfAttrPoster => some ⟨.checkNone, reqModify, objectRef⟩

/-- `PINT_server_req_get_perms`. -/
def getPerms (req : ServerReq) : ReqPermissions := (req.op.params.getD {}).perm

/-- `PINT_server_req_get_access_type`. -/
def getAccessType (req : ServerReq) : AccessType :=
  match (req.op.params.getD {}).accessType with
  | none => .readonly
  | some accessType => accessType req

/-- `PINT_server_req_get_object_ref`. -/
def getObjectRef (req : ServerReq) : FsId × Handle :=
  match (req.op.params.getD {}).getObjectRef with
  | none => (0, 0)
  | some getObjectRef => getObjectRef req

/-- The part of `struct PINT_server_op` that the prelude sets up. -/
structure PreludeOp (Addr : Type) where
  req : ServerReq
  addr : Addr
  targetFsId : FsId
  targetHandle : Handle
  accessType : AccessType

/-- `prelude_setup`. -/
def preludeSetup {Addr : Type} (addr : Addr) (req : ServerReq) : PreludeOp Addr where
  req := req
  addr := addr
  targetFsId := (getObjectRef req).1
  targetHandle := (getObjectRef req).2
  accessType := getAccessType req

/-! ## Modes and access control lists -/

/-- `PVFS_ds_type`, as far as the prelude tells the types apart. -/
inductive DsType where
  | none
  | metafile
  | datafile
  | directory
  | symlink
  | other
deriving DecidableEq, Repr

/-- `PVFS_object_attr`: what the permission checks read. -/
structure ObjectAttr where
  owner : Nat
  group : Nat
  perms : Nat
  objtype : DsType
deriving DecidableEq, Repr

def ObjectAttr.zero : ObjectAttr := ⟨0, 0, 0, .none⟩

/-- `enum PINT_access_type`. -/
inductive Access where
  | readable
  | writable
  | executable
deriving DecidableEq, Repr

def Access.bit : Access → Nat
  | .executable => 0
  | .writable => 1
  | .readable => 2

section

/- `PINT_check_group`: whether a user is in a group; `enoent` says no, other errors are the system's. -/
variable (checkGroup : Nat → Nat → Except PvfsError Unit)

/-- `PINT_check_mode`. -/
def checkMode (attr : ObjectAttr) (ids : Identity) (access : Access) : Except PvfsError Unit :=
  if ids.uid = 0 then .ok ()
  else if attr.owner = ids.uid && attr.perms.testBit (6 + access.bit) then .ok ()
  else if attr.perms.testBit access.bit then .ok ()
  else
    match if attr.group = ids.gid then .ok () else checkGroup ids.uid attr.group with
    | .ok () => if attr.perms.testBit (3 + access.bit) then .ok () else .error .eacces
    | .error .enoent => .error .eacces
    | .error e => .error e

/-- `pvfs2_acl_entry`. -/
structure AclEntry where
  tag : Nat
  perm : Nat
  id : Nat
deriving DecidableEq, Repr

/-- The entries of an access control list, twelve bytes each. -/
def aclEntries (buf : List UInt8) : List AclEntry :=
  (List.range (buf.length / 12)).map fun i =>
    ⟨ofLeBytes ((buf.drop (12 * i)).take 4), ofLeBytes ((buf.drop (12 * i + 4)).take 4),
      ofLeBytes ((buf.drop (12 * i + 8)).take 4)⟩

def aclUserObj : Nat := 0x01
def aclUser : Nat := 0x02
def aclGroupObj : Nat := 0x04
def aclGroup : Nat := 0x08
def aclMask : Nat := 0x10
def aclOther : Nat := 0x20

/-- `in_group_p`. -/
def inGroupP (ids : Identity) (attrGroup : Nat) : Bool :=
  attrGroup = ids.gid || (checkGroup ids.uid attrGroup).isOk

/-- The permissions of an entry are enough (the label `check_perm`). -/
def checkPerm (perm want : Nat) : Except PvfsError Unit :=
  if perm &&& want = want then .ok () else .error .eacces

/-- From the label `mask` on: a mask among the entries that are left limits the permissions. -/
def checkMask (perm want : Nat) (rest : List AclEntry) : Except PvfsError Unit :=
  match rest.find? fun e => e.tag = aclMask with
  | some mask => checkPerm (perm &&& mask.perm) want
  | none => checkPerm perm want

/-- The loop of `PINT_check_acls`. -/
def checkAclEntries (attr : ObjectAttr) (ids : Identity) (want : Nat) :
    Bool → List AclEntry → Except PvfsError Unit
  | _, [] => .error .eio
  | found, e :: rest =>
    if e.tag = aclUserObj then
      if attr.owner = ids.uid then checkPerm e.perm want else checkAclEntries attr ids want found rest
    else if e.tag = aclUser then
      if e.id = ids.uid then checkMask e.perm want rest else checkAclEntries attr ids want found rest
    else if e.tag = aclGroupObj || e.tag = aclGroup then
      if inGroupP checkGroup ids (if e.tag = aclGroupObj then attr.group else e.id) then
        if e.perm &&& want = want then checkMask e.perm want rest
        else checkAclEntries attr ids want true rest
      else checkAclEntries attr ids want found rest
    else if e.tag = aclMask then checkAclEntries attr ids want found rest
    else if e.tag = aclOther then if found then .error .eacces else checkPerm e.perm want
    else .error .eio

/-- `PINT_check_acls`; the value ends with a zero byte. -/
def checkAcls (aclBuf : List UInt8) (attr : ObjectAttr) (ids : Identity) (want : Nat) :
    Except PvfsError Unit :=
  if aclBuf.length = 0 then .error .eacces
  else if (aclBuf.length - 1) % 12 ≠ 0 then .error .eacces
  else checkAclEntries checkGroup attr ids want false (aclEntries aclBuf.dropLast)

end

/-! ## Exports -/

section
variable {Host Addr : Type} (queryAddrRange : Addr → Host → Bool)

/-- The loops over the host lists: `iterate_ro_wildcards`, `iterate_all_squash_wildcards`. -/
def iterateWildcards (hosts : List Host) (clientAddr : Addr) : Bool :=
  hosts.any (queryAddrRange clientAddr)

/-- `iterate_root_squash_wildcards`: the exceptions first. -/
def iterateRootSquashWildcards (fs : FilesystemConfiguration Host) (clientAddr : Addr) : Bool :=
  if iterateWildcards queryAddrRange fs.rootSquashExceptionsHosts clientAddr then false
  else iterateWildcards queryAddrRange fs.rootSquashHosts clientAddr

/-- `translate_ids`: the ids to use instead, if they are squashed. -/
def translateIds (config : ServerConfiguration Host) (fsId : FsId) (ids : Identity)
    (clientAddr : Addr) : Option Identity :=
  match configFindFsId config fsId with
  | none => none
  | some fs =>
    if fs.allSquash && iterateWildcards queryAddrRange fs.allSquashHosts clientAddr then
      some fs.expAnon
    else if fs.rootSquash && (ids.uid = 0 || ids.gid = 0) &&
        iterateRootSquashWildcards queryAddrRange fs clientAddr then
      some fs.expAnon
    else none

/-- `permit_operation`. -/
def permitOperation (config : ServerConfiguration Host) (fsId : FsId) (accessType : AccessType)
    (clientAddr : Addr) : Bool :=
  if accessType = .readonly then true
  else
    match configFindFsId config fsId with
    | none => true
    | some fs => !(fs.readOnly && iterateWildcards queryAddrRange fs.roHosts clientAddr)

def ServerReq.squash (req : ServerReq) (anon : Identity) : ServerReq :=
  { req with
    credentials := anon
    attr := if req.op = .setattr || req.op = .mkdir then
      { req.attr with owner := anon.uid, group := anon.gid } else req.attr }

/-- What the permission checks go by: the request from here on, and the variables
`translated_uid`, `translated_gid` and `squashed_flag` of `prelude_perm_check`. -/
structure PermIds where
  req : ServerReq
  translated : Identity
  squashed : Bool
deriving DecidableEq, Repr

/-- The beginning of `prelude_perm_check`; `none` if the operation is not permitted. -/
def permIds (config : ServerConfiguration Host) (s : PreludeOp Addr) : Option PermIds :=
  if s.targetFsId ≠ fsIdNull then
    if permitOperation queryAddrRange config s.targetFsId s.accessType s.addr then
      -- the ids are translated for the local variable `fsid`, which is never set
      match translateIds queryAddrRange config fsIdNull s.req.credentials s.addr with
      | some anon => some ⟨s.req.squash anon, anon, true⟩
      | none => some ⟨s.req, s.req.credentials, false⟩
    else none
  else some ⟨s.req, s.req.credentials, false⟩

end

/-! ## The checks of a request -/

/-- A check that was made, with the ids it was made with. -/
inductive IdCheck where
  | mode (ids : Identity)
  | owner (uid : Nat)
  | acl (ids : Identity)
deriving DecidableEq, Repr

/-- What the prelude is told from outside: by the request scheduler, and by the reads of the
attributes and of the access control list of the object. -/
structure PreludeAnswers where
  sched : Except PvfsError Unit
  getattr : Except PvfsError ObjectAttr
  acl : Except PvfsError (List UInt8)

/-- The checks made, and the request as the states after the prelude find it, or an error. -/
structure Preluded where
  checks : List IdCheck
  result : Except PvfsError ServerReq

section
variable (checkGroup : Nat → Nat → Except PvfsError Unit)

/-- The switch of `prelude_perm_check`: the checks made, their result, and `skip_acl_flag`. -/
def permCheck (p : PermIds) (attr : ObjectAttr) : List IdCheck × Except PvfsError Unit × Bool :=
  let mode := checkMode checkGroup attr p.translated
  match getPerms p.req with
  | .checkWrite => ([.mode p.translated], mode .writable, false)
  | .checkRead => ([.mode p.translated], mode .readable, false)
  | .checkCrdirent =>
    match mode .writable with
    | .ok () => ([.mode p.translated, .mode p.translated], mode .executable, false)
    | .error e => ([.mode p.translated], .error e, false)
  | .checkAttr =>
    if attr.objtype = .datafile then ([], .ok (), false)
    else if p.req.op = .getattr || p.req.op = .geteattr || p.req.op = .listeattr then
      ([], .ok (), false)
    else if attr.perms = 0 && attr.objtype = .symlink then ([], .ok (), false)
    else if attr.owner = p.translated.uid || p.translated.uid = 0 then
      ([.owner p.translated.uid], .ok (), false)
    else ([.owner p.translated.uid, .mode p.translated], mode .writable, false)
  | .checkNone =>
    if p.squashed && getAccessType p.req = .modify &&
        (p.req.op = .io || p.req.op = .smallIo || p.req.op = .truncate) then
      ([], .error .eacces, true)
    else ([], .ok (), false)
  | .checkInvalid => ([], .error .einval, false)

def aclWant : ReqPermissions → Nat
  | .checkWrite | .checkAttr | .checkInvalid => 0x02
  | .checkRead => 0x04
  | .checkCrdirent => 0x02 ||| 0x01
  | .checkNone => 0

/-- `prelude_check_acls_if_needed` and `prelude_check_acls`. -/
def preludeCheckAcls {Addr : Type} (answers : PreludeAnswers) (s : PreludeOp Addr) (req : ServerReq)
    (attr : ObjectAttr) : List IdCheck × Except PvfsError Unit :=
  if s.targetFsId = fsIdNull || s.targetHandle = handleNull then ([], .error .eacces)
  else
    match answers.acl with
    | .error .enoent => ([], .error .eacces)
    | .error e => ([], .error e)
    | .ok aclBuf =>
      if attr.objtype ≠ .metafile && attr.objtype ≠ .directory && attr.objtype ≠ .symlink then
        ([], .error .einval)
      else if getPerms req = .checkInvalid then ([], .error .einval)
      else
        ([.acl req.credentials],
          checkAcls checkGroup aclBuf attr req.credentials (aclWant (getPerms req)))

variable {Host Addr : Type} (queryAddrRange : Addr → Host → Bool)

/-- `pvfs2_prelude_work_sm`. -/
def preludeWork (config : ServerConfiguration Host) (answers : PreludeAnswers)
    (s : PreludeOp Addr) : Preluded :=
  match answers.sched with
  | .error e => ⟨[], .error e⟩
  | .ok () =>
    match permIds queryAddrRange config s with
    | none => ⟨[], .error .erofs⟩
    | some p =>
      match if s.targetHandle = handleNull then .ok ObjectAttr.zero else answers.getattr with
      | .error e => ⟨[], .error e⟩
      | .ok attr =>
        match permCheck checkGroup p attr with
        | (checks, .ok (), _) => ⟨checks, .ok p.req⟩
        | (checks, .error .eacces, false) =>
          match preludeCheckAcls checkGroup answers s p.req attr with
          | (more, .ok ()) => ⟨checks ++ more, .ok p.req⟩
          | (more, .error e) => ⟨checks ++ more, .error e⟩
        | (checks, .error e, _) => ⟨checks, .error e⟩

/-- `pvfs2_prelude_sm`. -/
def prelude (config : ServerConfiguration Host) (answers : PreludeAnswers) (addr : Addr)
    (req : ServerReq) : Preluded :=
  preludeWork checkGroup queryAddrRange config answers (preludeSetup addr req)

end

/-! ## What every run of the prelude goes by -/

def IdCheck.By (translated credentials : Identity) : IdCheck → Prop
  | .mode ids => ids = translated
  | .owner uid => uid = translated.uid
  | .acl ids => ids = credentials

section
variable {checkGroup : Nat → Nat → Except PvfsError Unit} {Host Addr : Type}
  {queryAddrRange : Addr → Host → Bool} {config : ServerConfiguration Host}
  {answers : PreludeAnswers} {s : PreludeOp Addr} {p : PermIds}

theorem permCheck_by {attr : ObjectAttr} :
    ∀ c ∈ (permCheck checkGroup p attr).1, c.By p.translated p.req.credentials := by
  have hmode : IdCheck.By p.translated p.req.credentials (.mode p.translated) := rfl
  have howner : IdCheck.By p.translated p.req.credentials (.owner p.translated.uid) := rfl
  unfold permCheck
  cases getPerms p.req with
  | checkInvalid => simp
  | checkWrite | checkRead => simp [hmode]
  | checkNone =>
    dsimp only
    split <;> simp
  | checkAttr =>
    dsimp only
    repeat' split
    all_goals simp [hmode, howner]
  | checkCrdirent =>
    dsimp only
    cases checkMode checkGroup attr p.translated .writable <;> simp [hmode]

theorem preludeCheckAcls_by {req : ServerReq} {attr : ObjectAttr} {translated : Identity} :
    ∀ c ∈ (preludeCheckAcls checkGroup answers s req attr).1, c.By translated req.credentials := by
  intro c hc
  unfold preludeCheckAcls at hc
  repeat' split at hc
  all_goals simp at hc
  subst hc
  rfl

/-- **Every check of a run is made with the ids settled at its beginning**, and the request that is
passed on is the one settled there. -/
theorem preludeWork_by :
    ((∀ c ∈ (preludeWork checkGroup queryAddrRange config answers s).checks,
        ∃ p, permIds queryAddrRange config s = some p ∧ c.By p.translated p.req.credentials) ∧
      ∀ req, (preludeWork checkGroup queryAddrRange config answers s).result = .ok req →
        ∃ p, permIds queryAddrRange config s = some p ∧ p.req = req) := by
  unfold preludeWork
  cases answers.sched with
  | error e => simp
  | ok _ =>
    cases hids : permIds queryAddrRange config s with
    | none => simp
    | some p =>
      dsimp only
      split
      · simp
      · rename_i attr _
        have hperm := @permCheck_by checkGroup p attr
        have hacl := @preludeCheckAcls_by checkGroup Addr answers s p.req attr p.translated
        -- the verdict of the mode check, and if need be that of the access control list
        split
        · rename_i checks _ hcheck
          rw [hcheck] at hperm
          exact ⟨fun c hc => ⟨p, rfl, hperm c hc⟩, fun req hreq => ⟨p, rfl, Except.ok.inj hreq⟩⟩
        · rename_i checks hcheck
          rw [hcheck] at hperm
          split
          · rename_i more hmore
            rw [hmore] at hacl
            refine ⟨fun c hc => ⟨p, rfl, ?_⟩, fun req hreq => ⟨p, rfl, Except.ok.inj hreq⟩⟩
            exact (List.mem_append.mp hc).elim (hperm c) (hacl c)
          · rename_i more e hmore
            rw [hmore] at hacl
            refine ⟨fun c hc => ⟨p, rfl, ?_⟩, fun req hreq => by cases hreq⟩
            exact (List.mem_append.mp hc).elim (hperm c) (hacl c)
        · rename_i checks e _ _ hcheck
          rw [hcheck] at hperm
          exact ⟨fun c hc => ⟨p, rfl, hperm c hc⟩, fun req hreq => by cases hreq⟩

end

end Pvfs.Server
