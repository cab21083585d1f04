import Pvfs.Server.Prelude

/-! # Squashing the ids of a client (prelude.sm)

A file system can be exported so that the ids of all requests from some hosts, or of root's
requests from some hosts, are replaced by an anonymous pair. `translate_ids` decides this for
the file system it is given. `prelude_perm_check` gives it a variable that still has its
initial value, the null id, under which no file system is configured. So nobody is squashed,
and requests are right only where squashing would change nothing. -/

namespace Pvfs.Server

variable {Host Addr : Type} {queryAddrRange : Addr → Host → Bool}
  {config : ServerConfiguration Host} {fs : FilesystemConfiguration Host} {addr : Addr}
  {req : ServerReq}

/-- The export options of a file system say that ids from an address are to be replaced. -/
def SquashDue (queryAddrRange : Addr → Host → Bool) (fs : FilesystemConfiguration Host)
    (addr : Addr) (ids : Identity) : Prop :=
  (fs.allSquash = true ∧ ∃ host ∈ fs.allSquashHosts, queryAddrRange addr host = true) ∨
    (fs.rootSquash = true ∧ (∃ host ∈ fs.rootSquashHosts, queryAddrRange addr host = true) ∧
      (∀ host ∈ fs.rootSquashExceptionsHosts, queryAddrRange addr host = false) ∧
      (ids.uid = 0 ∨ ids.gid = 0))

instance {ids : Identity} : Decidable (SquashDue queryAddrRange fs addr ids) :=
  inferInstanceAs (Decidable (_ ∨ _))

theorem iterateWildcards_iff {hosts : List Host} :
    iterateWildcards queryAddrRange hosts addr = true ↔
      ∃ host ∈ hosts, queryAddrRange addr host = true := by
  rw [iterateWildcards, List.any_eq_true]

/-! ## What the prelude does with it -/

/-- A request has its owner stored: mkdir always does, setattr if it says so. -/
def ServerReq.storesOwner (req : ServerReq) : Prop :=
  req.op = .mkdir ∨ req.op = .setattr ∧ req.attr.maskUid = true

def ServerReq.storesGroup (req : ServerReq) : Prop :=
  req.op = .mkdir ∨ req.op = .setattr ∧ req.attr.maskGid = true

/-- The ids that the mode check, the check of the access control list and the storing of owner and
group go by are the given ones. -/
structure GoesBy (req : ServerReq) (ids : Identity) (stored : Identity) (p : PermIds) : Prop where
  mode : p.translated = ids
  acl : p.req.credentials = ids
  owner : req.storesOwner → p.req.attr.owner = stored.uid
  group : req.storesGroup → p.req.attr.group = stored.gid

/-- What a request goes by is the anonymous ids if squashing is due, and its own ids otherwise. -/
def SquashingApplied (queryAddrRange : Addr → Host → Bool) (fs : FilesystemConfiguration Host)
    (addr : Addr) (req : ServerReq) (p : PermIds) : Prop :=
  (SquashDue queryAddrRange fs addr req.credentials → GoesBy req fs.expAnon fs.expAnon p) ∧
    (¬ SquashDue queryAddrRange fs addr req.credentials →
      GoesBy req req.credentials ⟨req.attr.owner, req.attr.group⟩ p)

/-- The anonymous ids are those of the request anyway. -/
def AnonymousAlready (fs : FilesystemConfiguration Host) (req : ServerReq) : Prop :=
  req.credentials = fs.expAnon ∧ (req.storesOwner → req.attr.owner = fs.expAnon.uid) ∧
    (req.storesGroup → req.attr.group = fs.expAnon.gid)

/-- A modifying request that names an object is refused to the hosts of a read-only export. -/
def RefusedReadOnly (queryAddrRange : Addr → Host → Bool) (fs : FilesystemConfiguration Host)
    (addr : Addr) (req : ServerReq) : Prop :=
  (getObjectRef req).1 ≠ fsIdNull ∧ getAccessType req = .modify ∧ fs.readOnly = true ∧
    ∃ host ∈ fs.roHosts, queryAddrRange addr host = true

theorem configFindFsId_null : configFindFsId config fsIdNull = none := by
  rw [configFindFsId, List.find?_eq_none]
  intro fs _
  simpa using fs.collId_ne

theorem getObjectRef_fst : (getObjectRef req).1 = fsIdNull ∨ (getObjectRef req).1 = req.fsId := by
  unfold getObjectRef
  cases req.op <;> first | exact .inl rfl | exact .inr rfl

theorem permitOperation_iff {accessType : AccessType} {fsId : FsId}
    (hfs : configFindFsId config fsId = some fs) :
    permitOperation queryAddrRange config fsId accessType addr = false ↔
      accessType = .modify ∧ fs.readOnly = true ∧
        ∃ host ∈ fs.roHosts, queryAddrRange addr host = true := by
  rw [permitOperation, hfs, ← iterateWildcards_iff]
  cases accessType <;> simp

theorem permIds_eq (hfs : configFindFsId config req.fsId = some fs) :
    (RefusedReadOnly queryAddrRange fs addr req ∧
        permIds queryAddrRange config (preludeSetup addr req) = none) ∨
      ¬ RefusedReadOnly queryAddrRange fs addr req ∧
        permIds queryAddrRange config (preludeSetup addr req) =
          some ⟨req, req.credentials, false⟩ := by
  unfold permIds preludeSetup RefusedReadOnly
  by_cases htarget : (getObjectRef req).1 = fsIdNull
  · right
    refine ⟨fun h => h.1 htarget, ?_⟩
    rw [if_neg (not_not.mpr htarget)]
  · rw [if_pos htarget]
    have hname : (getObjectRef req).1 = req.fsId := getObjectRef_fst.resolve_left htarget
    rw [hname] at htarget ⊢
    have hiff := @permitOperation_iff Host Addr queryAddrRange config fs addr (getAccessType req) _ hfs
    cases hpermit : permitOperation queryAddrRange config req.fsId (getAccessType req) addr with
    | false => exact .inl ⟨⟨htarget, hiff.mp hpermit⟩, rfl⟩
    | true =>
      right
      refine ⟨fun h => ?_, ?_⟩
      · rw [hiff.mpr h.2] at hpermit
        cases hpermit
      · rw [translateIds, configFindFsId_null]
        rfl

/-- **When squashing is applied.**  All checks of a request, in every run of the prelude, are made
with the ids settled at its beginning, and the request is passed on with them. They are the
right ones just when the request is refused, no squashing is due, or the anonymous ids are
those of the request anyway. -/
theorem squashing_applied_iff (checkGroup : Nat → Nat → Except PvfsError Unit)
    (hfs : configFindFsId config req.fsId = some fs) :
    (∀ answers : PreludeAnswers,
      (∀ c ∈ (prelude checkGroup queryAddrRange config answers addr req).checks,
        ∃ p, permIds queryAddrRange config (preludeSetup addr req) = some p ∧
          c.By p.translated p.req.credentials) ∧
      ∀ req', (prelude checkGroup queryAddrRange config answers addr req).result = .ok req' →
        ∃ p, permIds queryAddrRange config (preludeSetup addr req) = some p ∧ p.req = req') ∧
    ((∀ p, permIds queryAddrRange config (preludeSetup addr req) = some p →
        SquashingApplied queryAddrRange fs addr req p) ↔
      RefusedReadOnly queryAddrRange fs addr req ∨
        ¬ SquashDue queryAddrRange fs addr req.credentials ∨ AnonymousAlready fs req) := by
  refine ⟨fun answers => preludeWork_by, ?_⟩
  rcases @permIds_eq Host Addr queryAddrRange config fs addr req hfs with
    ⟨hrefused, hids⟩ | ⟨hrefused, hids⟩
  · refine ⟨fun _ => .inl hrefused, fun _ p hp => ?_⟩
    rw [hids] at hp
    cases hp
  · constructor
    · intro happlied
      right
      by_cases hdue : SquashDue queryAddrRange fs addr req.credentials
      · have h := (happlied _ hids).1 hdue
        exact .inr ⟨h.acl, h.owner, h.group⟩
      · exact .inl hdue
    · intro hcond p hp
      rw [hids] at hp
      cases hp
      refine ⟨fun hdue => ?_, fun _ => ⟨rfl, rfl, fun _ => rfl, fun _ => rfl⟩⟩
      rcases hcond with h | h | ⟨hcred, howner, hgroup⟩
      · exact absurd h hrefused
      · exact absurd hdue h
      · exact ⟨hcred, hcred, howner, hgroup⟩

def squashedFs : FilesystemConfiguration Nat where
  collId := 9
  collId_ne := by decide
  readOnly := false
  rootSquash := true
  allSquash := true
  roHosts := []
  rootSquashHosts := [6]
  rootSquashExceptionsHosts := [7]
  allSquashHosts := [5]
  expAnon := ⟨65534, 65534⟩

def takeOver (ids : Identity) : ServerReq where
  op := .setattr
  credentials := ids
  fsId := 9
  handle := 100
  ioType := .unknown
  attr := ⟨true, true, ids.uid, ids.gid⟩
  handles := []
  objectCount := 0

theorem squashing_applied_ordinary_user :
    configFindFsId [squashedFs] (takeOver ⟨1000, 1000⟩).fsId = some squashedFs ∧
      ∀ p, permIds (fun addr host => addr == host) [squashedFs]
          (preludeSetup 6 (takeOver ⟨1000, 1000⟩)) = some p →
        SquashingApplied (fun addr host => addr == host) squashedFs 6 (takeOver ⟨1000, 1000⟩) p := by
  have hnot : ¬ SquashDue (fun addr host : Nat => addr == host) squashedFs 6
      (takeOver ⟨1000, 1000⟩).credentials := by decide
  exact ⟨rfl, (squashing_applied_iff (fun _ _ => .error .enoent) rfl).2.mpr (.inr (.inl hnot))⟩

/-- Root sends a setattr from a host all of whose ids are to be squashed, for an object of user
1000 that nobody else may write. The check is made with root's ids and passes, and the request
goes on with root as the owner to be stored. -/
theorem squashing_missed :
    SquashDue (fun addr host : Nat => addr == host) squashedFs 5 (takeOver ⟨0, 0⟩).credentials ∧
      (prelude (fun _ _ => .error .enoent) (fun addr host : Nat => addr == host) [squashedFs]
          ⟨.ok (), .ok ⟨1000, 1000, 0x180, .metafile⟩, .error .enoent⟩ 5 (takeOver ⟨0, 0⟩)) =
        ⟨[.owner 0], .ok (takeOver ⟨0, 0⟩)⟩ ∧
      ((takeOver ⟨0, 0⟩).storesOwner ∧ (takeOver ⟨0, 0⟩).attr.owner ≠ squashedFs.expAnon.uid) :=
  ⟨by decide, rfl, .inr ⟨rfl, rfl⟩, by decide⟩

end Pvfs.Server
