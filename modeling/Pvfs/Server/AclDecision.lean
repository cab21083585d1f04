import Pvfs.Server.Prelude

/-! # The decision of an access control list (pint-util.c)

`PINT_check_acls` goes through the entries once, jumps to a search for the mask when an entry
applies, and remembers in a flag that a group did not give enough. The standard puts the same
decision in classes: the owner, else the named users, else all groups that match, else the
others. For a list in the order of the classes the two agree, so long as the attributes that
come with it say who the owner and the group are. -/

namespace Pvfs.Server

open List

/-- `PINT_check_acls` with its assertion about the `mask` of the attributes, which fails (`none`) if
`PVFS_ATTR_COMMON_UID`, `PVFS_ATTR_COMMON_GID` or `PVFS_ATTR_COMMON_PERM` is missing. -/
def assertedCheckAcls (checkGroup : Nat → Nat → Except PvfsError Unit) (aclBuf : List UInt8)
    (mask : Nat) (attr : ObjectAttr) (ids : Identity) (want : Nat) :
    Option (Except PvfsError Unit) :=
  if mask.testBit 0 && mask.testBit 1 && mask.testBit 2 then
    some (checkAcls checkGroup aclBuf attr ids want)
  else none

/-- A complete list: owner, group and others, and a mask if need be. -/
structure AccessAcl where
  owner : AclEntry
  users : List AclEntry
  group : AclEntry
  groups : List AclEntry
  mask : Option AclEntry
  other : AclEntry
  owner_tag : owner.tag = aclUserObj
  users_tag : ∀ e ∈ users, e.tag = aclUser
  group_tag : group.tag = aclGroupObj
  groups_tag : ∀ e ∈ groups, e.tag = aclGroup
  mask_tag : ∀ e ∈ mask, e.tag = aclMask
  other_tag : other.tag = aclOther

def AccessAcl.entries (acl : AccessAcl) : List AclEntry :=
  acl.owner :: (acl.users ++ (acl.group :: acl.groups ++ (acl.mask.toList ++ [acl.other])))

/-- All permissions that are wanted are given. -/
def Gives (perm want : Nat) : Prop := perm &&& want = want

instance (perm want : Nat) : Decidable (Gives perm want) := inferInstanceAs (Decidable (_ = _))

/-- What the mask leaves of a permission. -/
def limit (mask : Option AclEntry) (perm : Nat) : Nat :=
  mask.elim perm fun e => perm &&& e.perm

section
variable (checkGroup : Nat → Nat → Except PvfsError Unit) (attr : ObjectAttr) (ids : Identity)

def applies (e : AclEntry) : Bool :=
  inGroupP checkGroup ids (if e.tag = aclGroupObj then attr.group else e.id)

/-- A group that applies grants, or none applies and the others may. -/
def GroupsGrant (found : Prop) (groups : List AclEntry) (mask : Option AclEntry) (other : AclEntry)
    (want : Nat) : Prop :=
  (∃ e ∈ groups, applies checkGroup attr ids e ∧ Gives (limit mask e.perm) want) ∨
    ¬ found ∧ (∀ e ∈ groups, ¬ applies checkGroup attr ids e) ∧ Gives other.perm want

/-- The decision of POSIX on an access list. -/
def AccessAcl.Grants (acl : AccessAcl) (want : Nat) : Prop :=
  if attr.owner = ids.uid then Gives acl.owner.perm want
  else
    match acl.users.find? fun e => e.id = ids.uid with
    | some e => Gives (limit acl.mask e.perm) want
    | none => GroupsGrant checkGroup attr ids False (acl.group :: acl.groups) acl.mask acl.other want

end

variable {checkGroup : Nat → Nat → Except PvfsError Unit} {attr : ObjectAttr} {ids : Identity}
  {want : Nat} {mask : Option AclEntry} {other : AclEntry}
variable {perm : Nat}

theorem checkPerm_ok : checkPerm perm want = .ok () ↔ Gives perm want := by
  unfold checkPerm Gives
  split <;> simp [*]

theorem gives_and {a b : Nat} : Gives (a &&& b) want ↔ Gives a want ∧ Gives b want := by
  unfold Gives
  refine ⟨fun h => ⟨?_, ?_⟩, fun ⟨ha, hb⟩ => by rw [Nat.and_assoc, hb, ha]⟩
  · rw [← h, ← Nat.and_assoc, ← Nat.and_assoc, Nat.and_self]
  · rw [← h, ← Nat.and_assoc, Nat.and_comm b, Nat.and_assoc a, Nat.and_self]

theorem gives_limit :
    Gives (limit mask perm) want ↔ Gives perm want ∧ ∀ e ∈ mask, Gives e.perm want := by
  cases mask with
  | none => simp [limit]
  | some e => simp [limit, gives_and]

section
variable (hmask : ∀ e ∈ mask, e.tag = aclMask) (hother : other.tag = aclOther)
include hmask hother

theorem checkMask_ok {perm : Nat} {l : List AclEntry} (hl : ∀ e ∈ l, e.tag ≠ aclMask) :
    checkMask perm want (l ++ (mask.toList ++ [other])) = .ok () ↔ Gives (limit mask perm) want := by
  have hnone : l.find? (fun e => e.tag = aclMask) = none :=
    find?_eq_none.mpr fun e he => by simpa using hl e he
  rw [checkMask, find?_append, hnone, Option.none_or]
  cases mask with
  | none => simp [hother, aclOther, aclMask, limit, checkPerm_ok]
  | some e => simp [hmask e rfl, limit, checkPerm_ok]

theorem groups_ok {groups : List AclEntry} {found : Bool}
    (hgroups : ∀ e ∈ groups, e.tag = aclGroupObj ∨ e.tag = aclGroup) :
    checkAclEntries checkGroup attr ids want found (groups ++ (mask.toList ++ [other])) = .ok () ↔
      GroupsGrant checkGroup attr ids (found = true) groups mask other want := by
  induction groups generalizing found with
  | nil =>
    -- only the mask, which is passed over, and the others are left
    have hlast : checkAclEntries checkGroup attr ids want found [other] = .ok () ↔
        found ≠ true ∧ Gives other.perm want := by
      rw [checkAclEntries, hother]
      cases found <;> simp [aclUserObj, aclUser, aclGroupObj, aclGroup, aclMask, aclOther,
        checkPerm_ok]
    cases mask with
    | none => simpa [GroupsGrant] using hlast
    | some m =>
      rw [nil_append, Option.toList_some, singleton_append, checkAclEntries, hmask m rfl]
      simpa [GroupsGrant, aclUserObj, aclUser, aclGroupObj, aclGroup, aclMask] using hlast
  | cons e groups ih =>
    obtain ⟨htag, hrest⟩ := forall_mem_cons.mp hgroups
    have hnomask : ∀ e ∈ groups, e.tag ≠ aclMask := fun e he heq => by
      rcases hrest e he with h | h <;> rw [heq] at h <;> cases h
    have hturn : checkAclEntries checkGroup attr ids want found
        (e :: (groups ++ (mask.toList ++ [other]))) =
        if applies checkGroup attr ids e then
          if Gives e.perm want then checkMask e.perm want (groups ++ (mask.toList ++ [other]))
          else checkAclEntries checkGroup attr ids want true (groups ++ (mask.toList ++ [other]))
        else checkAclEntries checkGroup attr ids want found (groups ++ (mask.toList ++ [other])) := by
      rw [checkAclEntries]
      rcases htag with h | h <;> simp only [applies, h] <;> rfl
    rw [cons_append, hturn]
    by_cases happ : applies checkGroup attr ids e
    · rw [if_pos happ]
      by_cases hgive : Gives e.perm want
      · rw [if_pos hgive, checkMask_ok hmask hother hnomask]
        -- any other group that gives enough is limited by the same mask
        simp only [GroupsGrant, exists_mem_cons_iff, forall_mem_cons, happ, not_true, false_and,
          and_false, or_false, true_and, gives_limit, hgive]
        exact ⟨.inl, fun h => h.elim id fun ⟨_, _, _, _, hm⟩ => hm⟩
      · rw [if_neg hgive, ih hrest]
        simp [GroupsGrant, happ, gives_limit, hgive]
    · rw [if_neg happ, ih hrest]
      simp [GroupsGrant, happ]

theorem users_ok {users groups : List AclEntry} (husers : ∀ e ∈ users, e.tag = aclUser)
    (hgroups : ∀ e ∈ groups, e.tag = aclGroupObj ∨ e.tag = aclGroup) :
    checkAclEntries checkGroup attr ids want false
        (users ++ (groups ++ (mask.toList ++ [other]))) = .ok () ↔
      match users.find? fun e => e.id = ids.uid with
      | some e => Gives (limit mask e.perm) want
      | none => GroupsGrant checkGroup attr ids False groups mask other want := by
  induction users with
  | nil =>
    have hgroup : checkAclEntries checkGroup attr ids want false _ = .ok () ↔ _ :=
      groups_ok hmask hother hgroups
    simpa using hgroup
  | cons e users ih =>
    obtain ⟨htag, hrest⟩ := forall_mem_cons.mp husers
    rw [cons_append, checkAclEntries, if_neg (by rw [htag]; decide), if_pos htag, find?_cons]
    by_cases hid : e.id = ids.uid
    · have hnomask : ∀ e ∈ users ++ groups, e.tag ≠ aclMask := fun e he heq => by
        rcases mem_append.mp he with he | he
        · exact absurd ((hrest e he).symm.trans heq) (by decide)
        · rcases hgroups e he with h | h <;> exact absurd (h.symm.trans heq) (by decide)
      rw [if_pos hid, ← append_assoc, checkMask_ok hmask hother hnomask]
      simp [hid]
    · rw [if_neg hid, ih hrest]
      simp [hid]

end

/-- **The decision is the one of the standard**, if the attributes have an owner, a group and
permissions. -/
theorem assertedCheckAcls_posix (acl : AccessAcl) {aclBuf : List UInt8} {attrMask : Nat}
    (hsize : aclBuf.length % 12 = 1) (hacl : aclEntries aclBuf.dropLast = acl.entries)
    (hmask : attrMask.testBit 0 ∧ attrMask.testBit 1 ∧ attrMask.testBit 2) :
    assertedCheckAcls checkGroup aclBuf attrMask attr ids want = some (.ok ()) ↔
      acl.Grants checkGroup attr ids want := by
  have hgroups : ∀ e ∈ acl.group :: acl.groups, e.tag = aclGroupObj ∨ e.tag = aclGroup :=
    forall_mem_cons.mpr ⟨.inl acl.group_tag, fun e he => .inr (acl.groups_tag e he)⟩
  rw [assertedCheckAcls, if_pos (by simp [hmask]), Option.some_inj, checkAcls, if_neg (by omega),
    if_neg (by omega), hacl, AccessAcl.entries, checkAclEntries, if_pos acl.owner_tag,
    AccessAcl.Grants]
  split
  · exact checkPerm_ok
  · exact users_ok acl.mask_tag acl.other_tag acl.users_tag hgroups

/-- User 8 and group 20 share the file with the owner, as far as the mask `rw-` allows. -/
def sharedAcl : AccessAcl :=
  ⟨⟨1, 7, 0⟩, [⟨2, 7, 8⟩], ⟨4, 0, 0⟩, [⟨8, 6, 20⟩], some ⟨16, 6, 0⟩, ⟨32, 0, 0⟩, rfl, by decide, rfl,
    by decide, by decide, rfl⟩

def sharedAclBuf : List UInt8 :=
  [1, 0, 0, 0, 7, 0, 0, 0, 0, 0, 0, 0, 2, 0, 0, 0, 7, 0, 0, 0, 8, 0, 0, 0,
    4, 0, 0, 0, 0, 0, 0, 0, 0, 0, 0, 0, 8, 0, 0, 0, 6, 0, 0, 0, 20, 0, 0, 0,
    16, 0, 0, 0, 6, 0, 0, 0, 0, 0, 0, 0, 32, 0, 0, 0, 0, 0, 0, 0, 0, 0, 0, 0, 0]

theorem sharedAcl_granted :
    assertedCheckAcls (fun _ _ => .error .eacces) sharedAclBuf 7 ⟨5, 0, 0, .none⟩ ⟨8, 1⟩ 6 =
        some (.ok ()) ∧
      assertedCheckAcls (fun _ _ => .error .eacces) sharedAclBuf 7 ⟨5, 0, 0, .none⟩ ⟨9, 20⟩ 4 =
        some (.ok ()) := by
  constructor
  · refine (assertedCheckAcls_posix sharedAcl (by decide) (by decide) (by decide)).mpr ?_
    exact show Gives (limit (some ⟨16, 6, 0⟩) 7) 6 by decide
  · refine (assertedCheckAcls_posix sharedAcl (by decide) (by decide) (by decide)).mpr ?_
    exact .inl ⟨⟨8, 6, 20⟩, by decide, by decide, by decide⟩

def ownerOnly : AccessAcl :=
  ⟨⟨1, 7, 0⟩, [], ⟨4, 0, 0⟩, [], none, ⟨32, 0, 0⟩, rfl, by simp, rfl, by simp, by simp, rfl⟩

def ownerOnlyBuf : List UInt8 :=
  [1, 0, 0, 0, 7, 0, 0, 0, 0, 0, 0, 0, 4, 0, 0, 0, 0, 0, 0, 0, 0, 0, 0, 0,
    32, 0, 0, 0, 0, 0, 0, 0, 0, 0, 0, 0, 0]

/-- Without `PVFS_ATTR_COMMON_UID` in the mask the server aborts instead of letting the owner in. -/
theorem ownerOnly_aborted : ownerOnly.Grants (fun _ _ => .error .eacces) ⟨5, 0, 0, .none⟩ ⟨5, 1⟩ 6 ∧
    assertedCheckAcls (fun _ _ => .error .eacces) ownerOnlyBuf 6 ⟨5, 0, 0, .none⟩ ⟨5, 1⟩ 6 = none :=
  ⟨by rw [AccessAcl.Grants, if_pos rfl]; decide, rfl⟩

end Pvfs.Server
