import Mathlib.Data.List.TakeWhile
import Pvfs.Lib.Steps
import Pvfs.Server.Discipline

/-! # Which requests run together

Requests on one handle may run together if all are I/O, if all are declared read-only, or
if all create or remove directory entries. The scheduler keeps to this whenever it wakes
requests, and when it lets one in beside others except at one place: a directory entry
operation is let in whatever runs, and is marked read-only there, so that read-only
operations are let in beside it later. -/

namespace Pvfs.Server

open Scheduler Lib List

variable {s s' : Scheduler} {id : ReqSchedId} {h : Handle} {e e' : Element}

def ServerOp.dirent (op : ServerOp) : Prop := op = .crdirent ∨ op = .rmdirent

/-- Two I/O requests, or two that only read. -/
def Compatible (e e' : Element) : Prop :=
  (e.op = .io ∧ e'.op = .io) ∨ (e.declared = .readonly ∧ e'.declared = .readonly) ∨
    (e.op.dirent ∧ e'.op.dirent)

theorem Compatible.symm (h : Compatible e e') : Compatible e' e :=
  h.imp And.symm (Or.imp And.symm And.symm)

/-- Any two requests on a handle that are scheduled or ready may run together. -/
def NoConflict (s : Scheduler) : Prop :=
  ∀ h, ∀ e ∈ s.reqSchedTable h, ∀ e' ∈ s.reqSchedTable h, e.id ≠ e'.id →
    e.active = true → e'.active = true → Compatible e e'

def callStep (s : Scheduler) (c : Call) : Option Scheduler := (s.call c).map Prod.snd

/-- The company in which a request is let in beside others: if it is a directory entry
operation then so are all of them, and if it is read-only then none of them only passes
for read-only. -/
def GoodCompany (op : ServerOp) (a : AccessType) (q : List Element) : Prop :=
  EndsScheduled q →
    (op.dirent → a = .modify → ∀ e ∈ q, e.op.dirent) ∧
    (op ≠ .io → a = .readonly → (∀ e ∈ q, e.accessType = .readonly) →
      ∀ e ∈ q, e.declared = .modify → op.dirent ∧ e.op.dirent)

/-- Every request that is posted to the scheduler finds itself in good company. -/
def PostsInGoodCompany (s : Scheduler) : Call → Prop
  | .post op h a .schedule => turnedAway s op a = false → GoodCompany op a (s.reqSchedTable h)
  | _ => True

/-! ## Requests that are let in -/

/-- A queued request has the access type it came with. -/
def Labelled (s : Scheduler) : Prop :=
  ∀ h, ∀ e ∈ s.reqSchedTable h, e.state = .queued → e.accessType = e.declared

theorem noConflict_enqueue (hs : NoConflict s) (hold : ∀ e' ∈ s.reqSchedTable e.handle, e'.id ≠ e.id) :
    NoConflict (enqueue s e) ↔
      (e.active = true → ∀ e' ∈ s.reqSchedTable e.handle, e'.active = true → Compatible e e') := by
  constructor
  · intro hnew hact e' he' hact'
    exact hnew e.handle e (by simp [enqueue, setQueue]) e' (mem_enqueue he') (hold e' he').symm hact hact'
  · intro hcomp h e1 he1 e2 he2 hne hact1 hact2
    obtain he1 | ⟨rfl, rfl⟩ := of_mem_enqueue he1
    · obtain he2 | ⟨rfl, rfl⟩ := of_mem_enqueue he2
      · exact hs h e1 he1 e2 he2 hne hact1 hact2
      · exact (hcomp hact2 e1 he1 hact1).symm
    · obtain he2 | ⟨-, rfl⟩ := of_mem_enqueue he2
      · exact hcomp hact1 e2 he2 hact2
      · exact absurd rfl hne

variable {a : AccessType} {op : ServerOp}
variable {q : List Element}

/-- **A request keeps the scheduler free of conflicts just when it is in good company.** -/
theorem compatible_iff_goodCompany (hq : Blocks q) (hop : e.op = op)
    (hdecl : e.declared = a) (hst : e.state = (admission op a q).1) :
    (e.active = true → ∀ e' ∈ q, e'.active = true → Compatible e e') ↔ GoodCompany op a q := by
  have hactive : e.state = .scheduled → e.active = true := fun h => by simp [Element.active, h]
  rcases admission_cases op a q with ⟨rfl, h⟩ | ⟨hE, hio, hall, h⟩ | ⟨hE, hio, hro, hall, h⟩ |
    ⟨hE, hmod, hd, h⟩ | ⟨hne, href, h⟩
  · refine iff_of_true (fun _ e' he' => by simp at he') fun hE => ?_
    obtain ⟨⟨first, rest, hnil, -⟩, -⟩ := hE
    cases hnil
  · refine iff_of_true (fun _ e' he' _ => .inl ⟨hop.trans hio, hall e' he'⟩) fun _ => ⟨?_, ?_⟩
    · rintro (rfl | rfl) <;> cases hio
    · exact fun hne => absurd hio hne
  · have hact := hq.all_active_of_ends hE
    have he := hactive (by rw [hst, h])
    constructor
    · intro hcomp _
      refine ⟨fun _ hm => absurd (hro.symm.trans hm) (by simp), fun _ _ _ e' he' hm => ?_⟩
      obtain ⟨h1, -⟩ | ⟨-, h2⟩ | ⟨h1, h2⟩ := hcomp he e' he' (hact e' he')
      · exact absurd (hop ▸ h1) hio
      · rw [hm] at h2
        cases h2
      · exact ⟨hop ▸ h1, h2⟩
    · intro hgood _ e' he' _
      cases hm : e'.declared with
      | readonly => exact .inr (.inl ⟨hdecl.trans hro, hm⟩)
      | modify =>
        obtain ⟨h1, h2⟩ := (hgood hE).2 hio hro hall e' he' hm
        exact .inr (.inr ⟨hop ▸ h1, h2⟩)
  · have hact := hq.all_active_of_ends hE
    have he := hactive (by rw [hst, h])
    have hio : op ≠ .io := by rintro rfl; cases hd <;> contradiction
    constructor
    · intro hcomp _
      refine ⟨fun _ _ e' he' => ?_, fun _ hr => absurd (hmod.symm.trans hr) (by simp)⟩
      obtain ⟨h1, -⟩ | ⟨h1, -⟩ | ⟨-, h2⟩ := hcomp he e' he' (hact e' he')
      · exact absurd (hop ▸ h1) hio
      · rw [hdecl, hmod] at h1
        cases h1
      · exact h2
    · intro hgood _ e' he' _
      exact .inr (.inr ⟨hop ▸ hd, (hgood hE).1 hd hmod e' he'⟩)
  · refine iff_of_true (fun he => ?_) fun hE => ?_
    · rw [Element.not_active_of_queued (by rw [hst, h])] at he
      cases he
    · obtain ⟨h1, h2, h3⟩ := href hE
      refine ⟨fun hd hm => ?_, fun hio hr hall => ?_⟩
      · have hio : op ≠ .io := by rintro rfl; cases hd <;> contradiction
        exact absurd hd (h3 hio hm)
      · obtain ⟨e', he', hm⟩ := h2 hio hr
        rw [hall e' he'] at hm
        cases hm

/-! ## Requests that are woken -/

theorem of_mem_take_takeWhile {p : Element → Bool}
    (he : e ∈ q.take (q.takeWhile p).length) : p e = true := by
  rw [← prefix_iff_eq_take.mp ( takeWhile_prefix p)] at he
  exact mem_takeWhile_imp he

theorem woken_together (b : Bool) (q : List Element) :
    (∀ e ∈ q.take (woken b q), e.op = .io) ∨ (∀ e ∈ q.take (woken b q), e.accessType = .readonly) ∨
      woken b q ≤ 1 := by
  cases q with
  | nil => exact .inr (.inr (Nat.zero_le 1))
  | cons next rest =>
    simp only [woken]
    split
    · exact .inr (.inr (Nat.zero_le 1))
    · split
      · rename_i hio
        refine .inl fun e he => ?_
        rw [take_succ_cons, mem_cons] at he
        obtain rfl | he := he
        · exact hio
        · simpa using of_mem_take_takeWhile he
      · split
        · rename_i hro
          refine .inr (.inl fun e he => ?_)
          rw [take_succ_cons, mem_cons] at he
          obtain rfl | he := he
          · exact hro.2
          · simpa using of_mem_take_takeWhile he
        · exact .inr (.inr (Nat.le_refl 1))

variable {n : Nat}

/-- Requests that have waited and are woken together may run together: what a queued request
is marked as is what it was declared as. -/
theorem compatible_of_woken {b : Bool} (hwf : s.Wf) (hl : Labelled s)
    (hn : n = 0 ∨ n = woken b (without id (s.reqSchedTable h)))
    (he : e ∈ (without id (s.reqSchedTable h)).take n)
    (he' : e' ∈ (without id (s.reqSchedTable h)).take n) (hne : e.id ≠ e'.id) :
    Compatible e e' := by
  obtain rfl | rfl := hn
  · cases he
  · have hro : ∀ {e}, e ∈ (without id (s.reqSchedTable h)).take
        (woken b (without id (s.reqSchedTable h))) → e.accessType = e.declared := by
      intro e he
      exact hl h e (Wf.of_mem_woken he).1 ((hwf.blocks h).woken_queued e he)
    obtain hio | hall | hone := woken_together b (without id (s.reqSchedTable h))
    · exact .inl ⟨hio e he, hio e' he'⟩
    · exact .inr (.inl ⟨hro he ▸ hall e he, hro he' ▸ hall e' he'⟩)
    · -- one at most is woken, so the two are the same
      have hlen := (length_take_le _ (without id (s.reqSchedTable h))).trans hone
      obtain ⟨i, hi, rfl⟩ := getElem_of_mem he
      obtain ⟨j, hj, rfl⟩ := getElem_of_mem he'
      have hij : i = j := by omega
      subst hij
      exact absurd rfl hne

theorem NoConflict.leaveQueue {b : Bool} (hwf : s.Wf) (hl : Labelled s)
    (hs : NoConflict s) (hh : s.listHead id = some h)
    (hn : n = 0 ∨ n = woken b (without id (s.reqSchedTable h))) :
    NoConflict (leaveQueue s h id n) := by
  -- where somebody has been woken, whoever was not is still waiting
  have hwaits : ∀ {e e'}, e ∈ (without id (s.reqSchedTable h)).take n → e' ∈ s.reqSchedTable h →
      e'.id ≠ id → e'.active = false := by
    intro e e' he he' hne
    obtain rfl | rfl := hn
    · cases he
    · have hpos : 0 < woken b (without id (s.reqSchedTable h)) := by
        by_contra hzero
        rw [Nat.eq_zero_of_not_pos hzero] at he
        cases he
      exact Element.not_active_of_queued
        ((hwf.blocks h).all_queued_of_woken hpos e' (mem_without.mpr ⟨he', hne⟩))
  intro h' e1' he1' e2' he2' hne hact1 hact2
  obtain ⟨e1, he1, hid1, hor1⟩ := hwf.of_mem_leaveQueue hh he1'
  obtain ⟨e2, he2, hid2, hor2⟩ := hwf.of_mem_leaveQueue hh he2'
  obtain ⟨rfl, rfl, htake1⟩ | ⟨rfl, -⟩ := hor1
  · obtain ⟨rfl, -, htake2⟩ | ⟨rfl, -⟩ := hor2
    · have hcomp : Compatible e1 e2 := compatible_of_woken hwf hl hn htake1 htake2 hne
      exact hcomp
    · rw [hwaits htake1 he2 hid2] at hact2
      cases hact2
  · obtain ⟨rfl, rfl, htake2⟩ | ⟨rfl, -⟩ := hor2
    · rw [hwaits htake2 he1 hid1] at hact1
      cases hact1
    · exact hs h' e1' he1 e2' he2 hne hact1 hact2

theorem NoConflict.letRoll (hs : NoConflict s)
    (hact : ∀ h, ∀ e' ∈ s.reqSchedTable h, e'.id = e.id → e'.active = true) :
    NoConflict (letRoll s e) := by
  -- the same requests as before, and those that run now ran or could run before
  have hold : ∀ {h e'}, e' ∈ (Server.letRoll s e).reqSchedTable h → e'.active = true →
      ∃ e0 ∈ s.reqSchedTable h, e0.active = true ∧ e'.id = e0.id ∧ e'.op = e0.op ∧
        e'.declared = e0.declared := by
    intro h e' he' hact'
    obtain ⟨e0, he0, ⟨hid, rfl⟩ | ⟨-, rfl⟩⟩ := mem_roll he'
    · exact ⟨e0, he0, hact h e0 he0 hid, rfl, rfl, rfl⟩
    · exact ⟨e', he0, hact', rfl, rfl, rfl⟩
  intro h e1' he1' e2' he2' hne hact1 hact2
  obtain ⟨e1, he1, ha1, hid1, hop1, hd1⟩ := hold he1' hact1
  obtain ⟨e2, he2, ha2, hid2, hop2, hd2⟩ := hold he2' hact2
  have hcomp := hs h e1 he1 e2 he2 (by rw [← hid1, ← hid2]; exact hne) ha1 ha2
  simpa only [Compatible, hop1, hop2, hd1, hd2] using hcomp

/-! ## Whole runs -/

theorem Labelled.enter (hl : Labelled s) : Labelled (enqueue s (newElement s op h a)) := by
  intro h' e' he' hst
  obtain he' | ⟨-, rfl⟩ := of_mem_enqueue he'
  · exact hl h' e' he' hst
  · rcases admission_cases op a (s.reqSchedTable h) with ⟨-, heq⟩ | ⟨-, -, -, heq⟩ |
      ⟨-, -, -, -, heq⟩ | ⟨-, -, -, heq⟩ | ⟨-, -, heq⟩
    all_goals simp [newElement, heq] at hst ⊢

theorem Labelled.leaveQueue (hwf : s.Wf) (hl : Labelled s) (hh : s.listHead id = some h) :
    Labelled (leaveQueue s h id n) := by
  intro h' e' he' hst
  obtain ⟨e, he, -, ⟨rfl, -⟩ | ⟨rfl, -⟩⟩ := hwf.of_mem_leaveQueue hh he'
  · cases hst
  · exact hl h' e' he hst

theorem Labelled.letRoll (hl : Labelled s) : Labelled (letRoll s e) := by
  intro h e' he' hst
  obtain ⟨e0, he0, ⟨-, rfl⟩ | ⟨-, rfl⟩⟩ := mem_roll he'
  · cases hst
  · exact hl h e' he0 hst

theorem keeps_labelled : Keeps (fun s => s.Wf ∧ Labelled s) (fun _ _ _ => True)
    (fun _ => True) := by
  apply keeps_of_table
  · intro s s' hl htable h e he
    exact hl h e (htable ▸ he)
  · exact fun op h a _ hl _ => hl.enter
  · exact fun hwf hl _ _ hh _ => hl.leaveQueue hwf hh
  · exact fun _ hl _ => hl.letRoll

theorem noConflict_enter (hwf : s.Wf) (hs : NoConflict s) :
    NoConflict (enqueue s (newElement s op h a)) ↔ GoodCompany op a (s.reqSchedTable h) := by
  rw [noConflict_enqueue hs fun e' he' heq => Nat.ne_of_lt (hwf.fresh h e' he').2 heq]
  exact compatible_iff_goodCompany (hwf.blocks h) rfl rfl rfl

def EntersInGoodCompany (s : Scheduler) (c : Call) (_ : Element) : Prop :=
  ∀ op h a, c = .post op h a .schedule → GoodCompany op a (s.reqSchedTable h)

/-- **Only posts can bring conflicts.** -/
theorem keeps_noConflict :
    Keeps (fun s => s.Wf ∧ Labelled s ∧ NoConflict s) EntersInGoodCompany
      (fun _ => True) := by
  apply keeps_of_table
  · intro s s' hs htable
    refine ⟨fun h e he => hs.1 h e (htable ▸ he), fun h e he e' he' => ?_⟩
    exact hs.2 h e (htable ▸ he) e' (htable ▸ he')
  · exact fun op h a hwf hs hR => ⟨hs.1.enter, (noConflict_enter hwf hs.2).mpr (hR op h a rfl)⟩
  · intro s c id e h n hwf hs he hR hh hn
    refine ⟨hs.1.leaveQueue hwf hh, ?_⟩
    obtain rfl | ⟨b, rfl⟩ := hn
    · exact hs.2.leaveQueue (b := true) hwf hs.1 hh (.inl rfl)
    · exact hs.2.leaveQueue hwf hs.1 hh (.inr rfl)
  · exact fun _ hs hact => ⟨hs.1.letRoll, hs.2.letRoll hact⟩

theorem wf_labelled_start : reqSchedInitialize.Wf ∧ Labelled reqSchedInitialize :=
  ⟨wf_start, fun h e he => by cases he⟩

theorem noConflict_callStep {c : Call} (hI : s.Wf ∧ Labelled s) (hs : NoConflict s)
    (hc : callStep s c = some s') : NoConflict s' ↔ PostsInGoodCompany s c := by
  obtain ⟨⟨ids, s1⟩, hcall, rfl⟩ := Option.map_eq_some_iff.mp hc
  constructor
  · intro hs'
    cases c with
    | post op h a p =>
      cases p with
      | schedule =>
        intro ht
        simp only [Scheduler.call, reqSchedPost, ht, Bool.false_eq_true, if_false, Option.some.injEq,
          Prod.mk.injEq] at hcall
        obtain ⟨-, rfl⟩ := hcall
        exact (noConflict_enter hI.1 hs).mp hs'
      | bypass => trivial
    | postTimer | changeMode | unpost | release | test | testsome | testworld => trivial
  · intro hgood
    refine (keeps_noConflict.call ⟨hI.1, hI.2, hs⟩ ?_ ?_ (fun _ _ => trivial) hcall).2.2
    · rintro op h a rfl ht op' h' a' hpost
      cases hpost
      exact hgood ht
    · intro id e hid _ op h a hpost
      subst hpost
      obtain hid | ⟨hid, -⟩ := hid <;> cases hid

/-- **Requests that run together on a handle are compatible, throughout a run, just when every
request posted in it is in good company.** -/
theorem noConflict_iff_posts (calls : List Call) :
    Throughout callStep NoConflict reqSchedInitialize calls ↔
      EachStep callStep PostsInGoodCompany reqSchedInitialize calls := by
  apply throughout_iff_eachStep
  · intro s c s' hs hc
    obtain ⟨⟨ids, s₁⟩, hcall, rfl⟩ := Option.map_eq_some_iff.mp hc
    exact keeps_labelled.call hs (fun _ _ _ _ _ => trivial) (fun _ _ _ _ => trivial)
      (fun _ _ => trivial) hcall
  · exact fun s c s' hI hs hc => noConflict_callStep hI hs hc
  · exact wf_labelled_start
  · exact fun h e he => by cases he

/-- A directory entry is created on handle 5 while the attributes of handle 5 are being set. -/
theorem crdirent_beside_setattr :
    ¬ Throughout callStep NoConflict reqSchedInitialize
      [.post .setattr 5 .modify .schedule, .post .crdirent 5 .modify .schedule] := by
  intro hrun
  have hcomp := hrun.last rfl 5 _ (List.Mem.head _) _ (List.Mem.tail _ (List.Mem.head _))
    (by decide) rfl rfl
  obtain ⟨hio, -⟩ | ⟨hro, -⟩ | ⟨hd | hd, -⟩ := hcomp
  · cases hio
  · cases hro
  · cases hd
  · cases hd

end Pvfs.Server
