import Pvfs.Server.Scheduler

/-! # One queue of the scheduler

What the scheduler does to the queue of one handle, as facts about lists of elements: who
is let in at the end, who is woken at the front when a request leaves, and that both keep
the shape of the queue, the requests that run before the ones that wait. -/

namespace Pvfs.Server

open Scheduler List Server Element

/-! ## The shape of a queue -/

/-- Requests that run or may run, then requests that wait, and none waits without cause. -/
def Blocks (q : List Element) : Prop :=
  ∃ run wait, q = run ++ wait ∧ (∀ e ∈ run, e.active = true) ∧ (∀ e ∈ wait, e.state = .queued) ∧
    (run = [] → wait = [])

variable {e : Element}

theorem Element.not_active_of_queued (h : e.state = .queued) : e.active = false := by
  simp [active, h]

theorem active_withState_ready (e : Element) : (e.withState .readyToSchedule).active = true := rfl

theorem Blocks.nil : Blocks [] := ⟨[], [], rfl, by simp, by simp, fun _ => rfl⟩

variable {q : List Element}

theorem Blocks.append_queued (hq : Blocks q) (hne : q ≠ []) (he : e.state = .queued) :
    Blocks (q ++ [e]) := by
  obtain ⟨run, wait, rfl, hrun, hwait, hnone⟩ := hq
  refine ⟨run, wait ++ [e], by simp, hrun, ?_, ?_⟩
  · intro e' he'
    rw [mem_append, mem_singleton] at he'
    obtain he' | rfl := he'
    · exact hwait e' he'
    · exact he
  · intro hnil
    exact absurd (by simp [hnil, hnone hnil]) hne

theorem Blocks.all_active (hq : Blocks (q ++ [e])) (he : e.active = true) :
    ∀ e' ∈ q ++ [e], e'.active = true := by
  obtain ⟨run, wait, heq, hrun, hwait, -⟩ := hq
  have hnil : wait = [] := by
    rcases eq_nil_or_concat wait with h | ⟨w, x, h⟩
    · exact h
    · rw [h, concat_eq_append, ← append_assoc] at heq
      have hlast : e = x := by simpa using (append_inj_right' heq rfl)
      have hx : x.state = .queued := hwait x (by simp [h])
      rw [hlast, not_active_of_queued hx] at he
      cases he
  rw [heq, hnil, append_nil]
  exact hrun

theorem Blocks.append_active (hq : ∀ e' ∈ q, e'.active = true) (he : e.active = true) :
    Blocks (q ++ [e]) := by
  refine ⟨q ++ [e], [], by simp, ?_, by simp, by simp⟩
  intro e' he'
  rw [mem_append, mem_singleton] at he'
  obtain he' | rfl := he'
  · exact hq e' he'
  · exact he

theorem Blocks.active_or_queued (hq : Blocks q) : ∀ e ∈ q, e.active = true ∨ e.state = .queued := by
  obtain ⟨run, wait, rfl, hrun, hwait, -⟩ := hq
  intro e he
  exact (mem_append.mp he).imp (hrun e) (hwait e)

variable {run wait : List Element}

theorem Blocks.wake {n : Nat} (hrun : ∀ e ∈ run, e.active = true)
    (hwait : ∀ e ∈ wait, e.state = .queued) (hzero : run ≠ [] → n = 0)
    (hpos : run = [] → wait ≠ [] → 0 < n) : Blocks (wake n (run ++ wait)) := by
  by_cases hr : run = []
  · subst hr
    refine ⟨(wait.take n).map (withState .readyToSchedule), wait.drop n, rfl, ?_, ?_, ?_⟩
    · intro e he
      obtain ⟨e0, -, rfl⟩ := mem_map.mp he
      exact active_withState_ready e0
    · exact fun e he => hwait e (mem_of_mem_drop he)
    · intro hnil
      by_contra hne
      have hw : wait ≠ [] := by rintro rfl; simp at hne
      have hn := hpos rfl hw
      simp [hw] at hnil
      omega
  · rw [hzero hr]
    exact ⟨run, wait, rfl, hrun, hwait, fun h => absurd h hr⟩

theorem Element.active_roll (id : ReqSchedId) (he : e.active = true) :
    (if e.id = id then e.withState .scheduled else e).active = true := by
  split
  · rfl
  · exact he

variable {id : ReqSchedId}

theorem Blocks.roll (hq : Blocks q) (hid : ∀ e ∈ q, e.id = id → e.active = true) :
    Blocks (roll id q) := by
  obtain ⟨run, wait, rfl, hrun, hwait, hnone⟩ := hq
  refine ⟨roll id run, roll id wait, by simp [roll], ?_, ?_, ?_⟩
  · intro e he
    obtain ⟨e0, he0, rfl⟩ := mem_map.mp he
    exact active_roll id (hrun e0 he0)
  · intro e he
    obtain ⟨e0, he0, rfl⟩ := mem_map.mp he
    have hne : e0.id ≠ id := by
      intro heq
      have hact := hid e0 (mem_append_right _ he0) heq
      rw [not_active_of_queued (hwait e0 he0)] at hact
      cases hact
    rw [if_neg hne]
    exact hwait e0 he0
  · intro h
    have : run = [] := by simpa [roll] using h
    simp [hnone this, roll]

/-! ## Who is woken -/

variable {b : Bool}

theorem woken_active (hrun : ∀ e ∈ run, e.active = true) (hne : run ≠ []) :
    woken b (run ++ wait) = 0 := by
  cases run with
  | nil => exact absurd rfl hne
  | cons e run => simp [woken, hrun e (by simp)]

theorem woken_pos (hwait : ∀ e ∈ q, e.state = .queued) (hne : q ≠ []) : 0 < woken b q := by
  cases q with
  | nil => exact absurd rfl hne
  | cons e q =>
    have he := not_active_of_queued (hwait e (by simp))
    simp only [woken, he, Bool.false_eq_true, if_false]
    split
    · omega
    · split <;> omega

theorem mem_without : e ∈ without id q ↔ e ∈ q ∧ e.id ≠ id := by simp [without]

theorem without_append (id : ReqSchedId) (q q' : List Element) :
    without id (q ++ q') = without id q ++ without id q' := filter_append q q'

theorem Blocks.leave (hq : Blocks q) :
    Blocks (Server.wake (woken b (without id q)) (without id q)) := by
  obtain ⟨run, wait, rfl, hrun, hwait, -⟩ := hq
  have hrun' : ∀ e ∈ without id run, e.active = true := fun e he => hrun e (mem_without.mp he).1
  have hwait' : ∀ e ∈ without id wait, e.state = .queued :=
    fun e he => hwait e (mem_without.mp he).1
  rw [without_append]
  refine Blocks.wake hrun' hwait' (fun hne => woken_active hrun' hne) ?_
  intro hnil hne
  rw [hnil]
  exact woken_pos hwait' hne

theorem Blocks.leave_waiting (hq : Blocks q) (hid : ∀ e ∈ q, e.id = id → e.state = .queued) :
    Blocks (Server.wake 0 (without id q)) := by
  obtain ⟨run, wait, rfl, hrun, hwait, hnone⟩ := hq
  have hkeep : without id run = run := by
    apply filter_eq_self.mpr
    intro e he
    have hne : e.id ≠ id := by
      intro heq
      have hact := hrun e he
      rw [not_active_of_queued (hid e (mem_append_left _ he) heq)] at hact
      cases hact
    simpa using hne
  rw [without_append, hkeep]
  refine Blocks.wake hrun (fun e he => hwait e (mem_without.mp he).1) (fun _ => rfl) ?_
  intro hnil hne
  exact absurd (by rw [hnone hnil]; rfl) hne

theorem Blocks.all_queued_of_woken (hq : Blocks q) (hpos : 0 < woken b (without id q)) :
    ∀ e ∈ without id q, e.state = .queued := by
  obtain ⟨run, wait, rfl, hrun, hwait, -⟩ := hq
  have hrun' : ∀ e ∈ without id run, e.active = true := fun e he => hrun e (mem_without.mp he).1
  rw [without_append] at hpos ⊢
  by_cases hnil : without id run = []
  · rw [hnil]
    exact fun e he => hwait e (mem_without.mp he).1
  · rw [woken_active hrun' hnil] at hpos
    exact absurd hpos (Nat.lt_irrefl 0)

theorem Blocks.woken_queued (hq : Blocks q) :
    ∀ e ∈ (without id q).take (woken b (without id q)), e.state = .queued := by
  intro e he
  refine hq.all_queued_of_woken (b := b) ?_ e (mem_of_mem_take he)
  by_contra hzero
  rw [Nat.eq_zero_of_not_pos hzero] at he
  cases he

/-! ## Who is let in -/

def EndsScheduled (q : List Element) : Prop :=
  (∃ first rest, q = first :: rest ∧ first.state = .scheduled) ∧
    ∃ q' last, q = q' ++ [last] ∧ last.state = .scheduled

theorem endsScheduled_cons (next : Element) (rest : List Element) :
    EndsScheduled (next :: rest) ↔
      next.state = .scheduled ∧ (rest.getLastD next).state = .scheduled := by
  have hlast : ∀ q' last, next :: rest = q' ++ [last] → rest.getLastD next = last := by
    intro q' last hq
    have := congrArg List.getLast? hq
    rwa [getLast?_concat, getLast?_cons, ← getLastD_eq_getLast?,
      Option.some.injEq] at this
  constructor
  · rintro ⟨⟨first, rest', hq, hfirst⟩, q', last, hq', hst⟩
    cases hq
    exact ⟨hfirst, by rw [hlast q' last hq']; exact hst⟩
  · rintro ⟨hfirst, hst⟩
    refine ⟨⟨next, rest, rfl, hfirst⟩, ?_⟩
    rcases eq_nil_or_concat (next :: rest) with h | ⟨q', last, h⟩
    · cases h
    · rw [concat_eq_append] at h
      exact ⟨q', last, h, by rw [← hlast q' last h]; exact hst⟩

/-- Looking at a queue from both ends: a request that is not let in at once finds somebody
waiting, or somebody it may not run beside. -/
def Refused (op : ServerOp) (a : AccessType) (q : List Element) : Prop :=
  EndsScheduled q → (op = .io → ∃ e ∈ q, e.op ≠ .io) ∧
    (op ≠ .io → a = .readonly → ∃ e ∈ q, e.accessType = .modify) ∧
    (op ≠ .io → a = .modify → ¬ (op = .crdirent ∨ op = .rmdirent))

theorem admission_cases (op : ServerOp) (a : AccessType) (q : List Element) :
    (q = [] ∧ admission op a q = (.scheduled, a)) ∨
    (EndsScheduled q ∧ op = .io ∧ (∀ e ∈ q, e.op = .io) ∧ admission op a q = (.scheduled, a)) ∨
    (EndsScheduled q ∧ op ≠ .io ∧ a = .readonly ∧ (∀ e ∈ q, e.accessType = .readonly) ∧
      admission op a q = (.scheduled, a)) ∨
    (EndsScheduled q ∧ a = .modify ∧ (op = .crdirent ∨ op = .rmdirent) ∧
      admission op a q = (.scheduled, .readonly)) ∨
    (q ≠ [] ∧ Refused op a q ∧ admission op a q = (.queued, a)) := by
  cases q with
  | nil => exact .inl ⟨rfl, rfl⟩
  | cons next rest =>
    refine .inr ?_
    by_cases hE : EndsScheduled (next :: rest)
    · have hends := (endsScheduled_cons next rest).mp hE
      simp only [admission, hends, and_self, and_true]
      by_cases hio : op = .io
      · by_cases hall : ∀ e ∈ next :: rest, e.op = .io
        · refine .inl ⟨hE, hio, hall, ?_⟩
          have : (next :: rest).all (fun e => e.op = .io) = true := by simpa using hall
          simp [hio, this]
        · refine .inr (.inr (.inr ⟨by simp, fun _ => ⟨?_, ?_, ?_⟩, ?_⟩))
          · intro _
            by_contra hnone
            exact hall fun e he => by_contra fun hne => hnone ⟨e, he, hne⟩
          · exact fun h => absurd hio h
          · exact fun h => absurd hio h
          · have : ¬ (next :: rest).all (fun e => e.op = .io) = true := by simpa using hall
            simp [hio, this]
      · cases a with
        | readonly =>
          by_cases hany : ∃ e ∈ next :: rest, e.accessType = .modify
          · refine .inr (.inr (.inr ⟨by simp, fun _ => ⟨?_, ?_, ?_⟩, ?_⟩))
            · exact fun h => absurd h hio
            · exact fun _ _ => hany
            · exact fun _ h => by cases h
            · have : (next :: rest).any (fun e => e.accessType = .modify) = true := by
                simpa using hany
              simp [hio, this]
          · refine .inr (.inl ⟨hE, hio, rfl, ?_, ?_⟩)
            · intro e he
              cases hac : e.accessType with
              | readonly => rfl
              | modify => exact absurd ⟨e, he, hac⟩ hany
            · have : ¬ (next :: rest).any (fun e => e.accessType = .modify) = true := by
                simpa using hany
              simp [hio, this]
        | modify =>
          by_cases hd : op = .crdirent ∨ op = .rmdirent
          · refine .inr (.inr (.inl ⟨hE, rfl, hd, ?_⟩))
            simp [hio, hd]
          · refine .inr (.inr (.inr ⟨by simp, fun _ => ⟨?_, ?_, ?_⟩, ?_⟩))
            · exact fun h => absurd h hio
            · exact fun _ h => by cases h
            · exact fun _ _ => hd
            · simp [hio, hd]
    · refine .inr (.inr (.inr ⟨by simp, fun h => absurd h hE, ?_⟩))
      rw [endsScheduled_cons] at hE
      simp only [admission, hE, and_false, if_false]

theorem Blocks.all_active_of_ends (hq : Blocks q) (hE : EndsScheduled q) :
    ∀ e ∈ q, e.active = true := by
  obtain ⟨-, q', last, rfl, hlast⟩ := hE
  exact hq.all_active (by simp [active, hlast])

theorem Blocks.admission {op : ServerOp} {a : AccessType} (hq : Blocks q)
    (he : e.state = (admission op a q).1) : Blocks (q ++ [e]) := by
  have hactive : e.state = .scheduled → e.active = true := fun h => by simp [active, h]
  rcases admission_cases op a q with ⟨rfl, h⟩ | ⟨hE, -, -, h⟩ | ⟨hE, -, -, -, h⟩ | ⟨hE, -, -, h⟩ |
    ⟨hne, -, h⟩
  · exact Blocks.append_active (by simp) (hactive (by rw [he, h]))
  · exact Blocks.append_active (hq.all_active_of_ends hE) (hactive (by rw [he, h]))
  · exact Blocks.append_active (hq.all_active_of_ends hE) (hactive (by rw [he, h]))
  · exact Blocks.append_active (hq.all_active_of_ends hE) (hactive (by rw [he, h]))
  · exact hq.append_queued hne (by rw [he, h])

/-! ## How the elements of a queue change -/

variable {e' : Element}

theorem mem_wake {n : Nat} (h : e' ∈ wake n q) :
    (∃ e ∈ q.take n, e' = e.withState .readyToSchedule) ∨ e' ∈ q.drop n := by
  rw [wake, mem_append, mem_map] at h
  exact h.imp_left fun ⟨e, he, heq⟩ => ⟨e, he, heq.symm⟩

theorem map_id_wake (n : Nat) (q : List Element) :
    (wake n q).map Element.id = q.map Element.id := by
  rw [wake, map_append, map_map]
  have : (Element.id ∘ Element.withState .readyToSchedule) = Element.id := rfl
  rw [this, ← map_append, take_append_drop]

theorem mem_roll (h : e' ∈ roll id q) :
    ∃ e ∈ q, (e.id = id ∧ e' = e.withState .scheduled) ∨ (e.id ≠ id ∧ e' = e) := by
  obtain ⟨e, he, rfl⟩ := mem_map.mp h
  by_cases hid : e.id = id
  · exact ⟨e, he, .inl ⟨hid, by rw [if_pos hid]⟩⟩
  · exact ⟨e, he, .inr ⟨hid, by rw [if_neg hid]⟩⟩

theorem map_id_roll (id : ReqSchedId) (q : List Element) :
    (roll id q).map Element.id = q.map Element.id := by
  rw [roll, map_map]
  apply map_congr_left
  intro e _
  by_cases hid : e.id = id <;> simp [hid, withState]

end Pvfs.Server
