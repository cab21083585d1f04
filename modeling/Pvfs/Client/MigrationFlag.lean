import Pvfs.Client.IoMachine

/-! # Who starts again after a migration

An operation that a server has refused because its datafile is migrating should start again
with fresh attributes, and no other operation should. The refusal is noted in a flag of
the whole process, and it is taken by the first operation that analyses its results: if
that is another one, it starts again for nothing, and the refused operation ends as if all
had gone well. -/

namespace Pvfs.Client

open Lib List IoProcess

variable {s s' : IoProcess} {k : Nat} {op op' : IoOp}

/-- The analysis is right: a refused operation starts again, with its attributes thrown out of
the cache, and one that was not refused does not start again because of a migration. -/
structure Analysis.Right (a : Analysis) : Prop where
  refused : a.refused = true → a.outcome = .migration ∧ a.cached = false
  accepted : a.refused = false → a.outcome ≠ .migration

def AnalysesRight (s : IoProcess) : Prop := ∀ a ∈ s.analyses, a.Right

/-- Operation `j` has been refused and has not come to its analysis. -/
def Refused (s : IoProcess) (j : Nat) : Prop := ∃ op, s.ops[j]? = some op ∧ op.refused = true

/-- No operation analyses its results while another one has been refused. -/
def AnalysedAlone (s : IoProcess) : IoEvent → Prop
  | .analyze k => ∀ j, j ≠ k → ¬ Refused s j
  | _ => True

/-! ## What the flag says -/

/-- The flag is set just when some operation has been refused, and a context remembers a
refusal only if its operation does. -/
structure FlagSound (s : IoProcess) : Prop where
  flag : s.migrationAtServerFlag = true ↔ ∃ j, Refused s j
  status : ∀ op ∈ s.ops, ∀ c ∈ op.contexts, c.opStatus = -1 → op.refused = true

theorem refused_set (hk : s.ops[k]? = some op) (hops : s'.ops = s.ops.set k op') (j : Nat) :
    Refused s' j ↔ if j = k then op'.refused = true else Refused s j := by
  simp only [Refused, hops]
  exact exists_set_iff hk j

theorem FlagSound.set (hs : FlagSound s) (hk : s.ops[k]? = some op)
    (hops : s'.ops = s.ops.set k op') (hflag : s'.migrationAtServerFlag = s.migrationAtServerFlag)
    (hrefused : op'.refused = op.refused)
    (hstatus : ∀ c ∈ op'.contexts, c.opStatus = -1 → op'.refused = true) : FlagSound s' where
  flag := by
    rw [hflag, hs.flag]
    refine exists_congr fun j => ?_
    rw [refused_set hk hops]
    split
    · rename_i hjk
      rw [hrefused, hjk]
      exact ⟨fun ⟨u, hu, h⟩ => by rw [hk] at hu; cases hu; exact h, fun h => ⟨op, hk, h⟩⟩
    · rfl
  status := by
    intro u hu
    rw [hops] at hu
    obtain hu | rfl := mem_or_eq_of_mem_set hu
    · exact hs.status u hu
    · exact hstatus

theorem opStatus_post {c : IoContext} {p : Posting} (h : (c.post p).opStatus = -1) :
    c.opStatus = -1 := by
  unfold IoContext.post at h
  dsimp only at h
  -- an error of the send is a code of PVFS
  have hcode : ∀ code : Nat, -(pvfsErrorBit + code) ≠ -1 := by
    intro code
    unfold pvfsErrorBit
    omega
  split at h
  · exact h
  · next c' hposted =>
    have hc' : c'.opStatus = c.opStatus := by
      split_ifs at hposted <;> cases hposted <;> rfl
    rw [← hc']
    split at h
    · exact h
    · split at h
      · exact absurd h (hcode _)
      · exact h
      · exact h

theorem opStatus_process (c : IoContext) (error : Int) (answer : Answer) (ackPosted flowPosted : Bool) :
    let c' := (ioProcessContextRecv c error answer).2
    let refuses := (Completion.recv error answer ackPosted flowPosted).refuses
    (c'.opStatus = -1 → c.opStatus = -1 ∨ refuses = true) ∧ (refuses = true → c'.opStatus = -1) := by
  unfold ioProcessContextRecv Completion.refuses
  by_cases herror : error = 0
  · cases answer with
    | undecodable e => simp [herror]
    | status st =>
      refine ⟨fun h => .inr ?_, fun h => ?_⟩
      · simpa [herror] using h
      · simpa [herror] using h
  · simp [herror]

variable {done : Completion}

theorem complete_flag {c c' : IoContext} {ioType : IoType} {retryCount retryCount' retryLimit : Nat}
    {flag flag' : Bool}
    (h : c.complete ioType retryCount retryLimit flag done = some (c', retryCount', flag')) :
    (flag = true ∨ done.refuses = true → flag' = true) ∧
      (flag' = true → flag = true ∨ done.refuses = true ∨ c.opStatus = -1) ∧
      (c'.opStatus = -1 → c.opStatus = -1 ∨ done.refuses = true) := by
  cases done with
  | send error =>
    simp only [IoContext.complete] at h
    split at h
    · cases h
      exact ⟨fun h => h.resolve_right (by simp [Completion.refuses]), .inl, .inl⟩
    · cases h
  | flow error transferred | writeAck error status total =>
    simp only [IoContext.complete] at h
    split_ifs at h <;> cases h <;>
      exact ⟨fun h => h.resolve_right (by simp [Completion.refuses]), .inl, .inl⟩
  | recv error answer ackPosted flowPosted =>
    simp only [IoContext.complete] at h
    obtain ⟨hold, hnew⟩ := opStatus_process { c with msgRecvInProgress := false, recvStatus := error }
      error answer ackPosted flowPosted
    revert h
    generalize ioProcessContextRecv { c with msgRecvInProgress := false, recvStatus := error } error
      answer = r at hold hnew ⊢
    obtain ⟨ret, c1⟩ := r
    intro h
    split_ifs at h with hin hbad hrefused hack hwrite hflow hflow
    · cases h
      refine ⟨fun _ => rfl, fun _ => ?_, hold⟩
      exact (hold hrefused).elim (fun h => .inr (.inr h)) fun h => .inr (.inl h)
    all_goals
      have hstatus : c1.opStatus ≠ -1 := by
        first | exact hrefused | exact fun h => hbad (.inr h)
      cases h
      exact ⟨fun h => h.resolve_right fun h => hstatus (hnew h), .inl, fun h => absurd h hstatus⟩

/-! ## Steps -/

theorem FlagSound.complete {i : Nat} {flag : Bool} (hs : FlagSound s)
    (hk : s.ops[k]? = some op)
    (h : ioDatafileCompleteOperations op s.migrationAtServerFlag i done = some (op', flag)) :
    FlagSound { s with migrationAtServerFlag := flag, ops := s.ops.set k op' } := by
  simp only [ioDatafileCompleteOperations, Option.bind_eq_some_iff, Option.map_eq_some_iff] at h
  obtain ⟨c, hc, ⟨c', retryCount, flag'⟩, hdone, heq⟩ := h
  obtain ⟨rfl, rfl⟩ := Prod.mk.inj heq
  obtain ⟨hup, hdown, hstatus⟩ := complete_flag hdone
  have hmem := mem_of_getElem? hk
  have hcmem := mem_of_getElem? hc
  -- the next step is chosen without touching either
  have hnext : ∀ o : IoOp, (o.checkNextStep done).refused = o.refused ∧
      (o.checkNextStep done).contexts = o.contexts := by
    intro o
    unfold IoOp.checkNextStep
    split
    · exact ⟨rfl, rfl⟩
    · split_ifs <;> exact ⟨rfl, rfl⟩
  refine ⟨?_, fun u hu => ?_⟩
  · constructor
    · intro hflag
      obtain h | h | h := hdown hflag
      · obtain ⟨j, hj⟩ := hs.flag.mp h
        refine ⟨j, (refused_set hk rfl j).mpr ?_⟩
        split
        · rename_i hjk
          subst hjk
          obtain ⟨u, hu, hr⟩ := hj
          rw [hk] at hu
          cases hu
          rw [(hnext _).1]
          exact Bool.or_eq_true_iff.mpr (.inl hr)
        · exact hj
      · refine ⟨k, (refused_set hk rfl k).mpr ?_⟩
        rw [if_pos rfl, (hnext _).1]
        exact Bool.or_eq_true_iff.mpr (.inr h)
      · refine ⟨k, (refused_set hk rfl k).mpr ?_⟩
        rw [if_pos rfl, (hnext _).1]
        exact Bool.or_eq_true_iff.mpr (.inl (hs.status op hmem c hcmem h))
    · rintro ⟨j, hj⟩
      rw [refused_set hk rfl] at hj
      split at hj
      · rw [(hnext _).1] at hj
        obtain hr | hr := Bool.or_eq_true_iff.mp hj
        · exact hup (.inl (hs.flag.mpr ⟨k, op, hk, hr⟩))
        · exact hup (.inr hr)
      · exact hup (.inl (hs.flag.mpr ⟨j, hj⟩))
  · obtain hu | rfl := mem_or_eq_of_mem_set hu
    · exact hs.status u hu
    · intro c1 hc1 h1
      rw [(hnext _).2] at hc1
      rw [(hnext _).1]
      obtain hc1 | rfl := mem_or_eq_of_mem_set hc1
      · exact Bool.or_eq_true_iff.mpr (.inl (hs.status op hmem c1 hc1 h1))
      · exact Bool.or_eq_true_iff.mpr
          ((hstatus h1).imp_left fun h => hs.status op hmem c hcmem h)

theorem ioAnalyzeContexts_spec (op : IoOp) :
    (ioAnalyzeContexts op).1 ≠ .migration ∧
      ((ioAnalyzeContexts op).2.contexts = [] ∨
        (ioAnalyzeContexts op).2.contexts = op.contexts) ∧
      ((ioAnalyzeContexts op).2.refused = true → op.refused = true) := by
  unfold ioAnalyzeContexts
  generalize (if op.cancelled = true then (-pvfsEcancel, op.totalSize)
    else ioCheckContexts op.ioType op.contexts op.totalSize) = r
  dsimp only
  split_ifs
  · exact ⟨by simp, .inr rfl, id⟩
  · exact ⟨by simp, .inl rfl, by simp⟩
  · exact ⟨by simp, .inr rfl, id⟩

theorem FlagSound.clear (hs : FlagSound s) (hk : s.ops[k]? = some op)
    (halone : ∀ j, j ≠ k → ¬ Refused s j) (hops : s'.ops = s.ops.set k op')
    (hflag : s'.migrationAtServerFlag = false) (hrefused : op'.refused = false)
    (hcontexts : ∀ c ∈ op'.contexts, c.opStatus ≠ -1) : FlagSound s' where
  flag := by
    rw [hflag]
    refine iff_of_false (by simp) ?_
    rintro ⟨j, hj⟩
    rw [refused_set hk hops] at hj
    split at hj
    · rw [hrefused] at hj
      cases hj
    · rename_i hjk
      exact halone j hjk hj
  status := by
    intro u hu
    rw [hops] at hu
    obtain hu | rfl := mem_or_eq_of_mem_set hu
    · exact hs.status u hu
    · exact fun c hc hst => absurd hst (hcontexts c hc)

theorem IoProcess.at_eq {f : IoOp → Option IoProcess}
    (h : (match s.ops[k]? with | none => none | some op => f op) = some s') :
    ∃ op, s.ops[k]? = some op ∧ f op = some s' := by
  split at h
  · cases h
  · exact ⟨_, ‹_›, h⟩

/-- **An analysis that no other refused operation is in the way of** is right. -/
theorem analyze_alone (hs : FlagSound s) (hright : AnalysesRight s)
    (halone : ∀ j, j ≠ k → ¬ Refused s j) (h : s.step (.analyze k) = some s') :
    FlagSound s' ∧ AnalysesRight s' := by
  simp only [step] at h
  obtain ⟨op, hk, h⟩ := at_eq h
  split at h
  · cases h
    -- the flag speaks of this operation alone
    have hown : s.migrationAtServerFlag = true ↔ op.refused = true := by
      rw [hs.flag]
      constructor
      · rintro ⟨j, hj⟩
        by_cases hjk : j = k
        · obtain ⟨u, hu, hr⟩ := hj
          rw [hjk, hk] at hu
          cases hu
          exact hr
        · exact absurd hj (halone j hjk)
      · exact fun hr => ⟨k, op, hk, hr⟩
    have hmem := mem_of_getElem? hk
    cases hflag : s.migrationAtServerFlag with
    | true =>
      refine ⟨hs.clear hk halone rfl rfl rfl (by simp [ioAnalyzeResults]), ?_⟩
      rintro a ha
      obtain rfl | ha := mem_cons.mp ha
      · refine ⟨fun _ => ⟨by simp [ioAnalyzeResults], by simp⟩, fun hr => ?_⟩
        rw [hown.mp hflag] at hr
        cases hr
      · exact hright a ha
    | false =>
      have hnot : op.refused = false := by
        rw [← Bool.not_eq_true, ← hown, hflag]
        exact Bool.noConfusion
      obtain ⟨houtcome, hcontexts, hrefused⟩ := ioAnalyzeContexts_spec op
      refine ⟨hs.clear hk halone rfl rfl ?_ fun c hc hst => ?_, ?_⟩
      · exact Bool.eq_false_iff.mpr fun hr => Bool.eq_false_iff.mp hnot (hrefused hr)
      · simp only [ioAnalyzeResults, Bool.false_eq_true, if_false] at hc
        obtain hnil | hsame := hcontexts
        · rw [hnil] at hc
          cases hc
        · rw [hsame] at hc
          exact Bool.eq_false_iff.mp hnot (hs.status op hmem c hc hst)
      · rintro a ha
        obtain rfl | ha := mem_cons.mp ha
        · refine ⟨fun hr => ?_, fun _ => ?_⟩
          · rw [hnot] at hr
            cases hr
          · simpa [ioAnalyzeResults] using houtcome
        · exact hright a ha
  · cases h

theorem IoProcess.update_eq {state : IoState} {f : IoOp → IoOp} (h : s.update k state f = some s') :
    ∃ op, s.ops[k]? = some op ∧ s' = { s with ops := s.ops.set k (f op) } := by
  obtain ⟨op, hk, h⟩ := at_eq h
  split at h
  · cases h
    exact ⟨op, hk, rfl⟩
  · cases h

/-- **One step** of a process where nobody analyses its results in the wrong company. -/
theorem flagSound_step {e : IoEvent} (hs : FlagSound s) (hright : AnalysesRight s)
    (halone : AnalysedAlone s e) (h : s.step e = some s') : FlagSound s' ∧ AnalysesRight s' := by
  cases e with
  | isysIo objectRef ioType retryLimit =>
    cases h
    refine ⟨⟨hs.flag.trans (exists_congr fun j => ?_), fun u hu => ?_⟩, hright⟩
    · exact (exists_append_iff (by simp [IoOp.posted]) j).symm
    · obtain hu | hu := mem_append.mp hu
      · exact hs.status u hu
      · rw [mem_singleton.mp hu]
        exact fun c hc => by cases hc
  | setup k targets =>
    obtain ⟨op, hk, h⟩ := at_eq h
    split at h
    · cases targets with
      | error error =>
        cases h
        exact ⟨hs.set hk rfl rfl rfl (hs.status op (mem_of_getElem? hk)), hright⟩
      | ok n =>
        cases h
        refine ⟨hs.set hk rfl rfl rfl fun c hc hst => ?_, hright⟩
        rw [eq_of_mem_replicate hc] at hst
        cases hst
    · cases h
  | post k ps =>
    obtain ⟨op, hk, rfl⟩ := update_eq h
    refine ⟨hs.set hk rfl rfl ?_ ?_, hright⟩
    · unfold ioDatafilePostMsgpairs
      split <;> rfl
    · unfold ioDatafilePostMsgpairs
      split
      · exact hs.status op (mem_of_getElem? hk)
      · intro c hc hst
        obtain ⟨i, hi, rfl⟩ := mem_mapIdx.mp hc
        exact hs.status op (mem_of_getElem? hk) _ (getElem_mem hi) (opStatus_post hst)
  | retry k =>
    obtain ⟨op, hk, rfl⟩ := update_eq h
    exact ⟨hs.set hk rfl rfl rfl (hs.status op (mem_of_getElem? hk)), hright⟩
  | complete k i done =>
    obtain ⟨op, hk, h⟩ := at_eq h
    split at h
    · obtain ⟨⟨op', flag⟩, hdone, rfl⟩ := Option.map_eq_some_iff.mp h
      exact ⟨hs.complete hk hdone, hright⟩
    · cases h
  | cancel k =>
    obtain ⟨op, hk, h⟩ := at_eq h
    cases h
    exact ⟨hs.set hk rfl rfl rfl (hs.status op (mem_of_getElem? hk)), hright⟩
  | analyze k => exact analyze_alone hs hright halone h

/-! ## Runs -/

/-- **Refused operations start again, and no others**, in every run in which no operation
analyses its results while another one has been refused. -/
theorem analysesRight_of_alone (events : List IoEvent)
    (halone : EachStep step AnalysedAlone .start events) :
    Throughout step AnalysesRight .start events := by
  have hinv : Throughout step (fun s => FlagSound s ∧ AnalysesRight s) .start events := by
    refine Throughout.of_eachStep (fun s e s' hs hc h => flagSound_step hs.1 hs.2 hc h) ?_ halone
    refine ⟨⟨iff_of_false (by simp [start]) ?_, fun u hu => by cases hu⟩,
      fun a ha => by cases ha⟩
    rintro ⟨j, u, hu, -⟩
    cases hu
  exact hinv.mono fun _ hs => hs.2

/-- A write to two servers, the first of which refuses it. -/
theorem analysesRight_of_alone_one :
    let events : List IoEvent := [.isysIo 7 .write 5, .setup 0 (.ok 2), .post 0 fun _ => .sentAtOnce,
      .complete 0 0 (.recv 0 (.status (-1)) true true),
      .complete 0 1 (.recv 0 (.status 0) true true), .complete 0 1 (.flow 0 100),
      .complete 0 1 (.writeAck 0 0 100), .analyze 0]
    EachStep step AnalysedAlone .start events ∧
      Throughout step AnalysesRight .start events := by
  intro events
  have halone : EachStep step AnalysedAlone .start events := by
    -- there is just one operation
    have hone : ∀ {s : IoProcess}, s.ops.length = 1 → ∀ j, j ≠ 0 → ¬ Refused s j := by
      intro s hlen j hj hr
      obtain ⟨op, hop, -⟩ := hr
      have hlt : j < s.ops.length := (List.getElem?_eq_some_iff.mp hop).1
      omega
    iterate 7 refine .cons rfl trivial ?_
    exact .cons rfl (hone rfl) trivial
  exact ⟨halone, analysesRight_of_alone events halone⟩

/-- Two writes, the first to two servers. One of those refuses it, and while it waits for the
other the second write ends well: the second starts again, and the first is done. -/
theorem refusal_taken_by_another : ∃ s, exec step .start
    [.isysIo 7 .write 5, .setup 0 (.ok 2), .post 0 fun _ => .sentAtOnce,
      .isysIo 8 .write 5, .setup 1 (.ok 1), .post 1 fun _ => .sentAtOnce,
      .complete 0 0 (.recv 0 (.status (-1)) true true),
      .complete 1 0 (.recv 0 (.status 0) true true), .complete 1 0 (.flow 0 50),
      .complete 1 0 (.writeAck 0 0 50), .analyze 1,
      .complete 0 1 (.recv 0 (.status 0) true true), .complete 0 1 (.flow 0 100),
      .complete 0 1 (.writeAck 0 0 100), .analyze 0] = some s ∧
    s.analyses = [⟨true, .finished 0, true⟩, ⟨false, .migration, false⟩] ∧
    ¬ AnalysesRight s := by
  refine ⟨_, rfl, rfl, fun hright => ?_⟩
  have hfirst := (hright _ mem_cons_self).refused rfl
  cases hfirst.1

end Pvfs.Client
