import Pvfs.Description.Chunks
import Pvfs.Description.Distribute

/-! # One call of request processing

The loop of `PINT_process_request` over the pending chunks. A call consumes a prefix of
the byte stream the pending chunks stand for and visits what the distribution finds visible
there. It ends because the window is exhausted, the budget is used up, or the file has
ended, and then the state it leaves represents exactly the rest of the stream. -/

namespace Pvfs.Description

open Pvfs.Lib List ProcLoop

/-! ## The byte stream of a list of chunks -/

/-- No chunk is empty. -/
def Positive (P : List (Int × Int)) : Prop := ∀ c ∈ P, 0 < c.2

variable {c : Int × Int} {P rest : List (Int × Int)}

theorem Positive.head (h : Positive (c :: P)) : 0 < c.2 :=
  h c mem_cons_self

theorem Positive.tail {c : Int × Int} {P : List (Int × Int)} (h : Positive (c :: P)) :
    Positive P := fun d hd => h d (mem_cons_of_mem _ hd)

theorem Positive.within (h : Positive (c :: P)) {n : Int} (hn : n < c.2) (offset : Int) :
    Positive ((offset, c.2 - n) :: P) := by
  refine forall_mem_cons.mpr ⟨?_, h.tail⟩
  show 0 < c.2 - n
  omega

theorem length_expand_cons (c : Int × Int) (P : List (Int × Int)) :
    (expand (c :: P)).length = c.2.toNat + (expand P).length := by
  rw [expand_cons, length_append, length_run]

theorem take_expand {m : Nat} (h : m ≤ c.2.toNat) : (expand (c :: P)).take m = run c.1 m := by
  rw [expand_cons, take_append_of_le_length (by simpa using h), take_run, Nat.min_eq_left h]

theorem drop_expand {m : Nat} (h : m ≤ c.2.toNat) :
    (expand (c :: P)).drop m = expand ((c.1 + m, c.2 - m) :: P) := by
  rw [expand_cons, drop_append_of_le_length (by simpa using h), drop_run]
  congr 2
  omega

theorem take_expand_add (P : List (Int × Int)) (m : Nat) :
    (expand (c :: P)).take (c.2.toNat + m) = run c.1 c.2.toNat ++ (expand P).take m := by
  rw [expand_cons, take_append, length_run, take_run, Nat.min_eq_right (by omega),
    Nat.add_sub_cancel_left]

theorem drop_expand_add (P : List (Int × Int)) (m : Nat) :
    (expand (c :: P)).drop (c.2.toNat + m) = (expand P).drop m := by
  rw [expand_cons, drop_append, length_run, drop_run, Nat.sub_eq_zero_of_le (by omega),
    Nat.add_sub_cancel_left]
  rfl

/-! ## Turns of the loop -/

namespace RequestState

/-- The window and the type of a request are unchanged. -/
structure SameWindow (req req' : RequestState) : Prop where
  targetOffset : req'.targetOffset = req.targetOffset
  finalOffset : req'.finalOffset = req.finalOffset
  rqbase : (req'.cur 0).rqbase = (req.cur 0).rqbase
  maxel : (req'.cur 0).maxel = (req.cur 0).maxel

variable {a b c : RequestState}

theorem SameWindow.trans (h : a.SameWindow b) (h' : b.SameWindow c) :
    a.SameWindow c :=
  ⟨h'.targetOffset.trans h.targetOffset, h'.finalOffset.trans h.finalOffset,
    h'.rqbase.trans h.rqbase, h'.maxel.trans h.maxel⟩

structure SameRun (req req' : RequestState) : Prop extends SameWindow req req' where
  bytes : req'.bytes = req.bytes
  typeOffset : req'.typeOffset = req.typeOffset
  eofFlag : req'.eofFlag = req.eofFlag

theorem SameRun.refl (req : RequestState) : SameRun req req := ⟨⟨rfl, rfl, rfl, rfl⟩, rfl, rfl, rfl⟩

theorem SameRun.trans (h : SameRun a b) (h' : SameRun b c) : SameRun a c :=
  ⟨h.toSameWindow.trans h'.toSameWindow, h'.bytes.trans h.bytes,
    h'.typeOffset.trans h.typeOffset, h'.eofFlag.trans h.eofFlag⟩

theorem SameRun.push (req : RequestState) (level : Reqstack) (h : 0 ≤ req.lvl) :
    SameRun req (req.push level) := by
  have hcur : (req.push level).cur 0 = req.cur 0 := Function.update_of_ne (by omega) _ _
  exact ⟨⟨rfl, rfl, by rw [hcur], by rw [hcur]⟩, rfl, rfl, rfl⟩

theorem SameRun.returnFromLevel (n : Nat) (req : RequestState) :
    SameRun { req with bytes := 0 } (req.returnFromLevel n) := by
  have hbot := returnFromLevel_bottom n req
  obtain ⟨cur, lvl, h⟩ := returnFromLevel_frame n req
  exact ⟨⟨by rw [h], by rw [h], hbot.1, hbot.2⟩, by rw [h], by rw [h], by rw [h]⟩

end RequestState

variable {ret : Int} {st : ProcLoop} {k : Int} {eof : Bool}

section
variable {dist : Nat → Int → Int → Shared → Mode → Option Distributed}

theorem settle (dist : Nat → Int → Int → Shared → Mode → Option Distributed) (d : Nat) :
    ∀ st : ProcLoop,
    ((st.req.cur 0).rqbase.depth : Int) - st.req.lvl ≤ d → st.req.Rep (c :: rest) →
    ∃ req lvlFlag, req.Ready c rest lvlFlag ∧ st.req.SameRun req ∧
      ∀ p, Leaves (processBody dist) { st with req := req } p → Leaves (processBody dist) st p := by
  induction d with
  | zero =>
    intro st hd hrep
    have h1 := hrep.top_depth
    have h2 := hrep.top_ok.wfbase.depth_pos
    omega
  | succ d ih =>
    intro st hd hrep
    cases hw : st.req.top.rqbase.isWhole with
    | true => exact ⟨st.req, true, hrep.ready_whole hw, .refl _, fun p hp => hp⟩
    | false =>
      cases hcg : st.req.top.rq.ereq.isContig with
      | true => exact ⟨st.req, false, hrep.ready_contig hw hcg, .refl _, fun p hp => hp⟩
      | false =>
        obtain ⟨hdec, hrep'⟩ := hrep.descend hw hcg
        have hsame := RequestState.SameRun.push st.req st.req.top.child hrep.lvl_nonneg
        obtain ⟨req, flag, hready, hrun, hgo⟩ :=
          ih { st with req := st.req.push st.req.top.child }
            (by
              simp only [hsame.rqbase]
              have : (st.req.push st.req.top.child).lvl = st.req.lvl + 1 := rfl
              omega)
            hrep'
        refine ⟨req, flag, hready, hsame.trans hrun, fun p hp => Leaves.turn (.always ?_) (hgo p hp)⟩
        intro fuel
        simp only [processBody, hdec]

variable {lvlFlag : Bool}
variable {sh : Shared}

theorem processBody_serve (st : ProcLoop)
    (hdec : st.req.decode = .chunk c.1 c.2 lvlFlag) (hskip : st.mode.logicalSkip = false)
    (hmem : st.mode.memreq = false) (hne : ret ≠ -1)
    (hd : Returns (dist · c.1
      (if st.req.typeOffset + c.2 > st.req.finalOffset then
        st.req.finalOffset - st.req.typeOffset else c.2) st.scratched st.mode) (.ret ret sh eof)) :
    Returns (processBody dist · st)
      (after { st with req := { st.req with eofFlag := eof }, sh := sh } ret c.2
        lvlFlag) := by
  refine hd.map fun fuel hf => ?_
  simp only [processBody, hdec, hskip, hmem, Bool.false_eq_true, if_false, hf, Option.map_some,
    if_neg hne]

theorem processBody_skip (dist : Nat → Int → Int → Shared → Mode → Option Distributed)
    (st : ProcLoop) (hdec : st.req.decode = .chunk c.1 c.2 lvlFlag)
    (hskip : st.mode.logicalSkip = true)
    (hret : (if st.req.typeOffset + c.2 ≥ st.req.targetOffset then
      st.req.targetOffset - st.req.typeOffset else c.2) = ret) (hsh : st.scratched = sh) :
    ∃ eof, Returns (processBody dist · st)
      (after { st with req := { st.req with eofFlag := eof }, sh := sh } ret c.2
        lvlFlag) := by
  refine ⟨decide (sh.rfdata.fsize ≤ st.req.typeOffset) && !sh.rfdata.extendFlag,
    .always fun fuel => ?_⟩
  subst hret hsh
  simp only [processBody, hdec, hskip, if_true]

theorem after_part {size : Int} (h : ret ≠ size) :
    st.after ret size lvlFlag =
      if st.mode.logicalSkip then
        .again { st with
          req := { st.req with
            typeOffset := st.req.typeOffset + ret, bytes := st.req.bytes + ret }
          mode := { st.mode with logicalSkip := false } }
      else .leave (.ret 0 { st.req with
        typeOffset := st.req.typeOffset + ret, bytes := st.req.bytes + ret } st.sh) := by
  simp only [ProcLoop.after]
  rw [if_pos h]

theorem after_whole (st : ProcLoop) (h : st.req.Ready c rest lvlFlag)
    (hb : st.sh.result.bytes ≤ st.sh.result.bytemax) (hs : st.sh.result.segs ≤ st.sh.result.segmax) :
    ∃ req, ({ st.req with typeOffset := st.req.typeOffset + c.2, bytes := 0 }).SameRun req ∧
      (rest = [] ∧ st.after c.2 c.2 lvlFlag = .leave (.ret 0 req st.sh) ∨
        req.Rep rest ∧ st.after c.2 c.2 lvlFlag =
          if st.sh.result.full st.mode then .leave (.ret 0 req st.sh)
          else if req.typeOffset ≥ req.finalOffset then .leave (.ret 0 req st.sh)
          else .again { st with req := req }) := by
  have hfin := h.finish { st.req with typeOffset := st.req.typeOffset + c.2 } rfl rfl
  simp only at hfin
  refine ⟨_, .returnFromLevel (if lvlFlag then st.req.lvl else st.req.lvl + 1).toNat
    { st.req with typeOffset := st.req.typeOffset + c.2 }, ?_⟩
  rcases hfin with ⟨hlvl, hrest⟩ | hrep
  · refine .inl ⟨hrest, ?_⟩
    simp only [ProcLoop.after]
    rw [if_neg (by simp), if_pos (by rw [hlvl]; decide)]
  · refine .inr ⟨hrep, ?_⟩
    have hlvl := hrep.lvl_nonneg
    have hfull : st.sh.result.full st.mode ↔
        st.sh.result.bytes = st.sh.result.bytemax ∨
        (st.mode.cksize = false ∧ st.sh.result.segs = st.sh.result.segmax) := by
      constructor <;> rintro (h | ⟨h, h'⟩)
      exacts [.inl (by omega), .inr ⟨h, by omega⟩, .inl (by omega), .inr ⟨h, by omega⟩]
    simp only [ProcLoop.after]
    rw [if_neg (by simp), if_neg (by omega)]
    simp only [hfull]

section
variable (c rest ret st dist) (sh : Shared) (req : RequestState)

/-- Where the loop stands after a turn that processed `ret` bytes of the first chunk. -/
inductive Turned : Prop where
  /-- the call ends inside the chunk -/
  | within (hne : ret ≠ c.2) (hrep : req.Rep ((c.1 + ret, c.2 - ret) :: rest))
    (hleave : Leaves (processBody dist) st (.ret 0 req sh))
  /-- it ends behind the chunk, together with the request, the budget or the window -/
  | ended (hret : ret = c.2) (hend : rest = [] ∨ req.Rep rest ∧
      (sh.result.full st.mode ∨ st.req.finalOffset ≤ st.req.typeOffset + c.2))
    (hleave : Leaves (processBody dist) st (.ret 0 req sh))
  /-- it goes on behind the chunk -/
  | again (hret : ret = c.2) (hrep : req.Rep rest) (hfull : ¬ sh.result.full st.mode)
    (hlt : st.req.typeOffset + c.2 < st.req.finalOffset)
    (hgo : ∀ p, Leaves (processBody dist) ⟨req, sh, st.mode⟩ p → Leaves (processBody dist) st p)

/-- What one turn of the loop has come to. -/
structure TurnsTo (eof : Bool) : Prop where
  same : st.req.SameWindow req
  typeOffset : req.typeOffset = st.req.typeOffset + ret
  eofFlag : req.eofFlag = eof
  turned : Turned c rest ret st dist sh req

end

variable (dist) in
theorem turn (hrep : st.req.Rep (c :: rest)) :
    ∃ req flag, req.decode = .chunk c.1 c.2 flag ∧ st.req.SameRun req ∧
      ∀ {ret : Int} {sh : Shared} {eof : Bool},
        Returns (processBody dist · { st with req := req })
          (after ⟨{ req with eofFlag := eof }, sh, st.mode⟩ ret c.2 flag) →
        (ret ≠ c.2 → st.mode.logicalSkip = false) →
        sh.result.bytes ≤ sh.result.bytemax ∧ sh.result.segs ≤ sh.result.segmax →
        ∃ req1, TurnsTo c rest ret st dist sh req1 eof := by
  obtain ⟨req, flag, hready, hrun, hgo⟩ := settle dist _ st (Int.self_le_toNat _) hrep
  refine ⟨req, flag, hready.decode, hrun, fun {ret sh eof} hturn hskip hb => ?_⟩
  by_cases hpart : ret = c.2
  · subst hpart
    obtain ⟨req1, hrun1, hafter⟩ :=
      after_whole ⟨{ req with eofFlag := eof }, sh, st.mode⟩ (hready.congr rfl rfl rfl) hb.1 hb.2
    have hto : req1.typeOffset = st.req.typeOffset + c.2 := by
      rw [hrun1.typeOffset, ← hrun.typeOffset]
    have hfi : req1.finalOffset = st.req.finalOffset := hrun1.finalOffset.trans hrun.finalOffset
    refine ⟨req1, hrun.toSameWindow.trans { hrun1.toSameWindow with }, hto, hrun1.eofFlag, ?_⟩
    rcases hafter with ⟨hnil, hleave⟩ | ⟨hrep1, hafter⟩
    · exact .ended rfl (.inl hnil) (hgo _ (Leaves.last (hleave ▸ hturn)))
    · rw [hafter, hto, hfi] at hturn
      by_cases hfull : sh.result.full st.mode
      · rw [if_pos hfull] at hturn
        exact .ended rfl (.inr ⟨hrep1, .inl hfull⟩) (hgo _ (Leaves.last hturn))
      · rw [if_neg hfull] at hturn
        by_cases hend : st.req.typeOffset + c.2 ≥ st.req.finalOffset
        · rw [if_pos hend] at hturn
          exact .ended rfl (.inr ⟨hrep1, .inr hend⟩) (hgo _ (Leaves.last hturn))
        · rw [if_neg hend] at hturn
          exact .again rfl hrep1 hfull (Int.not_le.mp hend)
            fun p hp => hgo p (Leaves.turn hturn hp)
  · rw [after_part hpart, if_neg (by simp [hskip hpart])] at hturn
    exact ⟨{ req with eofFlag := eof, typeOffset := req.typeOffset + ret, bytes := req.bytes + ret },
      { hrun.toSameWindow with },
      congrArg (· + ret) hrun.typeOffset, rfl,
      .within hpart (hready.within ret rfl rfl rfl) (hgo _ (Leaves.last hturn))⟩

theorem turn_serve (hrep : st.req.Rep (c :: rest)) (hskip : st.mode.logicalSkip = false)
    (hmem : st.mode.memreq = false) (hne : ret ≠ -1)
    (hd : Returns (dist · c.1
      (if st.req.typeOffset + c.2 > st.req.finalOffset then
        st.req.finalOffset - st.req.typeOffset else c.2) st.scratched st.mode) (.ret ret sh eof))
    (hb : sh.result.bytes ≤ sh.result.bytemax ∧ sh.result.segs ≤ sh.result.segmax) :
    ∃ req1, TurnsTo c rest ret st dist sh req1 eof := by
  obtain ⟨req, flag, hdec, hrun, hturn⟩ := turn dist hrep
  refine hturn (processBody_serve { st with req := req } hdec hskip hmem hne ?_) (fun _ => hskip) hb
  simpa only [scratched, hrun.typeOffset, hrun.targetOffset, hrun.finalOffset] using hd

end

/-! ## The loop over the pending chunks -/

/-- The regions handed to distribute, each with its position, when the window ends at `final`. -/
def Regions (Reg : Int → Int → Int → Prop) (final : Int) : Int → List (Int × Int) → Prop
  | _, [] => True
  | k, c :: rest =>
    (k < final → Reg k c.1 (if k + c.2 > final then final - k else c.2)) ∧
      Regions Reg final (k + c.2) rest

/-- What distribute does to the regions of a request, for the invariant `I v k sh` of the shared
data: bytes `v` have been visited, all of them at earlier positions than those of the region,
and the scratch entry stands at position `k`. -/
structure Serves (mode : Mode) (rf : RequestFileData) (limit target : Int)
    (Reg : Int → Int → Int → Prop) (I : List (Int × Int) → Int → Shared → Prop) : Prop where
  memreq : mode.memreq = false
  budget : ∀ {v k sh}, I v k sh →
    sh.result.bytes ≤ sh.result.bytemax ∧ sh.result.segs ≤ sh.result.segmax
  restart : ∀ {v k k' sh}, I v k sh → ¬ sh.result.full mode →
    I v k' (sh.scratch mode (k' - target))
  serve : ∀ {v k k' offset size sh}, I v k' sh → (∀ q ∈ v, q.1 < k) → rf.Same sh.rfdata →
    ¬ sh.result.full mode → 0 < size → Reg k offset size →
    ∃ ret sh' eof, Returns (distribute · offset size (sh.scratch mode (k - target)) mode)
        (.ret ret sh' eof) ∧
      Distributes mode rf limit I v k offset size ret sh' eof

/-- A call that started at position `k` in front of `P` has consumed `m` bytes of the stream. -/
structure Consumed (mode : Mode) (rf : RequestFileData) (limit final : Int)
    (I : List (Int × Int) → Int → Shared → Prop) (P : List (Int × Int)) (k : Int)
    (v : List (Int × Int)) (req req' : RequestState) (sh' : Shared) (m : Nat) : Prop where
  window : k + m ≤ final
  typeOffset : req'.typeOffset = k + m
  same : req.SameWindow req'
  rest : k + m = final ∨ ∃ P', req'.Rep P' ∧ Positive P' ∧ expand P' = (expand P).drop m
  file : rf.Same sh'.rfdata
  inv : ∃ k', I (v ++ visit rf.visible k ((expand P).take m)) k' sh'
  reason : k + m = final ∨ sh'.result.full mode ∨ req'.eofFlag = true
  progress : 0 < m ∨ req'.eofFlag = true
  eof : req'.eofFlag = true → rf.extendFlag = false ∧
    ((expand P).Pairwise (· < ·) → ∀ y ∈ (expand P).drop m, y < limit → rf.visible y = false)

theorem le_of_mem_drop (hc : 0 < c.2) (hp : (expand (c :: rest)).Pairwise (· < ·)) {n : Nat}
    (hn : n ≤ c.2.toNat) {y : Int} (hy : y ∈ (expand (c :: rest)).drop n) : c.1 + n ≤ y := by
  rw [expand_cons, drop_append_of_le_length (by simpa using hn), drop_run,
    mem_append] at hy
  rcases hy with hy | hy
  · exact (mem_run.mp hy).1
  · have hlast : c.1 + c.2.toNat - 1 ∈ run c.1 c.2.toNat := mem_run.mpr (by omega)
    rw [expand_cons, pairwise_append] at hp
    have := hp.2.2 _ hlast y hy
    omega

section
variable {mode : Mode} {rf : RequestFileData} {limit target final : Int}
  {Reg : Int → Int → Int → Prop} {I : List (Int × Int) → Int → Shared → Prop}
variable {v : List (Int × Int)} {sh' : Shared}

theorem Consumed.cons {req req1 req' : RequestState} {m : Nat}
    (hc : 0 < c.2) (hsame : req.SameWindow req1)
    (h : Consumed mode rf limit final I rest (k + c.2)
      (v ++ visit rf.visible k (run c.1 c.2.toNat)) req1 req' sh' m) :
    Consumed mode rf limit final I (c :: rest) k v req req' sh' (c.2.toNat + m) := by
  have hpos : k + ((c.2.toNat + m : Nat) : Int) = k + c.2 + m := by omega
  refine ⟨hpos ▸ h.window, hpos ▸ h.typeOffset, hsame.trans h.same, ?_, h.file, ?_, ?_,
    .inl (by omega), ?_⟩
  · rw [hpos, drop_expand_add]
    exact h.rest
  · obtain ⟨k', hI⟩ := h.inv
    refine ⟨k', ?_⟩
    rw [take_expand_add, visit_append, length_run, Int.toNat_of_nonneg (by omega),
      ← append_assoc]
    exact hI
  · rw [hpos]
    exact h.reason
  · intro he
    obtain ⟨hext, hno⟩ := h.eof he
    refine ⟨hext, fun hp y hy => hno ?_ y ?_⟩
    · rw [expand_cons, pairwise_append] at hp
      exact hp.2.1
    · rwa [drop_expand_add] at hy

theorem Consumed.within {req req' : RequestState} {size : Int}
    (hsize : size = if k + c.2 > final then final - k else c.2)
    (hd : Distributes mode rf limit I v k c.1 size ret sh' eof) (hpos : Positive (c :: rest))
    (hrep : ret < c.2 → req'.Rep ((c.1 + ret, c.2 - ret) :: rest))
    (hend : ret = c.2 → k + ret = final ∨ req'.Rep rest ∧ sh'.result.full mode)
    (hto : req'.typeOffset = k + ret) (heof : req'.eofFlag = eof) (hsame : req.SameWindow req') :
    Consumed mode rf limit final I (c :: rest) k v req req' sh' ret.toNat := by
  obtain ⟨h0, hle, hfile, hinv, hreason, hprog, hat⟩ := hd
  have hc := hpos.head
  have hcast : ((ret.toNat : Nat) : Int) = ret := by omega
  refine ⟨by omega, by omega, hsame, ?_, hfile, ?_, ?_, ?_, ?_⟩
  · rw [hcast]
    rcases Int.lt_or_le ret c.2 with hlt | hge
    · refine .inr ⟨_, hrep hlt, hpos.within hlt _, ?_⟩
      rw [drop_expand (by omega), hcast]
    · have heq : ret = c.2 := by omega
      rcases hend heq with h | ⟨h, -⟩
      · exact .inl h
      · refine .inr ⟨rest, h, hpos.tail, ?_⟩
        have := drop_expand_add (c := c) rest 0
        rw [Nat.add_zero, drop_zero] at this
        rw [heq, this]
  · rw [take_expand (by omega)]
    exact hinv
  · rw [hcast]
    rcases Int.lt_or_le ret c.2 with hlt | hge
    · rcases hreason with h | h | h
      · exact .inl (by omega)
      · exact .inr (.inl h)
      · exact .inr (.inr (heof.trans h))
    · exact (hend (by omega)).imp_right fun h => .inl h.2
  · rcases hprog with h | h
    · exact .inl (by omega)
    · exact .inr (heof.trans h)
  · intro he
    obtain ⟨hext, hno⟩ := hat (heof.symm.trans he)
    refine ⟨hext, fun hp y hy hyl => hno y ?_ hyl⟩
    have := le_of_mem_drop hc hp (by omega) hy
    omega

/-- **The loop of `PINT_process_request`**, past the logical skip. -/
theorem processLoop_spec (hs : Serves mode rf limit target Reg I) (P : List (Int × Int)) :
    ∀ (st : ProcLoop) (k : Int) (v : List (Int × Int)) (k' : Int),
      st.mode = mode → mode.logicalSkip = false → st.req.Rep P → Positive P →
      st.req.typeOffset = k → st.req.targetOffset = target → st.req.finalOffset = final →
      k < final → final ≤ k + (expand P).length → Regions Reg final k P →
      rf.Same st.sh.rfdata → I v k' st.sh → (∀ q ∈ v, q.1 < k) → ¬ st.sh.result.full mode →
      ∃ req' sh' m, Leaves (processBody distribute) st (.ret 0 req' sh') ∧
        Consumed mode rf limit final I P k v st.req req' sh' m := by
  induction P with
  | nil =>
    intro st k v k' _ _ _ _ _ _ _ hkf hlen
    simp at hlen
    omega
  | cons c rest ih =>
    intro st k v k' hmode hskip hrep hpos hto hta hfi hkf hlen hreg hfile hI hv hfull
    have hc := hpos.head
    obtain ⟨size, hsize⟩ : ∃ size, size = if k + c.2 > final then final - k else c.2 := ⟨_, rfl⟩
    have hsz : 0 < size ∧ size ≤ c.2 ∧ k + size ≤ final := by
      split at hsize <;> omega
    obtain ⟨ret, sh', eof, hret, hdist⟩ := hs.serve hI hv hfile hfull hsz.1
      (hsize ▸ hreg.1 hkf)
    obtain ⟨k1, hI1⟩ := hdist.inv
    have h0 := hdist.nonneg
    have hle := hdist.le
    obtain ⟨req1, hsame, hto1, heof, hturn⟩ := turn_serve hrep (by rw [hmode]; exact hskip)
      (by rw [hmode]; exact hs.memreq) (show ret ≠ -1 by omega)
      (by simpa only [scratched, hto, hta, hfi, hmode, ← hsize] using hret)
      (hs.budget hI1)
    rw [hto] at hto1
    rw [length_expand_cons] at hlen
    cases hturn with
    | within hne hrep1 hleave =>
      exact ⟨req1, sh', _, hleave, Consumed.within hsize hdist hpos (fun _ => hrep1)
        (fun h => absurd h hne) hto1 heof hsame⟩
    | ended hwhole hend hleave =>
      have hstop : k + ret = final ∨ req1.Rep rest ∧ sh'.result.full mode := by
        rcases hend with rfl | ⟨hrep1, hfull1 | hge⟩
        · -- the request is finished, so the window ends here
          simp at hlen
          exact .inl (by omega)
        · exact .inr ⟨hrep1, hmode ▸ hfull1⟩
        · exact .inl (by omega)
      exact ⟨req1, sh', _, hleave, Consumed.within hsize hdist hpos
        (fun h => absurd h (by omega)) (fun _ => hstop) hto1 heof hsame⟩
    | again hwhole hrep1 hnf hlt hgo =>
      subst hwhole
      have hv1 : ∀ q ∈ v ++ visit rf.visible k (run c.1 c.2.toNat), q.1 < k + c.2 := by
        intro q hq
        rcases mem_append.mp hq with hq | hq
        · have := hv q hq
          omega
        · have := (fst_mem_visit hq).2
          rw [length_run] at this
          omega
      obtain ⟨req', sh2, m, hleave, hcons⟩ := ih ⟨req1, sh', st.mode⟩ (k + c.2) _ k1 hmode hskip hrep1
        hpos.tail hto1 (hsame.targetOffset.trans hta) (hsame.finalOffset.trans hfi) (by omega)
        (by omega) hreg.2 hdist.file hI1 hv1 (hmode ▸ hnf)
      exact ⟨req', sh2, _, hgo _ hleave, hcons.cons hc hsame⟩

theorem Shared.scratch_full (sh : Shared) (mode mode' : Mode) (o : Int) :
    (sh.scratch mode o).result.full mode' ↔ sh.result.full mode' := by
  unfold Shared.scratch
  split <;> rfl

theorem Shared.scratch_rfdata (sh : Shared) (mode : Mode) (o : Int) :
    (sh.scratch mode o).rfdata = sh.rfdata := by
  unfold Shared.scratch
  split <;> rfl

end

section
variable {mode : Mode} {target final : Int} {J : Shared → Prop}
variable (dist : Nat → Int → Int → Shared → Mode → Option Distributed)

theorem skip_whole (hmode : st.mode = { mode with logicalSkip := true })
    (hrep : st.req.Rep (c :: rest)) (hto : st.req.typeOffset = k) (hta : st.req.targetOffset = target)
    (hfi : st.req.finalOffset = final) (hge : k + c.2 ≤ target) (htf : target < final)
    (hbud : st.sh.result.bytes ≤ st.sh.result.bytemax ∧ st.sh.result.segs ≤ st.sh.result.segmax)
    (hfull : ¬ st.sh.result.full mode) :
    ∃ req1, st.req.SameWindow req1 ∧ req1.typeOffset = k + c.2 ∧
      (rest = [] ∧ Leaves (processBody dist) st
          (.ret 0 req1 (st.sh.scratch mode (k - target))) ∨
        req1.Rep rest ∧ ∀ p,
          Leaves (processBody dist) ⟨req1, st.sh.scratch mode (k - target), st.mode⟩ p →
          Leaves (processBody dist) st p) := by
  obtain ⟨req, flag, hdec, hrun, hturn⟩ := turn dist hrep
  obtain ⟨eof, hbody⟩ := processBody_skip dist { st with req := req } hdec (by rw [hmode])
    (show _ = c.2 by rw [hrun.typeOffset, hrun.targetOffset, hta]; split <;> omega)
    (show _ = st.sh.scratch mode (k - target) by
      simp only [scratched, hrun.typeOffset, hrun.targetOffset, hto, hta, hmode]
      rfl)
  have hbud' : (st.sh.scratch mode (k - target)).result.bytes ≤
        (st.sh.scratch mode (k - target)).result.bytemax ∧
      (st.sh.scratch mode (k - target)).result.segs ≤
        (st.sh.scratch mode (k - target)).result.segmax := by
    unfold Shared.scratch
    split <;> exact hbud
  obtain ⟨req1, hsame, hto1, -, hturned⟩ := hturn hbody (fun h => absurd rfl h) hbud'
  rw [hto] at hto1
  refine ⟨req1, hsame, hto1, ?_⟩
  cases hturned with
  | within hne => exact absurd rfl hne
  | again _ hrep1 _ _ hgo => exact .inr ⟨hrep1, hgo⟩
  | ended _ hend hleave =>
    refine .inl ⟨hend.resolve_right ?_, hleave⟩
    rintro ⟨-, hfull' | hge⟩
    · rw [hmode] at hfull'
      exact hfull ((Shared.scratch_full ..).mp hfull')
    · omega

theorem skip_part (st : ProcLoop) (hmode : st.mode = { mode with logicalSkip := true })
    (hskip : mode.logicalSkip = false) (hrep : st.req.Rep (c :: rest)) (hto : st.req.typeOffset = k)
    (hta : st.req.targetOffset = target) (hlt : target < k + c.2) :
    ∃ req1, st.req.SameWindow req1 ∧ req1.typeOffset = target ∧
      req1.Rep ((c.1 + (target - k), c.2 - (target - k)) :: rest) ∧ ∀ p,
        Leaves (processBody dist) ⟨req1, st.sh.scratch mode (k - target), mode⟩ p →
        Leaves (processBody dist) st p := by
  obtain ⟨req, flag, hready, hrun, hgo⟩ := settle dist _ st (Int.self_le_toNat _) hrep
  have hto' : req.typeOffset = k := hrun.typeOffset.trans hto
  have hta' : req.targetOffset = target := hrun.targetOffset.trans hta
  have hsh : scratched { st with req := req } = st.sh.scratch mode (k - target) := by
    simp only [scratched, hto', hta', hmode]
    rfl
  have hret : (if req.typeOffset + c.2 ≥ req.targetOffset then
      req.targetOffset - req.typeOffset else c.2) = target - k := by
    rw [hto', hta', if_pos (by omega)]
  obtain ⟨eof, hturn⟩ := processBody_skip dist { st with req := req } hready.decode
    (by rw [hmode]) hret hsh
  have hback : { ({ mode with logicalSkip := true } : Mode) with logicalSkip := false } = mode := by
    cases mode
    simp only at hskip
    simp only [hskip]
  rw [after_part (by omega), if_pos (by simp [hmode])] at hturn
  simp only [hmode, hback] at hturn
  refine ⟨{ req with
      eofFlag := eof
      typeOffset := req.typeOffset + (target - k)
      bytes := req.bytes + (target - k) },
    { hrun.toSameWindow with }, ?_,
    hready.within (target - k) rfl rfl rfl,
    fun p hp => hgo p (Leaves.turn (by simpa only [← hmode] using hturn) hp)⟩
  simp only [hto']
  omega

/-- **The logical skip** brings the state to the target offset and visits nothing. -/
theorem processLoop_skip
    (hbud : ∀ {sh}, J sh → sh.result.bytes ≤ sh.result.bytemax ∧ sh.result.segs ≤ sh.result.segmax)
    (hscratch : ∀ {sh} (k : Int), J sh → ¬ sh.result.full mode → J (sh.scratch mode (k - target)))
    (P : List (Int × Int)) :
    ∀ (st : ProcLoop) (k : Int),
      st.mode = { mode with logicalSkip := true } → mode.logicalSkip = false →
      st.req.Rep P → Positive P →
      st.req.typeOffset = k → st.req.targetOffset = target → st.req.finalOffset = final →
      k ≤ target → target < final → target < k + (expand P).length →
      J st.sh → ¬ st.sh.result.full mode →
      ∃ st1 P1, st1.mode = mode ∧ st1.req.Rep P1 ∧ Positive P1 ∧
        expand P1 = (expand P).drop (target - k).toNat ∧ st1.req.typeOffset = target ∧
        st.req.SameWindow st1.req ∧ J st1.sh ∧ ¬ st1.sh.result.full mode ∧
        ∀ p, Leaves (processBody dist) st1 p → Leaves (processBody dist) st p := by
  induction P with
  | nil =>
    intro st k _ _ _ _ _ _ _ hkt _ hlen
    simp at hlen
    omega
  | cons c rest ih =>
    intro st k hmode hskip hrep hpos hto hta hfi hkt htf hlen hJ hfull
    have hc := hpos.head
    have hJ' := hscratch k hJ hfull
    have hfull' : ¬ (st.sh.scratch mode (k - target)).result.full mode :=
      fun h => hfull ((Shared.scratch_full ..).mp h)
    have hlen' := length_expand_cons c rest
    rcases Int.lt_or_le target (k + c.2) with hlt | hge
    · obtain ⟨req1, hsame, hto1, hrep1, hgo⟩ :=
        skip_part dist st hmode hskip hrep hto hta hlt
      refine ⟨_, _, rfl, hrep1, hpos.within (by omega) _, ?_, hto1, hsame, hJ', hfull', hgo⟩
      rw [drop_expand (by omega), Int.toNat_of_nonneg (by omega)]
    · obtain ⟨req1, hsame, hto1, hor⟩ :=
        skip_whole dist hmode hrep hto hta hfi hge htf (hbud hJ) hfull
      rcases hor with ⟨rfl, -⟩ | ⟨hrep1, hgo⟩
      · rw [hlen'] at hlen
        simp at hlen
        omega
      · obtain ⟨st1, P1, hm, hr, hp, hex, hty, hsw, hJ1, hnf, hgo1⟩ :=
          ih ⟨req1, st.sh.scratch mode (k - target), st.mode⟩ (k + c.2) hmode hskip hrep1
            hpos.tail hto1 (hsame.targetOffset.trans hta) (hsame.finalOffset.trans hfi) hge htf
            (by omega) hJ' hfull'
        refine ⟨st1, P1, hm, hr, hp, ?_, hty, hsame.trans hsw, hJ1, hnf,
          fun p hp => hgo p (hgo1 p hp)⟩
        rw [hex, ← drop_expand_add rest]
        congr 1
        omega

end

end Pvfs.Description
