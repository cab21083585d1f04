import Pvfs.Description.Wire

/-! # Filling messages (flowproto-multiqueue.c)

A flow cuts a transfer into messages of at most `buffer_size` bytes. Each side fills a message
by calling `PINT_process_request` as often as it takes, at most `MAX_REGIONS` regions a call:
the server keeps a chain of results for one buffer, the client copies the regions together in
an intermediate buffer when one result is not enough.

Both loops are the same do-while loop around a call, up to what they note of a result. `fill_from`
says what such a loop does, for either side: it takes the next visible bytes of the window until
the buffer is full or nothing visible is left. -/

namespace Pvfs.Flow

open Pvfs.Description List
open Pvfs.Lib

/-- `MAX_REGIONS`. -/
def maxRegions : Nat := 64

/-- The variables of the loop that fills one buffer. -/
structure FillLoop where
  req : RequestState
  sh : Shared
  bytesProcessed : Int
  segs : List (Int × Int)

/-- What is counted and kept of the result of a call. -/
abbrev Noted := RequestResult → Int × List (Int × Int)

/-- `mem_to_bmi_callback_fn` copies region by region. -/
def clientNotes : Noted := fun res => ((res.segments.map Prod.snd).sum, res.segments)

/-- `bmi_recv_callback_fn` and `trove_write_callback_fn` drop an entry of the chain without bytes. -/
def serverNotes : Noted := fun res => if res.bytes = 0 then (0, []) else (res.bytes, res.segments)

def FillLoop.add (st : FillLoop) (notes : Noted) (req : RequestState) (sh : Shared) : FillLoop :=
  ⟨req, sh, st.bytesProcessed + (notes sh.result).1, st.segs ++ (notes sh.result).2⟩

/-- One turn. Leaving with `none` is a fault, or a negative return code, which fails an assertion. -/
def fillBody (mode : Mode) (notes : Noted) (bufferSize : Int) (fuel : Nat) (st : FillLoop) :
    Option (Turn FillLoop (Option FillLoop)) :=
  match processRequest fuel st.req
      { st.sh with result := st.sh.result.reset maxRegions (bufferSize - st.bytesProcessed) } mode with
  | none => none
  | some .fault => some (.leave none)
  | some (.ret code req sh) =>
    if code < 0 then some (.leave none)
    else
      let st' := st.add notes req sh
      if st'.bytesProcessed < bufferSize ∧ req.done = false then some (.again st')
      else some (.leave (some st'))

def serverFill (bufferSize : Int) (fuel : Nat) (req : RequestState) (sh : Shared) :
    Option (Option FillLoop) :=
  iterate (fillBody .pintServer serverNotes bufferSize fuel) fuel ⟨req, sh, 0, []⟩

/-- The client's message: one result if that is all, or else what is copied together; an empty
intermediate buffer fails an assertion. -/
def clientFill (bufferSize : Int) (fuel : Nat) (req : RequestState) (sh : Shared) :
    Option (Option FillLoop) :=
  match processRequest fuel req
      { sh with result := sh.result.reset maxRegions bufferSize } .pintClient with
  | none => none
  | some .fault => some none
  | some (.ret code req sh) =>
    if code < 0 then some none
    else if req.done = false ∧ sh.result.bytes < bufferSize then
      (iterate (fillBody .pintClient clientNotes bufferSize fuel) fuel
        (FillLoop.add ⟨req, sh, 0, []⟩ clientNotes req sh)).map fun st =>
          st.bind fun st => if st.bytesProcessed = 0 then none else some st
    else some (some ⟨req, sh, sh.result.bytes, sh.result.segments⟩)

/-- The variables of the loop over the messages. -/
structure MessageLoop where
  req : RequestState
  sh : Shared
  messages : List (List (Int × Int))

/-- One message. A flow is over when its request is done, or when nothing was left to send. -/
def messageBody (fill : Nat → RequestState → Shared → Option (Option FillLoop)) (fuel : Nat)
    (st : MessageLoop) : Option (Turn MessageLoop (Option (List (List (Int × Int))))) :=
  if st.req.done then some (.leave (some st.messages))
  else
    match fill fuel st.req st.sh with
    | none => none
    | some none => some (.leave none)
    | some (some filled) =>
      if filled.bytesProcessed = 0 then some (.leave (some st.messages))
      else some (.again ⟨filled.req, filled.sh, st.messages ++ [filled.segs]⟩)

/-- The regions of each message of a flow, in the order in which the messages go over the wire.
`none` inside is a failed assertion. -/
def flowMessages (fill : Nat → RequestState → Shared → Option (Option FillLoop)) (r : Request)
    (target final : Int) (rf : RequestFileData) (fuel : Nat) :
    Option (Option (List (List (Int × Int)))) :=
  iterate (messageBody fill fuel) fuel ⟨.opened r target final, .fresh rf, []⟩

def clientMessages (bufferSize : Int) := flowMessages (clientFill bufferSize)

def serverMessages (bufferSize : Int) := flowMessages (serverFill bufferSize)

/-! ## One message -/

/-- A side writes the visited bytes as `out` says, and has a note that counts what a result holds. -/
structure Side (mode : Mode) (rf : RequestFileData) (limit target : Int) (bufferSize : Int)
    (Byte : Int → Int → Prop) (I : Nat × Int → List (Int × Int) → Int → Shared → Prop)
    (out : Int × Int → Int) : Prop where
  memreq : mode.memreq = false
  skip : mode.logicalSkip = false
  cksize : mode.eqCksize = false
  writes : Writes I out
  reopens : ∀ {b v k sh}, I b v k sh → Opens I sh
  serves : ∀ b, 0 < b → b ≤ bufferSize →
    Serves mode rf limit target (ByteRegion Byte) (I (maxRegions, b))
  extend : rf.extendFlag = true

/-- Where nothing is lost, everything is counted and kept. -/
def Noted.Counts (notes : Noted) : Prop :=
  ∀ res : RequestResult, Positive res.segments →
    res.bytes = (expand res.segments).length → notes res = (res.bytes, res.segments)

theorem sum_sizes {segs : List (Int × Int)} (hpos : Positive segs) :
    (segs.map Prod.snd).sum = (expand segs).length := by
  induction segs with
  | nil => rfl
  | cons s rest ih =>
    have hs := hpos.head
    rw [map_cons, sum_cons, expand_cons, length_append, length_run,
      ih fun c hc => hpos c (mem_cons_of_mem _ hc)]
    push_cast
    rw [Int.toNat_of_nonneg (Int.le_of_lt hs)]

theorem clientNotes_counts : clientNotes.Counts := by
  intro res hpos hbytes
  unfold clientNotes
  rw [sum_sizes hpos, hbytes]

theorem serverNotes_counts : serverNotes.Counts := by
  intro res hpos hbytes
  unfold serverNotes
  split
  next hzero =>
    -- no bytes, no segments: each segment has a byte
    have hnil : expand res.segments = [] := by
      apply length_eq_zero_iff.mp
      omega
    cases hsegs : res.segments with
    | nil => rw [hzero]
    | cons s rest =>
      have hs := hpos s (by rw [hsegs]; exact mem_cons_self)
      rw [hsegs, expand_cons, append_eq_nil_iff] at hnil
      have hlen := congrArg List.length hnil.1
      rw [length_run, length_nil] at hlen
      omega
  next => rfl

variable {start : Int}

section
variable {r : Request} {final : Int} {p : Int → Bool}

theorem window_drop (h0 : 0 ≤ start) (m : Nat) :
    r.window (start + m) final = (r.window start final).drop m := by
  rw [Request.window_eq_drop h0 (show start ≤ start + m by omega),
    show (start + m - start).toNat = m by omega]

theorem visit_take_add {m1 m2 : Nat} (hr : r.Wf) (h0 : 0 ≤ start) (hwin : start + m1 ≤ final) :
    visit p start ((r.window start final).take (m1 + m2)) =
      visit p start ((r.window start final).take m1) ++
        visit p (start + m1) ((r.window (start + m1) final).take m2) := by
  have hlen := hr.length_window h0 (show start ≤ final by omega)
  rw [take_add, visit_append, length_take, Nat.min_eq_left (by omega), window_drop h0]

end

section
variable {r : Request} {target final limit : Int} {mode : Mode} {rf : RequestFileData}
  {bufferSize : Int} {Byte : Int → Int → Prop}
  {I : Nat × Int → List (Int × Int) → Int → Shared → Prop} {out : Int × Int → Int}

/-- What is visible of the next `m` bytes. -/
def seen (rf : RequestFileData) (r : Request) (final start : Int) (m : Nat) : List (Int × Int) :=
  visit rf.visible start ((r.window start final).take m)

/-- The request is done and has nothing visible left, or it can be taken up at `start`, which
is in the window. -/
structure Rest (mode : Mode) (rf : RequestFileData) (r : Request) (target final start : Int)
    (req : RequestState) : Prop where
  done : req.done = true → visit rf.visible start (r.window start final) = []
  resumes : req.done = false → req.Resumes mode r target final start
  lt : req.done = false → start < final

/-- A call can be made for the file. -/
structure Ready (rf : RequestFileData) (I : Nat × Int → List (Int × Int) → Int → Shared → Prop)
    (sh : Shared) : Prop where
  file : rf.Same sh.rfdata
  opens : Opens I sh

/-- One call with a byte budget of `b` took the next `m` bytes. -/
structure Took (mode : Mode) (rf : RequestFileData) (r : Request) (target final : Int)
    (I : Nat × Int → List (Int × Int) → Int → Shared → Prop) (out : Int × Int → Int) (start b : Int)
    (req' : RequestState) (sh' : Shared) (m : Nat) : Prop where
  window : start + m ≤ final
  bytes : sh'.result.bytes = (seen rf r final start m).length
  segments : expand sh'.result.segments = (seen rf r final start m).map out
  positive : Positive sh'.result.segments
  le : sh'.result.bytes ≤ b
  rest : Rest mode rf r target final (start + m) req'
  progress : req'.done = false → 0 < m
  nonempty : req'.done = false → 0 < sh'.result.bytes
  ready : Ready rf I sh'

/-- A loop has added the next `m` bytes to a message. -/
structure Filled (mode : Mode) (rf : RequestFileData) (r : Request) (target final bufferSize : Int)
    (I : Nat × Int → List (Int × Int) → Int → Shared → Prop) (out : Int × Int → Int) (start : Int)
    (st st' : FillLoop) (m : Nat) : Prop where
  window : start + m ≤ final
  bytes : st'.bytesProcessed = st.bytesProcessed + (seen rf r final start m).length
  segs : ∃ more, st'.segs = st.segs ++ more ∧ Positive more ∧
    expand more = (seen rf r final start m).map out
  le : st'.bytesProcessed ≤ bufferSize
  full : st'.req.done = false → st'.bytesProcessed = bufferSize
  rest : Rest mode rf r target final (start + m) st'.req
  progress : st'.req.done = false → 0 < m
  ready : Ready rf I st'.sh

/-- What a flow is asked for. -/
structure Transfer (r : Request) (target final limit : Int) (rf : RequestFileData)
    (Byte : Int → Int → Prop) : Prop where
  wf : r.Wf
  nonneg : 0 ≤ target
  lt : target < final
  within : ∀ x ∈ r.window target final, rf.Mapped x → x < limit
  bytes : ∀ q ∈ numbered target (r.window target final), Byte q.1 q.2

variable (side : Side mode rf limit target bufferSize Byte I out)
  (t : Transfer r target final limit rf Byte)
include side t

variable {req : RequestState} {sh : Shared}

theorem call_took {b : Int} (hb : 0 < b) (hbuf : b ≤ bufferSize)
    (hres : req.Resumes mode r target final start) (hle : target ≤ start) (hsh : Ready rf I sh) :
    ∃ req' sh' m, Returns (processRequest · req
        { sh with result := sh.result.reset maxRegions b } mode) (.ret 0 req' sh') ∧
      Took mode rf r target final I out start b req' sh' m := by
  have hregions : 0 < maxRegions := by decide
  obtain ⟨k1, hI1⟩ := hsh.opens (maxRegions, b) hregions hb
  obtain ⟨work, hprep, hsus, rfl⟩ := hres { sh with result := sh.result.reset maxRegions b }
  obtain ⟨req', sh', m, hret, hcall⟩ := call_spec t.wf (side.serves b hb hbuf) side.skip side.cksize
    t.nonneg t.lt t.bytes hprep hsus hsh.file hI1 (fun _ hq => absurd hq not_mem_nil) hregions
    hb hb (.inl side.extend) t.within
  obtain ⟨k2, hI2⟩ := hcall.inv
  obtain ⟨hseg, hpos⟩ := side.writes.segments hI2
  have hstart := t.nonneg
  -- a request that is not done stands before the end of its window
  have hmore : req'.done = false →
      max work.typeOffset target + m < final ∧ req'.eofFlag = false := by
    intro hd
    obtain ⟨hto, heof⟩ : req'.typeOffset < req'.finalOffset ∧ req'.eofFlag = false := by
      simpa [RequestState.done] using hd
    rw [hcall.typeOffset, hcall.finalOffset] at hto
    exact ⟨hto, heof⟩
  refine ⟨req', sh', m, hret, hcall.window, (side.writes.used hI2).1, hseg, hpos, ?_, ⟨?_, ?_, ?_⟩, ?_,
    ?_, hcall.file, side.reopens hI2⟩
  · have hwithin := ((side.serves b hb hbuf).budget hI2).1
    rw [(side.writes.budget hI2).2] at hwithin
    exact hwithin
  · intro hd
    rw [window_drop (by omega)]
    exact hcall.done hd
  · intro hd
    obtain ⟨hlt, -⟩ := hmore hd
    have hsus' := hcall.rest.resolve_left (by omega)
    have hres' := hsus'.resumes t.wf side.memreq (by rw [hcall.typeOffset]; omega)
    rw [hcall.typeOffset] at hres'
    exact hres'
  · intro hd
    exact (hmore hd).1
  · intro hd
    obtain ⟨-, heof⟩ := hmore hd
    exact hcall.progress.resolve_right (by rw [heof]; simp)
  · -- what ended the call was its budget, so it had something to show
    intro hd
    obtain ⟨hlt, heof⟩ := hmore hd
    obtain ⟨hbytes, hsegs⟩ := side.writes.used hI2
    obtain ⟨hsegmax, hbytemax⟩ := side.writes.budget hI2
    rcases hcall.reason with h | h | h
    · omega
    · rcases h with h | ⟨-, h⟩
      · rw [hbytemax] at h
        exact Int.lt_of_lt_of_le hb h
      · rw [hsegmax] at h
        omega
    · rw [heof] at h
      cases h

variable {st : FillLoop}

omit side t in
theorem Took.cons {req' : RequestState} {sh' : Shared} {m1 m2 : Nat} {b : Int} {st1 st' : FillLoop}
    (hr : r.Wf) (h0 : 0 ≤ start) (h : Took mode rf r target final I out start b req' sh' m1)
    (hbytes : st1.bytesProcessed = st.bytesProcessed + sh'.result.bytes)
    (hsegs : st1.segs = st.segs ++ sh'.result.segments) (hm : 0 < m1)
    (hf : Filled mode rf r target final bufferSize I out (start + m1) st1 st' m2) :
    Filled mode rf r target final bufferSize I out start st st' (m1 + m2) := by
  have hseen : seen rf r final start (m1 + m2) =
      seen rf r final start m1 ++ seen rf r final (start + m1) m2 :=
    visit_take_add hr h0 h.window
  have hplace : start + ((m1 + m2 : Nat) : Int) = start + m1 + m2 := by
    omega
  obtain ⟨more, hmore, hpos, hexp⟩ := hf.segs
  refine ⟨by rw [hplace]; exact hf.window, ?_, ⟨sh'.result.segments ++ more, ?_, ?_, ?_⟩, hf.le, hf.full,
    by rw [hplace]; exact hf.rest, fun _ => by omega, hf.ready⟩
  · rw [hf.bytes, hbytes, h.bytes, hseen, length_append]
    omega
  · rw [hmore, hsegs, append_assoc]
  · intro c hc
    rcases mem_append.mp hc with hc | hc
    · exact h.positive c hc
    · exact hpos c hc
  · rw [expand_append, h.segments, hexp, hseen, map_append]

omit side t in
theorem Took.last {req' : RequestState} {sh' : Shared} {m : Nat} {b : Int} {st1 : FillLoop}
    (h : Took mode rf r target final I out start b req' sh' m) (hreq : st1.req = req')
    (hsh : st1.sh = sh') (hbytes : st1.bytesProcessed = st.bytesProcessed + sh'.result.bytes)
    (hsegs : st1.segs = st.segs ++ sh'.result.segments) (hle : st1.bytesProcessed ≤ bufferSize)
    (hfull : req'.done = false → st1.bytesProcessed = bufferSize) :
    Filled mode rf r target final bufferSize I out start st st1 m := by
  cases hreq
  cases hsh
  exact ⟨h.window, by rw [hbytes, h.bytes], ⟨_, hsegs, h.positive, h.segments⟩, hle, hfull, h.rest,
    h.progress, h.ready⟩

/-- **A fill loop** takes the next visible bytes, until the buffer is full or the request done. -/
theorem fill_from {notes : Noted} (hnotes : notes.Counts) (n : Nat) :
    ∀ (st : FillLoop) (start : Int), (final - start).toNat ≤ n → target ≤ start → start < final →
      0 ≤ st.bytesProcessed → st.bytesProcessed < bufferSize →
      st.req.Resumes mode r target final start → Ready rf I st.sh →
      ∃ st' m, Leaves (fillBody mode notes bufferSize) st (some st') ∧
        Filled mode rf r target final bufferSize I out start st st' m := by
  have h0 := t.nonneg
  induction n with
  | zero =>
    intro st start hn _ hlt
    omega
  | succ n ih =>
    intro st start hn hle hlt hnonneg hroom hres hready
    obtain ⟨req1, sh1, m1, hret, htook⟩ := call_took side t (show 0 < bufferSize - st.bytesProcessed by omega)
      (by omega) hres hle hready
    have hnoted : notes sh1.result = (sh1.result.bytes, sh1.result.segments) := by
      apply hnotes _ htook.positive
      rw [htook.bytes, htook.segments, length_map]
    have hbytes : (st.add notes req1 sh1).bytesProcessed = st.bytesProcessed + sh1.result.bytes := by
      unfold FillLoop.add
      rw [hnoted]
    have hsegs : (st.add notes req1 sh1).segs = st.segs ++ sh1.result.segments := by
      unfold FillLoop.add
      rw [hnoted]
    have hbound : (st.add notes req1 sh1).bytesProcessed ≤ bufferSize := by
      have hbudget := htook.le
      omega
    by_cases hagain : (st.add notes req1 sh1).bytesProcessed < bufferSize ∧ req1.done = false
    · obtain ⟨hsmall, hnot⟩ := hagain
      have hm1 := htook.progress hnot
      have hpos : 0 ≤ (st.add notes req1 sh1).bytesProcessed := by
        rw [hbytes, htook.bytes]
        omega
      obtain ⟨st', m2, hleaves, hfilled⟩ := ih (st.add notes req1 sh1) (start + m1) (by omega) (by omega)
        (htook.rest.lt hnot) hpos hsmall (htook.rest.resumes hnot) htook.ready
      refine ⟨st', m1 + m2, .turn (hret.map fun fuel hcall => ?_) hleaves,
        htook.cons t.wf (by omega) hbytes hsegs hm1 hfilled⟩
      rw [fillBody, hcall]
      simp [hsmall, hnot]
    · refine ⟨st.add notes req1 sh1, m1, .last (hret.map fun fuel hcall => ?_),
        htook.last rfl rfl hbytes hsegs hbound fun hnot => ?_⟩
      · rw [fillBody, hcall]
        dsimp only
        rw [if_neg (by omega), if_neg hagain]
      · by_contra hne
        exact hagain ⟨by omega, hnot⟩

omit side t in
theorem Filled.visit {st' : FillLoop} {m : Nat} (hr : r.Wf) (h0 : 0 ≤ start)
    (h : Filled mode rf r target final bufferSize I out start st st' m) :
    Lib.visit rf.visible start (r.window start final) =
      seen rf r final start m ++ Lib.visit rf.visible (start + m) (r.window (start + m) final) := by
  have hwin := h.window
  have hlen := hr.length_window h0 (show start ≤ final by omega)
  conv_lhs => rw [← take_append_drop m (r.window start final)]
  rw [visit_append, length_take, Nat.min_eq_left (by omega), window_drop h0]
  rfl

theorem serverFill_filled (hmode : mode = .pintServer) (hbuf : 0 < bufferSize)
    (hres : req.Resumes mode r target final start) (hle : target ≤ start) (hlt : start < final)
    (hready : Ready rf I sh) :
    ∃ st' m, Returns (serverFill bufferSize · req sh) (some st') ∧
      Filled mode rf r target final bufferSize I out start ⟨req, sh, 0, []⟩ st' m := by
  cases hmode
  obtain ⟨st', m, hleaves, hfilled⟩ := fill_from side t serverNotes_counts _ ⟨req, sh, 0, []⟩ start
    (Nat.le_refl _) hle hlt (Int.le_refl 0) hbuf hres hready
  exact ⟨st', m, hleaves.returns, hfilled⟩

theorem clientFill_filled (hmode : mode = .pintClient) (hbuf : 0 < bufferSize)
    (hres : req.Resumes mode r target final start) (hle : target ≤ start) (hready : Ready rf I sh) :
    ∃ st' m, Returns (clientFill bufferSize · req sh) (some st') ∧
      Filled mode rf r target final bufferSize I out start ⟨req, sh, 0, []⟩ st' m := by
  cases hmode
  have h0 := t.nonneg
  obtain ⟨req1, sh1, m1, hret, htook⟩ := call_took side t hbuf (Int.le_refl _) hres hle hready
  by_cases hmore : req1.done = false ∧ sh1.result.bytes < bufferSize
  · obtain ⟨hnot, hsmall⟩ := hmore
    have hsome := htook.nonempty hnot
    have hnoted : clientNotes sh1.result = (sh1.result.bytes, sh1.result.segments) := by
      apply clientNotes_counts _ htook.positive
      rw [htook.bytes, htook.segments, length_map]
    have hfirst : FillLoop.add ⟨req1, sh1, 0, []⟩ clientNotes req1 sh1 =
        ⟨req1, sh1, sh1.result.bytes, sh1.result.segments⟩ := by
      unfold FillLoop.add
      rw [hnoted]
      simp
    obtain ⟨st', m2, hleaves, hfilled⟩ := fill_from side t clientNotes_counts _
      ⟨req1, sh1, sh1.result.bytes, sh1.result.segments⟩ (start + m1) (Nat.le_refl _) (by omega)
      (htook.rest.lt hnot) (by dsimp only; omega) hsmall (htook.rest.resumes hnot) htook.ready
    have hnonzero : st'.bytesProcessed ≠ 0 := by
      rw [hfilled.bytes]
      dsimp only
      omega
    refine ⟨st', m1 + m2, hret.map₂ hleaves.returns fun fuel hcall hloop => ?_,
      htook.cons t.wf (by omega) ?_ ?_ (htook.progress hnot) hfilled⟩
    · rw [clientFill, hcall]
      dsimp only
      rw [if_neg (by omega), if_pos ⟨hnot, hsmall⟩, hfirst, hloop]
      simp [hnonzero]
    · simp
    · simp
  · refine ⟨⟨req1, sh1, sh1.result.bytes, sh1.result.segments⟩, m1, hret.map fun fuel hcall => ?_,
      htook.last rfl rfl ?_ ?_ htook.le fun hnot => ?_⟩
    · rw [clientFill, hcall]
      dsimp only
      rw [if_neg (by omega), if_neg hmore]
    · simp
    · simp
    · by_contra hne
      have hbudget := htook.le
      exact hmore ⟨hnot, by dsimp only at hne; omega⟩

/-! ## Message after message -/

omit side t in
/-- The regions of `messages` are the bytes of `v` as `out` writes them, `size` bytes a message. -/
inductive Framed (size : Nat) (out : Int × Int → Int) :
    List (Int × Int) → List (List (Int × Int)) → Prop where
  | done : Framed size out [] []
  | message {v : List (Int × Int)} {segs : List (Int × Int)} {messages : List (List (Int × Int))}
      (hne : v ≠ []) (hpos : Positive segs) (hsegs : expand segs = (v.take size).map out)
      (rest : Framed size out (v.drop size) messages) : Framed size out v (segs :: messages)

variable {st' : FillLoop} {m : Nat}

omit side t in
theorem Filled.bytes_eq
    (h : Filled mode rf r target final bufferSize I out start ⟨req, sh, 0, []⟩ st' m) :
    st'.bytesProcessed = (seen rf r final start m).length := by
  rw [h.bytes]
  simp

omit side in
/-- If nothing came into a buffer, there is nothing left to come. -/
theorem Filled.visit_eq_nil
    (h : Filled mode rf r target final bufferSize I out start ⟨req, sh, 0, []⟩ st' m)
    (hle : target ≤ start) (hbuf : 0 < bufferSize) (hzero : st'.bytesProcessed = 0) :
    Lib.visit rf.visible start (r.window start final) = [] := by
  have hbytes := h.bytes_eq
  have hdone : st'.req.done = true := by
    cases hd : st'.req.done with
    | true => rfl
    | false =>
      have hfull := h.full hd
      omega
  have hseen : seen rf r final start m = [] := by
    apply length_eq_zero_iff.mp
    omega
  rw [h.visit t.wf (t.nonneg.trans hle), hseen, h.rest.done hdone]
  rfl

omit side in
/-- The visible bytes of a message, and those behind it. -/
theorem Filled.cut
    (h : Filled mode rf r target final bufferSize I out start ⟨req, sh, 0, []⟩ st' m)
    (hle : target ≤ start) :
    (Lib.visit rf.visible start (r.window start final)).take bufferSize.toNat =
        seen rf r final start m ∧
      (Lib.visit rf.visible start (r.window start final)).drop bufferSize.toNat =
        Lib.visit rf.visible (start + m) (r.window (start + m) final) := by
  have hbytes := h.bytes_eq
  have hroom := h.le
  rw [h.visit t.wf (t.nonneg.trans hle)]
  cases hd : st'.req.done with
  | true =>
    rw [h.rest.done hd, append_nil]
    exact ⟨take_of_length_le (by omega), drop_eq_nil_of_le (by omega)⟩
  | false =>
    have hlen : (seen rf r final start m).length = bufferSize.toNat := by
      have hfull := h.full hd
      omega
    exact ⟨take_left' hlen, drop_left' hlen⟩

variable {fill : Nat → RequestState → Shared → Option (Option FillLoop)}

omit side t in
theorem messages_done {st : MessageLoop} (hrest : Rest mode rf r target final start st.req)
    (hd : st.req.done = true) :
    ∃ more, Leaves (messageBody fill) st (some (st.messages ++ more)) ∧
      Framed bufferSize.toNat out (Lib.visit rf.visible start (r.window start final)) more := by
  refine ⟨[], .last (.always fun fuel => ?_), ?_⟩
  · simp [messageBody, hd]
  · rw [hrest.done hd]
    exact .done

omit side in
/-- **The messages of a flow** are the visible bytes of its window, in buffers of one size. -/
theorem messages_from (hbuf : 0 < bufferSize)
    (hfill : ∀ {req : RequestState} {sh : Shared} {start : Int},
      req.Resumes mode r target final start → target ≤ start → start < final → Ready rf I sh →
      ∃ st' m, Returns (fill · req sh) (some st') ∧
        Filled mode rf r target final bufferSize I out start ⟨req, sh, 0, []⟩ st' m) (n : Nat) :
    ∀ (st : MessageLoop) (start : Int), (final - start).toNat ≤ n → target ≤ start →
      Rest mode rf r target final start st.req → Ready rf I st.sh →
      ∃ more, Leaves (messageBody fill) st (some (st.messages ++ more)) ∧
        Framed bufferSize.toNat out (Lib.visit rf.visible start (r.window start final)) more := by
  induction n with
  | zero =>
    intro st start hn _ hrest _
    cases hd : st.req.done with
    | true => exact messages_done hrest hd
    | false =>
      have hlt := hrest.lt hd
      omega
  | succ n ih =>
    intro st start hn hle hrest hready
    cases hd : st.req.done with
    | true => exact messages_done hrest hd
    | false =>
      obtain ⟨st', m, hret, hfilled⟩ := hfill (hrest.resumes hd) hle (hrest.lt hd) hready
      by_cases hzero : st'.bytesProcessed = 0
      · refine ⟨[], .last (hret.map fun fuel hf => ?_), ?_⟩
        · simp [messageBody, hd, hf, hzero]
        · rw [hfilled.visit_eq_nil t hle hbuf hzero]
          exact .done
      · obtain ⟨segs, hsegs, hpos, hexp⟩ := hfilled.segs
        obtain ⟨htake, hdrop⟩ := hfilled.cut t hle
        have hseen : seen rf r final start m ≠ [] := by
          intro hnil
          rw [hfilled.bytes_eq, hnil] at hzero
          exact hzero rfl
        have hm : 0 < m := by
          rcases Nat.eq_zero_or_pos m with rfl | hm
          · exact absurd (by rw [seen, take_zero]; rfl) hseen
          · exact hm
        obtain ⟨more, hleaves, hframed⟩ := ih ⟨st'.req, st'.sh, st.messages ++ [st'.segs]⟩ (start + m)
          (by have hwin := hfilled.window; omega) (by omega) hfilled.rest hfilled.ready
        have hturn : Returns (messageBody fill · st)
            (.again ⟨st'.req, st'.sh, st.messages ++ [st'.segs]⟩) :=
          hret.map fun fuel hf => by simp [messageBody, hd, hf, hzero]
        refine ⟨st'.segs :: more, .turn hturn (by simpa using hleaves), .message ?_ ?_ ?_ ?_⟩
        · intro hnil
          rw [hnil, take_nil] at htake
          exact hseen htake.symm
        · rw [hsegs]
          exact hpos
        · rw [htake, hsegs]
          exact hexp
        · rw [hdrop]
          exact hframed

end

end Pvfs.Flow
