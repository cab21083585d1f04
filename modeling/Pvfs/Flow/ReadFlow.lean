import Pvfs.Flow.Chains
import Pvfs.Lib.Steps

/-! # Read flows send loaded buffers in order

What a flow from storage to network keeps while nothing goes wrong. Every piece of the request
that has been taken gets the next sequence number; a buffer with a piece is in the source queue
while its reads are out, in the destination queue when it is loaded, and stays there while its
send is out. So the numbers from `next_seq_to_send` to `next_seq` are those of the buffers that
are loading or wait for their turn.

An operation that completes at once is one that is posted and calls back before anything else
happens (`postRead_immediate`, `sendNext_immediate`), so each lemma about a callback is proved once,
for any stack of calls below it. -/

namespace Pvfs.Flow

open List Function FlowData

variable {α : Type}

/-- The piece that gets sequence number `s`. -/
def Plan.pieceAt (plan : Plan α) (s : Nat) : Piece α := plan.pieces.getD s []

variable {s : Nat}

section
variable (plan : Plan α)

theorem Plan.pieceAt_eq_getElem (h : s < plan.pieces.length) : plan.pieceAt s = plan.pieces[s] := by
  rw [pieceAt, getD_eq_getElem?_getD, getElem?_eq_getElem h, Option.getD_some]

theorem Plan.pieceAt_eq_nil (h : plan.pieces.length ≤ s) : plan.pieceAt s = [] := by
  rw [pieceAt, getD_eq_getElem?_getD, getElem?_eq_none h, Option.getD_none]

/-- Only the last piece can be empty. -/
theorem Plan.pieceAt_ne_nil (h : s + 1 < plan.pieces.length) : plan.pieceAt s ≠ [] := by
  apply plan.inner
  have hlt : s < plan.pieces.dropLast.length := by
    rw [length_dropLast]
    omega
  have hget : plan.pieceAt s = plan.pieces.dropLast[s] := by
    rw [plan.pieceAt_eq_getElem (by omega), getElem_dropLast]
  rw [hget]
  exact getElem_mem hlt

theorem Plan.lt_length (h : plan.pieceAt s ≠ []) : s < plan.pieces.length := by
  by_contra hge
  exact h (plan.pieceAt_eq_nil (Nat.not_lt.mp hge))

theorem Plan.getElem?_of_ne_nil (h : plan.pieceAt s ≠ []) :
    plan.pieces[s]? = some (plan.pieceAt s) := by
  rw [plan.pieceAt_eq_getElem (plan.lt_length h), getElem?_eq_getElem]

theorem Plan.size_pos (h : plan.pieceAt s ≠ []) : 0 < Piece.size (plan.pieceAt s) := by
  have hmem := mem_of_getElem? (plan.getElem?_of_ne_nil h)
  cases hp : plan.pieceAt s with
  | nil => exact absurd hp h
  | cons bytes rest =>
    have hbytes := plan.positive _ hmem bytes (by rw [hp]; exact mem_cons_self)
    have hlen := length_pos_iff.mpr hbytes
    simp only [Piece.size, map_cons, sum_cons]
    omega

theorem Plan.take_add_one (h : plan.pieceAt s ≠ []) :
    plan.pieces.take (s + 1) = plan.pieces.take s ++ [plan.pieceAt s] := by
  rw [List.take_add_one, plan.getElem?_of_ne_nil h, Option.toList_some]

variable {m : Nat}

theorem Plan.filter_take (hwhole : ∀ s < m, plan.pieceAt s ≠ []) :
    (plan.pieces.take m).filter (fun p => !p.isEmpty) = plan.pieces.take m := by
  apply filter_eq_self.mpr
  intro p hp
  obtain ⟨s, hs, rfl⟩ := getElem_of_mem hp
  rw [length_take] at hs
  have hne := hwhole s (by omega)
  rw [plan.pieceAt_eq_getElem (by omega)] at hne
  simpa using hne

/-- What comes before the empty end is what is sent. -/
theorem Plan.take_eq_filter (hwhole : ∀ s < m, plan.pieceAt s ≠ [])
    (hrest : ∀ s, m ≤ s → plan.pieceAt s = []) :
    plan.pieces.take m = plan.pieces.filter fun p => !p.isEmpty := by
  conv_rhs => rw [← take_append_drop m plan.pieces, filter_append]
  have hright : (plan.pieces.drop m).filter (fun p => !p.isEmpty) = [] := by
    apply filter_eq_nil_iff.mpr
    intro p hp
    obtain ⟨s, hs, rfl⟩ := getElem_of_mem hp
    rw [length_drop] at hs
    have hnil := hrest (m + s) (Nat.le_add_right m s)
    rw [plan.pieceAt_eq_getElem (by omega)] at hnil
    simp [hnil]
  rw [plan.filter_take hwhole, hright, append_nil]

/-- The pieces that are sent, as they are read. -/
def Plan.loaded (plan : Plan α) : List (List (Option (List α))) :=
  (plan.pieces.filter fun p => !p.isEmpty).map fun p => p.map some

theorem Plan.take_isPrefix_loaded (hwhole : ∀ s < m, plan.pieceAt s ≠ []) :
    ((plan.pieces.take m).map fun p => p.map some) <+: plan.loaded := by
  refine ⟨((plan.pieces.drop m).filter fun p => !p.isEmpty).map fun p => p.map some, ?_⟩
  rw [← map_append, ← plan.filter_take hwhole, ← filter_append, take_append_drop]
  rfl

end

def Op.isBmi : Op → Bool
  | .bmi _ => true
  | .trove _ _ => false

/-- Two states of a buffer with the same number and piece. -/
structure Item.SameNumber (it it' : Item α) : Prop where
  seq : it.seq = it'.seq
  buffer : it.buffer = it'.buffer
  last : it.last = it'.last
  used : it.bufferUsed = it'.bufferUsed

variable {it : Item α}

theorem Item.SameNumber.update {items : Nat → Item α} {i : Nat} (h : it.SameNumber (items i))
    (j : Nat) : (update items i it j).SameNumber (items j) := by
  by_cases hj : j = i
  · rw [hj, update_self]
    exact h
  · rw [update_of_ne hj]
    exact ⟨rfl, rfl, rfl, rfl⟩

namespace FlowData

/-- A stack of `trove_read_callback_fn` loops, called from `fp_multiqueue_post` or from outside. -/
inductive Calls (n : Nat) : List Frame → Prop where
  | nil : Calls n []
  | start {i : Nat} (h : i ≤ n) : Calls n [.start i]
  | loop {q : Nat} {stack : List Frame} (h : Calls n stack) : Calls n (.sendLoop q :: stack)

/-- How many buffers `fp_multiqueue_post` has started. -/
def started (n : Nat) : List Frame → Nat
  | [] => n
  | .start i :: _ => i
  | _ :: stack => started n stack

/-- Up to which entry the reads of buffer `i` have been posted. -/
def posOf (stack : List Frame) (i length : Nat) : Nat :=
  match stack with
  | .postReads j k _ :: _ => if j = i then k else length
  | _ => length

theorem Calls.posOf {n : Nat} {stack : List Frame} (h : Calls n stack) (i length : Nat) :
    posOf stack i length = length := by
  cases h <;> rfl

/-- The buffers in use have different numbers, all of them given out. -/
structure Numbering (plan : Plan α) (f : FlowData α) : Prop where
  seqs : ∀ i, (f.items i).buffer = true → (f.items i).seq < f.nextSeq
  inj : ∀ i j, (f.items i).buffer = true → (f.items j).buffer = true →
    (f.items i).seq = (f.items j).seq → i = j
  last : ∀ i, (f.items i).last = true ↔
    f.reqProcDone = true ∧ (f.items i).buffer = true ∧ (f.items i).seq + 1 = f.nextSeq
  used : ∀ i, (f.items i).buffer = true →
    (f.items i).bufferUsed = Piece.size (plan.pieceAt (f.items i).seq)

/-- A buffer that is loading, with its reads posted up to `pos`. -/
structure Loading (plan : Plan α) (f : FlowData α) (i : Nat) : Prop where
  chained : (f.items i).Chained (plan.pieceAt (f.items i).seq)
    (posOf f.stack i (f.items i).resultChain.length)
  count : 0 < (f.items i).resultChainCount
  unposted : (f.items i).postedId = false
  unsent : f.nextSeqToSend ≤ (f.items i).seq
  buffer : (f.items i).buffer = true

/-- The buffer holds its piece, and is sent in its turn. -/
structure Loaded (plan : Plan α) (f : FlowData α) (i : Nat) : Prop where
  chain : (f.items i).resultChain = []
  count : (f.items i).resultChainCount = 0
  data : (f.items i).data = (plan.pieceAt (f.items i).seq).map some
  posted : (f.items i).postedId = true ↔ (f.items i).seq < f.nextSeqToSend
  nonempty : plan.pieceAt (f.items i).seq ≠ []
  buffer : (f.items i).buffer = true

/-- The buffer holds nothing. -/
structure Idle (plan : Plan α) (f : FlowData α) (i : Nat) : Prop where
  chain : (f.items i).resultChain = []
  count : (f.items i).resultChainCount = 0
  unposted : (f.items i).postedId = false
  stale : (f.items i).buffer = true →
    (f.items i).seq < f.nextSeqToSend ∨ plan.pieceAt (f.items i).seq = []

/-- **A read flow at work.** -/
structure Reading (plan : Plan α) (n : Nat) (f : FlowData α) : Prop where
  endpoints : f.endpoints = .troveBmi
  buffers : f.buffersPerFlow = n
  noError : f.errorCode = 0
  noFault : f.fault = false
  live : f.complete = false
  exact : Exact f.ops f.items
  pending : f.destPending = f.ops.countP Op.isBmi
  remaining : f.remaining = plan.pieces.drop f.nextSeq
  reqDone : f.reqProcDone = true ↔ 0 < f.nextSeq ∧ plan.pieces.length ≤ f.nextSeq
  le : f.nextSeqToSend ≤ f.nextSeq
  sent : f.sent = (plan.pieces.take f.nextSeqToSend).map fun p => p.map some
  whole : ∀ s < f.nextSeqToSend, plan.pieceAt s ≠ []
  lastPosted : f.destLastPosted = true ↔ f.reqProcDone = true ∧
    (plan.pieceAt (f.nextSeq - 1) = [] ∨ f.nextSeqToSend = f.nextSeq)
  initial : f.destLastPosted = true → f.initialPosts = 0
  numbering : f.Numbering plan
  empty : f.emptyList = []
  srcNodup : f.srcList.Nodup
  destNodup : f.destList.Nodup
  disjoint : ∀ i ∈ f.srcList, i ∉ f.destList
  src : ∀ i ∈ f.srcList, f.Loading plan i
  dest : ∀ i ∈ f.destList, f.Loaded plan i
  idle : ∀ i, i ∉ f.srcList → i ∉ f.destList → f.Idle plan i
  cover : ∀ s, f.nextSeqToSend ≤ s → s < f.nextSeq → plan.pieceAt s ≠ [] →
    ∃ i, (i ∈ f.srcList ∨ i ∈ f.destList) ∧ (f.items i).seq = s
  fresh : ∀ i, started n f.stack ≤ i → (f.items i).buffer = false
  frames : Calls n f.stack ∨ ∃ i k rest, Calls n rest ∧ i ∈ f.srcList ∧
    f.stack = .postReads i k (f.items i).resultChain.length :: rest ∧
    k < (f.items i).resultChain.length
  loops : ∀ q, .sendLoop q ∈ f.stack → (f.items q).buffer = true

/-- The flow goes on: buffers are at work, and none waits that could be sent. -/
structure Active (plan : Plan α) (n : Nat) (f : FlowData α) : Prop extends Reading plan n f where
  work : f.reqProcDone = true → f.srcList ≠ [] ∨ f.destList ≠ []
  busy : f.reqProcDone = false → ∀ i < started n f.stack, i ∈ f.srcList ∨ i ∈ f.destList
  blocked : (∀ q, .sendLoop q ∉ f.stack) → ∀ i ∈ f.destList, (f.items i).seq ≠ f.nextSeqToSend

/-- All pieces have been sent, and the flow is complete. -/
structure Finished (plan : Plan α) (n : Nat) (f : FlowData α) : Prop where
  endpoints : f.endpoints = .troveBmi
  buffers : f.buffersPerFlow = n
  noError : f.errorCode = 0
  noFault : f.fault = false
  complete : f.complete = true
  ops : f.ops = []
  srcEmpty : f.srcList = []
  reqDone : f.reqProcDone = true
  dest : ∀ i ∈ f.destList, (f.items i).seq < f.nextSeqToSend
  sent : f.sent = (plan.pieces.take f.nextSeqToSend).map fun p => p.map some
  all : plan.pieces.take f.nextSeqToSend = plan.pieces.filter fun p => !p.isEmpty
  frames : Calls n f.stack

section
variable {plan : Plan α} {f g : FlowData α} {n i j : Nat}

theorem Numbering.of_same (h : f.Numbering plan)
    (hitems : ∀ j, (g.items j).SameNumber (f.items j)) (hnext : g.nextSeq = f.nextSeq)
    (hreq : g.reqProcDone = f.reqProcDone) : g.Numbering plan where
  seqs j := by simpa only [(hitems j).buffer, (hitems j).seq, hnext] using h.seqs j
  inj j j' := by simpa only [(hitems _).buffer, (hitems _).seq] using h.inj j j'
  last j := by
    rw [(hitems j).last, (hitems j).buffer, (hitems j).seq, hnext, hreq]
    exact h.last j
  used j := by simpa only [(hitems j).buffer, (hitems j).used, (hitems j).seq] using h.used j

theorem update_of_not_mem {items : Nat → Item α} {j : Nat} {list : List Nat} (h : i ∉ list)
    (hj : j ∈ list) : update items i it j = items j :=
  update_of_ne (fun hji : j = i => h (hji ▸ hj)) ..

/-! What is known of a buffer is what its item says. -/

section
variable (hitem : g.items i = it) (hchain : it.resultChain = []) (hcount : it.resultChainCount = 0)
include hitem hchain hcount

theorem Loaded.of_item (hdata : it.data = (plan.pieceAt it.seq).map some)
    (hposted : it.postedId = true ↔ it.seq < g.nextSeqToSend) (hpiece : plan.pieceAt it.seq ≠ [])
    (hbuffer : it.buffer = true) : g.Loaded plan i := by
  subst hitem
  exact ⟨hchain, hcount, hdata, hposted, hpiece, hbuffer⟩

theorem Idle.of_item (hunposted : it.postedId = false)
    (hstale : it.buffer = true → it.seq < g.nextSeqToSend ∨ plan.pieceAt it.seq = []) :
    g.Idle plan i := by
  subst hitem
  exact ⟨hchain, hcount, hunposted, hstale⟩

end

theorem Loading.of_item (hitem : g.items i = it)
    (hchained : it.Chained (plan.pieceAt it.seq) (posOf g.stack i it.resultChain.length))
    (hcount : 0 < it.resultChainCount) (hunposted : it.postedId = false)
    (hunsent : g.nextSeqToSend ≤ it.seq) (hbuffer : it.buffer = true) : g.Loading plan i := by
  subst hitem
  exact ⟨hchained, hcount, hunposted, hunsent, hbuffer⟩

/-- What is known of buffer `i` where it is. -/
structure Placed (plan : Plan α) (f : FlowData α) (i : Nat) : Prop where
  disjoint : i ∈ f.srcList → i ∉ f.destList
  src : i ∈ f.srcList → f.Loading plan i
  dest : i ∈ f.destList → f.Loaded plan i
  idle : i ∉ f.srcList → i ∉ f.destList → f.Idle plan i

theorem Placed.of_src (hsrc : i ∈ f.srcList) (hdest : i ∉ f.destList) (h : f.Loading plan i) :
    f.Placed plan i :=
  ⟨fun _ => hdest, fun _ => h, fun hin => absurd hin hdest, fun hout => absurd hsrc hout⟩

theorem Placed.of_dest (hsrc : i ∉ f.srcList) (hdest : i ∈ f.destList) (h : f.Loaded plan i) :
    f.Placed plan i :=
  ⟨fun hin => absurd hin hsrc, fun hin => absurd hin hsrc, fun _ => h, fun _ hout => absurd hdest hout⟩

theorem Placed.of_idle (hsrc : i ∉ f.srcList) (hdest : i ∉ f.destList) (h : f.Idle plan i) :
    f.Placed plan i :=
  ⟨fun _ => hdest, fun hin => absurd hin hsrc, fun hin => absurd hin hdest, fun _ _ => h⟩

/-- **A step that turns buffer `i` into `it`**: what it leaves alone of the other buffers, where `i` is
then, and which pieces are in a queue. -/
structure Turns (plan : Plan α) (n : Nat) (f g : FlowData α) (i : Nat) (it : Item α) : Prop where
  items : g.items = update f.items i it
  src : ∀ j ≠ i, (j ∈ g.srcList ↔ j ∈ f.srcList) := by exact fun _ _ => Iff.rfl
  dest : ∀ j ≠ i, (j ∈ g.destList ↔ j ∈ f.destList) := by exact fun _ _ => Iff.rfl
  pos : ∀ j ≠ i, ∀ length, posOf g.stack j length = posOf f.stack j length := by
    exact fun _ _ _ => rfl
  sent : ∀ j ≠ i, (f.items j).buffer = true →
    ((f.items j).seq < g.nextSeqToSend ↔ (f.items j).seq < f.nextSeqToSend) := by
    exact fun _ _ _ => Iff.rfl
  loops : ∀ q ≠ i, .sendLoop q ∈ g.stack → .sendLoop q ∈ f.stack := by exact fun _ _ h => h
  started : started n g.stack = FlowData.started n f.stack := by rfl
  buffer : it.buffer = true
  lt : i < FlowData.started n f.stack
  placed : g.Placed plan i
  kept : i ∈ f.srcList ∨ i ∈ f.destList → g.nextSeqToSend ≤ (f.items i).seq →
    (i ∈ g.srcList ∨ i ∈ g.destList) ∧ it.seq = (f.items i).seq
  taken : ∀ s, g.nextSeqToSend ≤ s → s < g.nextSeq → plan.pieceAt s ≠ [] →
    (f.nextSeqToSend ≤ s ∧ s < f.nextSeq) ∨ (i ∈ g.srcList ∨ i ∈ g.destList) ∧ it.seq = s := by
    exact fun _ hs hs' _ => .inl ⟨hs, hs'⟩

/-- What `Reading` says of the buffers and the queues that they are in. -/
structure Queues (plan : Plan α) (n : Nat) (f : FlowData α) : Prop where
  disjoint : ∀ i ∈ f.srcList, i ∉ f.destList
  src : ∀ i ∈ f.srcList, f.Loading plan i
  dest : ∀ i ∈ f.destList, f.Loaded plan i
  idle : ∀ i, i ∉ f.srcList → i ∉ f.destList → f.Idle plan i
  cover : ∀ s, f.nextSeqToSend ≤ s → s < f.nextSeq → plan.pieceAt s ≠ [] →
    ∃ i, (i ∈ f.srcList ∨ i ∈ f.destList) ∧ (f.items i).seq = s
  fresh : ∀ i, started n f.stack ≤ i → (f.items i).buffer = false
  loops : ∀ q, .sendLoop q ∈ f.stack → (f.items q).buffer = true

namespace Turns

variable (hg : Turns plan n f g i it)
include hg

theorem item_of_ne (hj : j ≠ i) : g.items j = f.items j := by
  rw [hg.items, update_of_ne hj]

theorem item : g.items i = it := by
  rw [hg.items, update_self]

theorem placed_of_ne (hj : j ≠ i) (h : f.Reading plan n) : g.Placed plan j := by
  have hitem := hg.item_of_ne hj
  have hsrc := hg.src j hj
  have hdest := hg.dest j hj
  refine ⟨fun hin => ?_, fun hin => ?_, fun hin => ?_, fun hout hout' => ?_⟩
  · exact mt hdest.mp (h.disjoint j (hsrc.mp hin))
  · have hl := h.src j (hsrc.mp hin)
    refine .of_item hitem (hg.pos j hj _ ▸ hl.chained) hl.count hl.unposted ?_ hl.buffer
    exact Nat.le_of_not_lt (mt (hg.sent j hj hl.buffer).mp (Nat.not_lt.mpr hl.unsent))
  · have hl := h.dest j (hdest.mp hin)
    exact .of_item hitem hl.chain hl.count hl.data (hl.posted.trans (hg.sent j hj hl.buffer).symm)
      hl.nonempty hl.buffer
  · have hl := h.idle j (mt hsrc.mpr hout) (mt hdest.mpr hout')
    exact .of_item hitem hl.chain hl.count hl.unposted fun hb =>
      (hl.stale hb).imp_left (hg.sent j hj hb).mpr

/-- A turn of one buffer keeps the queues. -/
theorem queues (h : f.Reading plan n) : g.Queues plan n := by
  have hplaced : ∀ j, g.Placed plan j := by
    intro j
    by_cases hj : j = i
    · rw [hj]
      exact hg.placed
    · exact hg.placed_of_ne hj h
  refine ⟨fun j => (hplaced j).disjoint, fun j => (hplaced j).src, fun j => (hplaced j).dest,
    fun j => (hplaced j).idle, fun s hs hs' hpiece => ?_, fun j hj => ?_, fun q hq => ?_⟩
  · rcases hg.taken s hs hs' hpiece with ⟨hold, hold'⟩ | ⟨hin, hseq⟩
    · obtain ⟨j, hj, hseq⟩ := h.cover s hold hold' hpiece
      by_cases hji : j = i
      · subst hji
        obtain ⟨hin, hsame⟩ := hg.kept hj (hseq ▸ hs)
        exact ⟨j, hin, by rw [hg.item, hsame, hseq]⟩
      · exact ⟨j, hj.imp (hg.src j hji).mpr (hg.dest j hji).mpr, by rw [hg.item_of_ne hji, hseq]⟩
    · exact ⟨i, hin, by rw [hg.item, hseq]⟩
  · rw [hg.started] at hj
    rw [hg.item_of_ne (Nat.ne_of_gt (Nat.lt_of_lt_of_le hg.lt hj))]
    exact h.fresh j hj
  · by_cases hqi : q = i
    · rw [hqi, hg.item]
      exact hg.buffer
    · rw [hg.item_of_ne hqi]
      exact h.loops q (hg.loops q hqi hq)

end Turns

/-- What is left to show after a turn of one buffer. -/
theorem Reading.turn {P : FlowData α → Prop} (h : f.Reading plan n) (hg : Turns plan n f g i it)
    (hrest : g.Queues plan n → P g) : P g :=
  hrest (hg.queues h)

end

section
variable {plan : Plan α} {n : Nat} {f : FlowData α} {i k m : Nat} {rest : List Frame}

/-- The loop that posts reads is at an entry of a loading buffer. -/
theorem Reading.frame (h : f.Reading plan n) (hstack : f.stack = .postReads i k m :: rest) :
    Calls n rest ∧ i ∈ f.srcList ∧ m = (f.items i).resultChain.length ∧ k < m := by
  rcases h.frames with hcalls | ⟨i', k', rest', hcalls, hsrc, hst, hlt⟩
  · rw [hstack] at hcalls
    cases hcalls
  · rw [hstack] at hst
    cases hst
    exact ⟨hcalls, hsrc, rfl, hlt⟩

theorem Reading.calls (h : f.Reading plan n) {frame : Frame} (hstack : f.stack = frame :: rest)
    (hframe : ∀ i k m, frame ≠ .postReads i k m) : Calls n (frame :: rest) := by
  rcases h.frames with hcalls | ⟨i, k, _, _, _, hst, _⟩
  · exact hstack ▸ hcalls
  · rw [hstack] at hst
    cases hst
    exact absurd rfl (hframe i k _)

theorem Calls.of_loop (h : Calls n (.sendLoop i :: rest)) : Calls n rest := by
  cases h with
  | loop h => exact h

/-- The stack may shrink. -/
theorem Reading.restack (h : f.Reading plan n) {stack : List Frame} (hold : Calls n f.stack)
    (hcalls : Calls n stack) (hloops : ∀ q, .sendLoop q ∈ stack → .sendLoop q ∈ f.stack)
    (hle : started n f.stack ≤ started n stack) (posts : Int)
    (hposts : f.destLastPosted = true → posts = 0) :
    Reading plan n { f with stack := stack, initialPosts := posts } :=
  { h with
    numbering := { h.numbering with }
    initial := hposts
    src := by
      intro j hj
      refine { h.src j hj with chained := ?_ }
      have hchained := (h.src j hj).chained
      rw [hold.posOf] at hchained
      rw [hcalls.posOf]
      exact hchained
    dest := fun j hj => { h.dest j hj with }
    idle := fun j hj hj' => { h.idle j hj hj' with }
    fresh := fun j hj => h.fresh j (Nat.le_trans hle hj)
    frames := .inl hcalls
    loops := fun q hq => h.loops q (hloops q hq) }

theorem Reading.lt_started (h : f.Reading plan n) (hbuffer : (f.items i).buffer = true) :
    i < started n f.stack := by
  by_contra hge
  exact absurd (hbuffer.symm.trans (h.fresh i (Nat.le_of_not_lt hge))) Bool.noConfusion

/-- A buffer may be changed while it is loading. -/
theorem Active.touch (h : f.Active plan n) (it : Item α) (ops : List Op) (stack : List Frame)
    (hsrc : i ∈ f.srcList) (hnumber : it.SameNumber (f.items i))
    (hlength : it.resultChain.length = (f.items i).resultChain.length)
    (hunposted : it.postedId = false) (hcount : 0 < it.resultChainCount)
    (hchained : it.Chained (plan.pieceAt it.seq) (posOf stack i it.resultChain.length))
    (hexact : Exact ops (update f.items i it))
    (hops : ops.countP Op.isBmi = f.ops.countP Op.isBmi)
    (hpos : ∀ j, j ≠ i → ∀ length, posOf stack j length = posOf f.stack j length)
    (hstarted : started n stack = started n f.stack)
    (hloops : ∀ q, .sendLoop q ∈ stack ↔ .sendLoop q ∈ f.stack)
    (hframes : Calls n stack ∨ ∃ i k rest, Calls n rest ∧ i ∈ f.srcList ∧
      stack = .postReads i k (f.items i).resultChain.length :: rest ∧
      k < (f.items i).resultChain.length) :
    Active plan n { f with items := update f.items i it, ops := ops, stack := stack } := by
  have hload := h.src i hsrc
  have hsame := hnumber.update
  have hbuffer : it.buffer = true := hnumber.buffer.trans hload.buffer
  refine h.turn (P := Active plan n)
    { items := rfl
      pos := hpos
      loops := fun q _ => (hloops q).mp
      started := hstarted
      buffer := hbuffer
      lt := h.lt_started hload.buffer
      placed := .of_src hsrc (h.disjoint i hsrc) (.of_item (update_self ..) hchained hcount hunposted
        (hnumber.seq.symm ▸ hload.unsent) hbuffer)
      kept := fun _ _ => ⟨.inl hsrc, hnumber.seq⟩ } fun hqueues => ?_
  exact
    { hqueues, h with
      exact := hexact
      pending := by rw [h.pending, hops]
      numbering := h.numbering.of_same hsame rfl rfl
      frames := by
        refine hframes.imp_right fun hframe => ?_
        obtain ⟨j, k, rest, hcalls, hj, hst, hk⟩ := hframe
        have hj' : (update f.items i it j).resultChain.length =
            (f.items j).resultChain.length := by
          by_cases hji : j = i
          · rw [hji, update_self, hlength]
          · rw [update_of_ne hji]
        exact ⟨j, k, rest, hcalls, hj, by rw [hj']; exact hst, by rw [hj']; exact hk⟩
      busy := by
        rw [hstarted]
        exact h.busy
      blocked := by
        intro hno j hj
        rw [(hsame j).seq]
        exact h.blocked (fun q hq => hno q ((hloops q).mpr hq)) j hj }

theorem countP_isBmi_append_trove (ops : List Op) :
    (ops ++ [Op.trove i k]).countP Op.isBmi = ops.countP Op.isBmi := by
  rw [countP_append]
  rfl

variable {ops : List Op}

theorem countP_isBmi_erase_trove (h : Op.trove i k ∈ ops) :
    (ops.erase (Op.trove i k)).countP Op.isBmi = ops.countP Op.isBmi := by
  rw [(perm_cons_erase h).countP_eq Op.isBmi]
  rfl

theorem countP_isBmi_erase_bmi (h : Op.bmi i ∈ ops) :
    ops.countP Op.isBmi = (ops.erase (Op.bmi i)).countP Op.isBmi + 1 := by
  rw [(perm_cons_erase h).countP_eq Op.isBmi, countP_cons_of_pos rfl]

/-- The read of one entry is posted. -/
theorem Active.post_read (h : f.Active plan n) (hstack : f.stack = .postReads i k m :: rest) :
    Active plan n { f with
      items := update f.items i ((f.items i).setPosted k true)
      ops := f.ops ++ [Op.trove i k]
      stack := if k + 1 < m then .postReads i (k + 1) m :: rest else rest } := by
  obtain ⟨hcalls, hsrc, rfl, hlt⟩ := h.frame hstack
  have hload := h.src i hsrc
  have hpos : posOf f.stack i (f.items i).resultChain.length = k := by
    rw [hstack]
    exact if_pos rfl
  have hchained := hload.chained
  rw [hpos] at hchained
  obtain ⟨e, he⟩ := hchained.exists_entry (by rw [← hchained.length_chain]; exact hlt)
  have hlen : ((f.items i).setPosted k true).resultChain.length = (f.items i).resultChain.length :=
    length_modify ..
  refine h.touch ((f.items i).setPosted k true) (f.ops ++ [Op.trove i k]) _ hsrc
    ⟨rfl, rfl, rfl, rfl⟩ hlen hload.unposted hload.count ?_
    (h.exact.postTrove he (hchained.ahead he (Nat.le_refl k)).1)
    (countP_isBmi_append_trove f.ops) ?_ ?_ ?_ ?_
  · have hnew : posOf (if k + 1 < (f.items i).resultChain.length then
        .postReads i (k + 1) (f.items i).resultChain.length :: rest else rest) i
        ((f.items i).setPosted k true).resultChain.length = k + 1 := by
      split
      next => exact if_pos rfl
      next hge =>
        rw [hcalls.posOf]
        omega
    rw [hnew]
    exact hchained.post
  · intro j hj length
    have hold : posOf f.stack j length = length := by
      rw [hstack]
      exact if_neg (Ne.symm hj)
    rw [hold]
    split
    next => exact if_neg (Ne.symm hj)
    next => exact hcalls.posOf j length
  · rw [hstack]
    split <;> rfl
  · intro q
    rw [hstack]
    split <;> simp
  · split
    next hmore => exact .inr ⟨i, k + 1, rest, hcalls, hsrc, rfl, hmore⟩
    next => exact .inl hcalls

/-- A read that is under way is that of a loading buffer. -/
theorem Reading.posted (h : f.Reading plan n) (hop : .trove i k ∈ f.ops) :
    i ∈ f.srcList ∧ ∃ e, (f.items i).resultChain[k]? = some e ∧ e.postedId = true := by
  have hposted := (h.exact.trove i k).mp hop
  refine ⟨?_, hposted⟩
  by_contra hsrc
  have hnil : (f.items i).resultChain = [] := by
    by_cases hdest : i ∈ f.destList
    · exact (h.dest i hdest).chain
    · exact (h.idle i hsrc hdest).chain
  exact Item.not_posted_of_nil hnil hposted

/-- One of several reads of a buffer completes. -/
theorem Active.read_done (h : f.Active plan n) (hop : .trove i k ∈ f.ops)
    (hmore : 1 < (f.items i).resultChainCount) :
    Active plan n { f with
      items := update f.items i
        { ((f.items i).move k).setPosted k false with
          resultChainCount := (f.items i).resultChainCount - 1 }
      ops := f.ops.erase (.trove i k) } := by
  obtain ⟨hsrc, e, he, hp⟩ := h.posted hop
  have hload := h.src i hsrc
  have hlen : (((f.items i).move k).setPosted k false).resultChain.length =
      (f.items i).resultChain.length := length_modify ..
  refine h.touch _ (f.ops.erase (.trove i k)) f.stack hsrc ⟨rfl, rfl, rfl, rfl⟩ hlen hload.unposted
    (Nat.sub_pos_of_lt hmore) ?_ ?_ (countP_isBmi_erase_trove hop) (fun _ _ _ => rfl) rfl
    (fun _ => Iff.rfl) h.frames
  · rw [hlen]
    exact hload.chained.finish he hp
  · exact h.exact.unpostTrove rfl fun _ => Iff.rfl

/-- With its last read a buffer is loaded. -/
theorem Active.read_last (h : f.Active plan n) (hop : .trove i k ∈ f.ops)
    (hlast : (f.items i).resultChainCount ≤ 1) (hcalls : Calls n f.stack) :
    Active plan n { f with
      items := update f.items i (((f.items i).move k).setPosted k false).reset
      ops := f.ops.erase (.trove i k)
      srcList := f.srcList.erase i
      destList := f.destList.erase i ++ [i]
      emptyList := f.emptyList.erase i
      stack := .sendLoop i :: f.stack } := by
  obtain ⟨hsrc, e, he, hp⟩ := h.posted hop
  have hload := h.src i hsrc
  have hdest : i ∉ f.destList := h.disjoint i hsrc
  rw [erase_of_not_mem hdest, h.empty]
  have hsame : ∀ j, (update f.items i (((f.items i).move k).setPosted k false).reset
      j).SameNumber (f.items j) :=
    Item.SameNumber.update ⟨rfl, rfl, rfl, rfl⟩
  have hlinked : i ∈ f.destList ++ [i] := mem_append_right _ (mem_singleton.mpr rfl)
  have hpiece : plan.pieceAt (f.items i).seq ≠ [] := by
    intro hnil
    have hlen := hload.chained.length_chain
    rw [hnil] at hlen
    rw [length_eq_zero_iff.mp hlen] at he
    cases he
  refine h.turn (P := Active plan n)
    { items := rfl
      src := fun j hj => mem_erase_of_ne hj
      dest := by
        intro j hj
        simp [hj]
      pos := by
        intro j _ length
        rw [hcalls.posOf]
        rfl
      loops := by
        intro q hq hloop
        rcases mem_cons.mp hloop with hloop | hloop
        · cases hloop
          exact absurd rfl hq
        · exact hloop
      buffer := hload.buffer
      lt := h.lt_started hload.buffer
      placed := .of_dest h.srcNodup.not_mem_erase hlinked (.of_item (update_self ..) rfl rfl
        (hload.chained.finish_last he hp hlast)
        (iff_of_false (Bool.eq_false_iff.mp hload.unposted) (Nat.not_lt.mpr hload.unsent)) hpiece
        hload.buffer)
      kept := fun _ _ => ⟨.inr hlinked, rfl⟩ } fun hqueues => ?_
  exact
    { hqueues, h with
      exact := by
        refine h.exact.unpostTrove rfl fun k' => ?_
        exact iff_of_false (Item.not_posted_of_nil rfl) (hload.chained.not_posted_last he hp hlast)
      pending := by rw [h.pending, countP_isBmi_erase_trove hop]
      numbering := h.numbering.of_same hsame rfl rfl
      empty := rfl
      srcNodup := h.srcNodup.erase i
      destNodup := nodup_append_comm.mpr (h.destNodup.cons hdest)
      frames := .inl (.loop hcalls)
      work := by
        intro _
        exact .inr (by simp)
      busy := by
        intro hreq j hj
        by_cases hji : j = i
        · exact .inr (hji ▸ hlinked)
        · exact (h.busy hreq j hj).imp (mem_erase_of_ne hji).mpr (mem_append_left _)
      blocked := by
        intro hno
        exact absurd mem_cons_self (hno i) }

/-- Buffer `q` has been handed to the network. -/
def handed (f : FlowData α) (q : Nat) : FlowData α :=
  { f with
    destPending := f.destPending + 1
    sent := f.sent ++ [(f.items q).data]
    nextSeqToSend := f.nextSeqToSend + 1
    initialPosts := if (f.items q).last then 0 else f.initialPosts
    destLastPosted := f.destLastPosted || (f.items q).last
    stack := .sendLoop q :: f.stack }

section
variable {q : Nat} (h : f.Active plan n) (hstack : f.stack = .sendLoop i :: rest)
  (hq : q ∈ f.destList) (hseq : (f.items q).seq = f.nextSeqToSend)
include h hstack hq hseq

/-- The send of the next piece leaves every other buffer as it is. -/
theorem Active.post_send_turns : Turns plan n f
    { f.handed q with
      items := update f.items q { f.items q with postedId := true }
      ops := f.ops ++ [Op.bmi q]
      stack := .sendLoop q :: rest } q { f.items q with postedId := true } := by
  dsimp only [handed]
  have hload := h.dest q hq
  -- no other buffer has the number
  have hother : ∀ j, j ≠ q → (f.items j).buffer = true → (f.items j).seq ≠ f.nextSeqToSend := by
    intro j hj hb hs
    exact hj (h.numbering.inj j q hb hload.buffer (hs.trans hseq.symm))
  exact
    { items := rfl
      pos := by
        intro j _ length
        rw [hstack]
        rfl
      sent := by
        intro j hj hb
        have hne := hother j hj hb
        dsimp only
        omega
      loops := by
        intro j hj hloop
        rw [hstack]
        refine mem_cons_of_mem _ ((mem_cons.mp hloop).resolve_left fun heq => ?_)
        cases heq
        exact hj rfl
      started := by
        rw [hstack]
        rfl
      buffer := hload.buffer
      lt := h.lt_started hload.buffer
      placed := .of_dest (fun hsrc => h.disjoint q hsrc hq) hq (.of_item (update_self ..) hload.chain
        hload.count hload.data (iff_of_true rfl (by rw [hseq]; exact Nat.lt_succ_self _))
        hload.nonempty hload.buffer)
      kept := fun _ _ => ⟨.inr hq, rfl⟩
      taken := fun s hs hs' _ => .inl ⟨Nat.le_of_succ_le hs, hs'⟩ }

/-- The piece with the next number is sent, and is then the last of those that have been. -/
theorem Active.post_send : Active plan n
    { f.handed q with
      items := update f.items q { f.items q with postedId := true }
      ops := f.ops ++ [Op.bmi q]
      stack := .sendLoop q :: rest } := by
  have hload := h.dest q hq
  have hlt : f.nextSeqToSend < f.nextSeq := by
    rw [← hseq]
    exact h.numbering.seqs q hload.buffer
  have hunposted : (f.items q).postedId = false := by
    have hnot := mt hload.posted.mp (by rw [hseq]; exact Nat.lt_irrefl _)
    simpa using hnot
  refine h.turn (P := Active plan n) (h.post_send_turns hstack hq hseq) fun hqueues => ?_
  dsimp only [handed] at hqueues ⊢
  exact
    { hqueues, h with
      exact := h.exact.postBmi hunposted rfl fun _ => Iff.rfl
      pending := by
        rw [h.pending, countP_append]
        rfl
      le := hlt
      sent := by
        have hpiece := hload.nonempty
        have hdata := hload.data
        rw [hseq] at hpiece hdata
        rw [Plan.take_add_one plan hpiece, map_append, h.sent, hdata]
        rfl
      whole := by
        intro s hs
        rcases Nat.lt_succ_iff_lt_or_eq.mp hs with hs | hs
        · exact h.whole s hs
        · rw [hs, ← hseq]
          exact hload.nonempty
      lastPosted := by
        dsimp only
        rw [Bool.or_eq_true, h.lastPosted, h.numbering.last q, hseq]
        have hne : f.nextSeqToSend ≠ f.nextSeq := Nat.ne_of_lt hlt
        simp only [hne, or_false, hload.buffer, true_and]
        exact and_or_left.symm
      initial := by
        intro hl
        cases hlast : (f.items q).last with
        | true => rfl
        | false =>
          rw [hlast, Bool.or_false] at hl
          exact h.initial hl
      numbering := h.numbering.of_same (Item.SameNumber.update ⟨rfl, rfl, rfl, rfl⟩) rfl rfl
      frames := .inl (.loop (h.calls hstack (by simp)).of_loop)
      busy := by
        intro hreq j hj
        apply h.busy hreq
        rw [hstack]
        exact hj
      blocked := by
        intro hno
        exact absurd mem_cons_self (hno q) }

end

section
variable (h : f.Reading plan n)
include h

/-- A send that is under way is that of an earlier piece. -/
theorem Reading.sending (hop : .bmi i ∈ f.ops) :
    i ∈ f.destList ∧ (f.items i).seq < f.nextSeqToSend := by
  have hposted := (h.exact.bmi i).mp hop
  have hdest : i ∈ f.destList := by
    by_contra hdest
    have hunposted : (f.items i).postedId = false := by
      by_cases hsrc : i ∈ f.srcList
      · exact (h.src i hsrc).unposted
      · exact (h.idle i hsrc hdest).unposted
    rw [hunposted] at hposted
    cases hposted
  exact ⟨hdest, (h.dest i hdest).posted.mp hposted⟩

/-- A send completes, and its buffer is idle. -/
theorem Reading.send_done (hop : .bmi i ∈ f.ops) (hcalls : Calls n f.stack) :
    Reading plan n { f with
      items := update f.items i { f.items i with postedId := false }
      ops := f.ops.erase (.bmi i)
      destPending := f.destPending - 1
      srcList := f.srcList.erase i
      destList := f.destList.erase i
      emptyList := f.emptyList.erase i } := by
  obtain ⟨hdest, hsent⟩ := h.sending hop
  have hload := h.dest i hdest
  rw [h.empty]
  refine h.turn (P := Reading plan n)
    { items := rfl
      src := fun j hj => mem_erase_of_ne hj
      dest := fun j hj => mem_erase_of_ne hj
      buffer := hload.buffer
      lt := h.lt_started hload.buffer
      placed := .of_idle h.srcNodup.not_mem_erase h.destNodup.not_mem_erase (.of_item (update_self ..)
        hload.chain hload.count rfl fun _ => .inl hsent)
      kept := fun _ hge => absurd hsent (Nat.not_lt.mpr hge) } fun hqueues => ?_
  exact
    { hqueues, h with
      exact := h.exact.unpostBmi rfl fun _ => Iff.rfl
      pending := by
        rw [h.pending, countP_isBmi_erase_bmi hop]
        push_cast
        omega
      numbering := h.numbering.of_same (Item.SameNumber.update ⟨rfl, rfl, rfl, rfl⟩) rfl rfl
      empty := rfl
      srcNodup := h.srcNodup.erase i
      destNodup := h.destNodup.erase i
      frames := .inl hcalls }

/-- The next piece of the plan is the one to be loaded. -/
theorem Reading.next_eq : f.next = plan.pieceAt f.nextSeq := by
  rw [next, h.remaining, headD_eq_head?_getD, head?_drop, Plan.pieceAt,
    getD_eq_getElem?_getD]

theorem Reading.tail_isEmpty :
    f.remaining.tail.isEmpty = true ↔ plan.pieces.length ≤ f.nextSeq + 1 := by
  rw [h.remaining, List.tail_drop, List.isEmpty_iff, List.drop_eq_nil_iff]

theorem Reading.tail_of_nil (hnil : f.next = []) : f.remaining.tail.isEmpty = true := by
  apply h.tail_isEmpty.mpr
  by_contra hlt
  rw [h.next_eq] at hnil
  exact plan.pieceAt_ne_nil (Nat.lt_of_not_le hlt) hnil

theorem Reading.not_lastPosted (hreq : f.reqProcDone = false) : f.destLastPosted = false := by
  have hiff := h.lastPosted
  rw [hreq] at hiff
  simpa using hiff

theorem Reading.not_last (hreq : f.reqProcDone = false) (i : Nat) : (f.items i).last = false := by
  have hiff := h.numbering.last i
  rw [hreq] at hiff
  simpa using hiff

theorem Reading.used_ne_zero (hi : i ∈ f.destList) : (f.items i).bufferUsed ≠ 0 := by
  rw [h.numbering.used i (h.dest i hi).buffer]
  exact Nat.ne_of_gt (plan.size_pos (h.dest i hi).nonempty)

end

/-- The buffer that `bmi_send_callback_fn` gives the next piece. -/
structure Takes (f : FlowData α) (it : Item α) : Prop where
  buffer : it.buffer = true
  seq : it.seq = f.nextSeq
  used : it.bufferUsed = Piece.size f.next
  last : it.last = f.remaining.tail.isEmpty
  unposted : it.postedId = false
  chained : it.Chained f.next 0

theorem Takes.not_posted (h : f.Takes it) : ¬ it.Posted k := by
  intro hposted
  obtain ⟨e, he, hp⟩ := hposted
  exact Nat.not_lt_zero k (h.chained.posted he hp).1

theorem Takes.exact (ht : f.Takes it) (h : Exact f.ops f.items) (hidle : f.Idle plan i) :
    Exact f.ops (update f.items i it) := by
  refine h.update (by rw [ht.unposted, hidle.unposted]) fun k => ?_
  exact iff_of_false ht.not_posted (Item.not_posted_of_nil hidle.chain)

theorem Takes.numbering (ht : f.Takes it) (h : f.Reading plan n) (hreq : f.reqProcDone = false)
    {g : FlowData α} (hitems : g.items = update f.items i it)
    (hnext : g.nextSeq = f.nextSeq + 1) (hdone : g.reqProcDone = f.remaining.tail.isEmpty) :
    g.Numbering plan := by
  have hlt := h.numbering.seqs
  refine ⟨?_, ?_, ?_, ?_⟩
  · intro j hj
    rw [hitems, update_apply] at hj ⊢
    rw [hnext]
    split at hj
    next hji =>
      rw [if_pos hji, ht.seq]
      exact Nat.lt_succ_self _
    next hji =>
      rw [if_neg hji]
      exact Nat.lt_succ_of_lt (hlt j hj)
  · intro j j' hj hj' hseq
    rw [hitems, update_apply, update_apply] at hseq
    rw [hitems, update_apply] at hj hj'
    split_ifs at hj hj' hseq with hji hji' hji'
    · rw [hji, hji']
    · have := hlt j' hj'
      rw [ht.seq] at hseq
      omega
    · have := hlt j hj
      rw [ht.seq] at hseq
      omega
    · exact h.numbering.inj j j' hj hj' hseq
  · intro j
    rw [hitems, update_apply, hnext, hdone]
    split
    next => rw [ht.last, ht.buffer, ht.seq]; simp
    next =>
      rw [h.numbering.last j, hreq]
      refine iff_of_false (by simp) ?_
      intro hj
      have := hlt j hj.2.1
      omega
  · intro j hj
    rw [hitems, update_apply] at hj ⊢
    split at hj
    next hji => rw [if_pos hji, ht.used, ht.seq, h.next_eq]
    next hji =>
      rw [if_neg hji]
      exact h.numbering.used j hj

section
variable (h : f.Reading plan n) (ht : f.Takes it) (hsrc : i ∉ f.srcList) (hdest : i ∉ f.destList)
  (hreq : f.reqProcDone = false)
include h ht hsrc hdest hreq

/-- An idle buffer takes the next piece. -/
theorem Reading.load_piece (hcalls : Calls n f.stack) (hi : i < started n f.stack) (hne : f.next ≠ [])
    (hbusy : ∀ j < started n f.stack, j ≠ i → j ∈ f.srcList ∨ j ∈ f.destList)
    (hblocked : (∀ q, .sendLoop q ∉ f.stack) → ∀ j ∈ f.destList, (f.items j).seq ≠ f.nextSeqToSend)
    (total : Nat) :
    Active plan n { f with
      items := update f.items i it
      srcList := f.srcList ++ [i]
      remaining := f.remaining.tail
      totalBytesProcessed := total
      nextSeq := f.nextSeq + 1
      reqProcDone := f.remaining.tail.isEmpty
      stack := .postReads i 0 f.next.length :: f.stack } := by
  have hidle := h.idle i hsrc hdest
  have hlen : it.resultChain.length = f.next.length := ht.chained.length_chain
  have hpos : 0 < f.next.length := length_pos_iff.mpr hne
  have hit : update f.items i it i = it := update_self ..
  have hlinked : i ∈ f.srcList ++ [i] := mem_append_right _ (mem_singleton.mpr rfl)
  refine h.turn (P := Active plan n)
    { items := rfl
      src := by
        intro j hj
        simp [hj]
      pos := by
        intro j hj length
        rw [hcalls.posOf]
        exact if_neg (Ne.symm hj)
      loops := fun q _ hq => by simpa using hq
      buffer := ht.buffer
      lt := hi
      placed := by
        obtain ⟨e, he⟩ := ht.chained.exists_entry hpos
        refine .of_src hlinked hdest (.of_item hit ?_ (ht.chained.count_pos
          (ht.chained.ahead he (Nat.le_refl 0)).2) ht.unposted (ht.seq ▸ h.le) ht.buffer)
        have hzero : posOf (.postReads i 0 f.next.length :: f.stack) i
            it.resultChain.length = 0 := if_pos rfl
        rw [hzero, ht.seq, ← h.next_eq]
        exact ht.chained
      kept := fun hin => absurd hin (not_or.mpr ⟨hsrc, hdest⟩)
      taken := by
        intro s hs hs' _
        rcases Nat.lt_succ_iff_lt_or_eq.mp hs' with hs' | hs'
        · exact .inl ⟨hs, hs'⟩
        · exact .inr ⟨.inl hlinked, by rw [ht.seq, hs']⟩ } fun hqueues => ?_
  exact
    { hqueues, h with
      exact := ht.exact h.exact hidle
      remaining := by
        rw [h.remaining, tail_drop]
      reqDone := by
        rw [h.tail_isEmpty]
        simp
      le := Nat.le_succ_of_le h.le
      lastPosted := by
        dsimp only
        rw [h.not_lastPosted hreq, Nat.add_sub_cancel, ← h.next_eq]
        have hle := h.le
        refine iff_of_false (by simp) ?_
        intro hl
        rcases hl.2 with hnil | heq
        · exact hne hnil
        · omega
      initial := by
        rw [h.not_lastPosted hreq]
        simp
      numbering := ht.numbering h hreq rfl rfl rfl
      srcNodup := nodup_append_comm.mpr (h.srcNodup.cons hsrc)
      frames := by
        refine .inr ⟨i, 0, f.stack, hcalls, hlinked, ?_, ?_⟩ <;> dsimp only <;> rw [hit, hlen]
        exact hpos
      work := by
        intro _
        exact .inl (by simp)
      busy := by
        intro _ j hj
        by_cases hji : j = i
        · exact .inl (hji ▸ hlinked)
        · exact (hbusy j hj hji).imp_left (mem_append_left _)
      blocked := by
        intro hno j hj
        dsimp only
        rw [update_of_not_mem hdest hj]
        exact hblocked (fun q hq => hno q (mem_cons_of_mem _ hq)) j hj }

/-- The request turns out to be over. -/
theorem Reading.load_empty (hcalls : Calls n f.stack) (hi : i < started n f.stack) (hnil : f.next = [])
    (total : Nat) :
    Reading plan n { f with
      items := update f.items i it
      remaining := f.remaining.tail
      totalBytesProcessed := total
      nextSeq := f.nextSeq + 1
      reqProcDone := true
      initialPosts := 0
      destLastPosted := true } := by
  have hidle := h.idle i hsrc hdest
  have hpiece : plan.pieceAt f.nextSeq = [] := by
    rw [← h.next_eq]
    exact hnil
  have hdone : f.remaining.tail.isEmpty = true := h.tail_of_nil hnil
  have hend : plan.pieces.length ≤ f.nextSeq + 1 := h.tail_isEmpty.mp hdone
  have hchain : it.resultChain = [] := by
    apply length_eq_zero_iff.mp
    rw [ht.chained.length_chain, hnil]
    rfl
  refine h.turn (P := Reading plan n)
    { items := rfl
      buffer := ht.buffer
      lt := hi
      placed := by
        refine .of_idle hsrc hdest (.of_item (update_self ..) hchain ?_ ht.unposted fun _ => .inr ?_)
        · rw [ht.chained.count, length_eq_zero_iff.mp (ht.chained.length.trans (by rw [hnil]; rfl))]
          rfl
        · rw [ht.seq]
          exact hpiece
      kept := fun hin => absurd hin (not_or.mpr ⟨hsrc, hdest⟩)
      taken := by
        intro s hs hs' hne
        rcases Nat.lt_succ_iff_lt_or_eq.mp hs' with hs' | hs'
        · exact .inl ⟨hs, hs'⟩
        · exact absurd hpiece (hs' ▸ hne) } fun hqueues => ?_
  exact
    { hqueues, h with
      exact := ht.exact h.exact hidle
      remaining := by
        rw [h.remaining, tail_drop]
      reqDone := iff_of_true rfl ⟨Nat.succ_pos _, hend⟩
      le := Nat.le_succ_of_le h.le
      lastPosted := iff_of_true rfl ⟨rfl, .inl hpiece⟩
      initial := fun _ => rfl
      numbering := ht.numbering h hreq rfl rfl hdone.symm
      frames := .inl hcalls }

end

theorem Reading.exists_sending (h : f.Reading plan n) (hpend : f.destPending ≠ 0) :
    ∃ i, .bmi i ∈ f.ops := by
  have hpos : 0 < f.ops.countP Op.isBmi := by
    have hp := h.pending
    omega
  obtain ⟨op, hop, hbmi⟩ := countP_pos_iff.mp hpos
  cases op with
  | bmi i => exact ⟨i, hop⟩
  | trove i k => cases hbmi

/-- When every buffer is idle, everything has been sent. -/
theorem Reading.all_sent (h : f.Reading plan n) (hreq : f.reqProcDone = true) (hsrc : f.srcList = [])
    (hdest : f.destList = []) :
    f.ops = [] ∧ plan.pieces.take f.nextSeqToSend = plan.pieces.filter fun p => !p.isEmpty := by
  constructor
  · cases hops : f.ops with
    | nil => rfl
    | cons op ops =>
      have hop : op ∈ f.ops := by
        rw [hops]
        exact mem_cons_self
      cases op with
      | bmi i =>
        have hd := (h.sending hop).1
        rw [hdest] at hd
        cases hd
      | trove i k =>
        have hs := (h.posted hop).1
        rw [hsrc] at hs
        cases hs
  · apply plan.take_eq_filter h.whole
    intro s hs
    by_cases hlt : s < f.nextSeq
    · by_contra hne
      obtain ⟨j, hj, -⟩ := h.cover s hs hlt hne
      rw [hsrc, hdest] at hj
      simp at hj
    · have hend := (h.reqDone.mp hreq).2
      exact plan.pieceAt_eq_nil (by omega)

/-- Where a piece waits for its turn, an earlier one is being read. -/
theorem Active.waiting (h : f.Active plan n) (hno : ∀ q, .sendLoop q ∉ f.stack) (hi : i ∈ f.destList)
    (hge : f.nextSeqToSend ≤ (f.items i).seq) : f.srcList ≠ [] := by
  have hne := h.blocked hno i hi
  have hlt := h.numbering.seqs i (h.dest i hi).buffer
  have hpiece : plan.pieceAt f.nextSeqToSend ≠ [] := by
    apply plan.pieceAt_ne_nil
    -- there is a piece with a later number
    have hlen := plan.lt_length (h.dest i hi).nonempty
    omega
  obtain ⟨j, hj, hseq⟩ := h.cover _ (Nat.le_refl _) (by omega) hpiece
  rcases hj with hj | hj
  · exact ne_nil_of_mem hj
  · exact absurd hseq (h.blocked hno j hj)

end

end FlowData

end Pvfs.Flow
