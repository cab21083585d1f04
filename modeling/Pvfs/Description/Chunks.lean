import Pvfs.Lib.Run
import Pvfs.Description.Process

/-! # The chunks a request decodes to

The level stack of `PINT_process_request` is an explicit continuation. This file gives
its meaning: `chain r base` lists, in order, the contiguous chunks the decoder produces
for one copy of `r` placed at `base`, and `RequestState.pending` reads off a suspended
state the chunks it still has to produce.

The list follows the decoder's own contiguity tests, not the typemap of the request; when
the two differ is a separate question. What is proved here is that the machine *is* the
list: `Rep req P` relates a state to its pending chunks, `settle` brings the next chunk
to the top of the stack without touching the list, and finishing that chunk drops it. -/

namespace Pvfs.Description

open Pvfs.Lib List Function Request

/-! ## Well-formed records -/

/-- What request processing relies on, and every constructor provides. -/
inductive Request.Wf : Request → Prop where
  | packed {f : RequestFields} (ho : f.offset = 0) (ha : 0 < f.aggregateSize)
      (hd : 0 < f.depth) (hx : f.ub - f.lb = f.aggregateSize) : Wf (.node f .null .null)
  | last {f : RequestFields} {e : Request} (he : Wf e) (hn : 0 < f.numEreqs)
      (hb : 0 < f.numBlocks) (ha : f.aggregateSize = e.aggregateSize * f.numBlocks * f.numEreqs)
      (hd : e.depth + 1 ≤ f.depth) : Wf (.node f e .null)
  | more {f : RequestFields} {e s : Request} (he : Wf e) (hs : Wf s) (hse : s.ereq ≠ .null)
      (hn : 0 < f.numEreqs) (hb : 0 < f.numBlocks)
      (ha : f.aggregateSize = e.aggregateSize * f.numBlocks * f.numEreqs + s.aggregateSize)
      (hd : e.depth + 1 ≤ f.depth) (hds : s.depth ≤ f.depth) : Wf (.node f e s)

namespace Request.Wf

variable {r : Request}

theorem ne_null (h : r.Wf) : r ≠ .null := by
  cases h <;> simp

theorem depth_pos (h : r.Wf) : 0 < r.depth := by
  cases h with
  | packed _ _ hd _ => exact hd
  | last _ _ _ _ hd | more _ _ _ _ _ _ hd _ => exact Nat.lt_of_lt_of_le (Nat.succ_pos _) hd

theorem aggregateSize_pos (h : r.Wf) : 0 < r.aggregateSize := by
  induction h with
  | packed _ ha _ _ => exact ha
  | last he hn hb ha _ ih =>
    rw [aggregateSize_node, ha]
    exact Int.mul_pos (Int.mul_pos ih (by omega)) (by omega)
  | more he hs _ hn hb ha _ _ ih ihs =>
    rw [aggregateSize_node, ha]
    exact Int.add_pos (Int.mul_pos (Int.mul_pos ih (by omega)) (by omega)) ihs

theorem entry (h : r.Wf) (hne : r.ereq ≠ .null) :
    r.ereq.Wf ∧ 0 < r.numEreqs ∧ 0 < r.numBlocks ∧ r.ereq.depth + 1 ≤ r.depth := by
  cases h with
  | packed => exact absurd rfl hne
  | last he hn hb _ hd | more he _ _ hn hb _ hd _ => exact ⟨he, hn, hb, hd⟩

theorem rest (h : r.Wf) (hne : r.sreq ≠ .null) :
    r.sreq.Wf ∧ r.sreq.ereq ≠ .null ∧ r.sreq.depth ≤ r.depth := by
  cases h with
  | packed | last => exact absurd rfl hne
  | more _ hs hse _ _ _ _ hds => exact ⟨hs, hse, hds⟩

theorem aggregateSize_eq (h : r.Wf) (hne : r.ereq ≠ .null) :
    r.aggregateSize = r.ereq.aggregateSize * r.numBlocks * r.numEreqs + r.sreq.aggregateSize := by
  cases h with
  | packed => exact absurd rfl hne
  | last _ _ _ ha _ => exact ha.trans (Int.add_zero _).symm
  | more _ _ _ _ _ ha _ _ => exact ha

/-- Induction over the entries of a request: into the element type, unless that is packed bytes,
and along the sequence. -/
theorem entryInduction (Q : Request → Prop)
    (step : ∀ r : Request, r.Wf → r.ereq ≠ .null → (r.ereq.ereq ≠ .null → Q r.ereq) →
      (r.sreq ≠ .null → Q r.sreq) → Q r)
    (h : r.Wf) : r.ereq ≠ .null → Q r := by
  induction h with
  | packed => exact fun hne => absurd rfl hne
  | last he hn hb ha hd ih =>
    exact fun hne => step _ (.last he hn hb ha hd) hne ih fun hs => absurd rfl hs
  | more he hs hse hn hb ha hd hds ih ihs =>
    exact fun hne => step _ (.more he hs hse hn hb ha hd hds) hne ih fun _ => ihs hse

end Request.Wf

/-! ## Chunks -/

/-- The chunks of one copy of the sequence `rq` whose first element starts at `base`. -/
def Request.chain : Request → Int → List (Int × Int)
  | .null, _ => []
  | .node f e s, base =>
    ((range f.numBlocks).flatMap fun b : Nat =>
      let p := base + f.offset + f.stride * b
      if e.isContig then [(p + (e.offset + e.disp), e.aggregateSize * f.numEreqs)]
      else if e.isWhole then [(e.offset + p + e.disp, f.numEreqs * e.aggregateSize)]
      else (range f.numEreqs).flatMap fun i : Nat => e.chain (p + i * e.extent)) ++
    s.chain base

/-- Copies `el`, `el + 1`, …, `maxel - 1` of a sequence. -/
def Request.copies (r : Request) (chunkOffset el maxel : Int) : List (Int × Int) :=
  (range (maxel - el).toNat).flatMap fun i : Nat =>
    r.chain (chunkOffset + (el + i) * r.extent)

/-- What a level pushed for `n` copies of `r` at `chunkOffset` decodes to. -/
def Request.tiles (r : Request) (chunkOffset n : Int) : List (Int × Int) :=
  if r.isWhole then [(r.offset + chunkOffset + r.disp, n * r.aggregateSize)]
  else r.copies chunkOffset 0 n

/-- What block `b` of an entry decodes to. -/
def Request.block (rq : Request) (base : Int) (b : Nat) : List (Int × Int) :=
  let p := base + rq.offset + rq.stride * b
  if rq.ereq.isContig then [(p + rq.disp, rq.ereq.aggregateSize * rq.numEreqs)]
  else rq.ereq.tiles p rq.numEreqs

/-- Blocks `b`, `b + 1`, … of an entry. -/
def Request.blocks (rq : Request) (base : Int) (b : Nat) : List (Int × Int) :=
  (range' b (rq.numBlocks - b)).flatMap (rq.block base)

namespace Request

variable {rq : Request}
variable {base co el maxel : Int}

theorem blocks_of_lt {b : Nat} (h : b < rq.numBlocks) :
    rq.blocks base b = rq.block base b ++ rq.blocks base (b + 1) := by
  unfold blocks
  rw [show rq.numBlocks - b = (rq.numBlocks - (b + 1)) + 1 by omega, range'_succ,
    flatMap_cons]

theorem blocks_of_ge {b : Nat} (h : rq.numBlocks ≤ b) : rq.blocks base b = [] := by
  unfold blocks
  rw [show rq.numBlocks - b = 0 by omega]
  rfl

theorem chain_eq (base : Int) (h : rq ≠ .null) :
    rq.chain base = rq.blocks base 0 ++ rq.sreq.chain base := by
  cases rq with
  | null => exact absurd rfl h
  | node f e s =>
    rw [chain]
    congr 1
    unfold blocks block
    rw [← range_eq_range']
    congr 1
    funext b
    simp only [ereq_node, offset_node, stride_node, numEreqs_node, disp, tiles, copies,
      Int.zero_add, Int.sub_zero, Int.toNat_natCast]

variable {r : Request}

theorem copies_of_lt (h : el < maxel) :
    r.copies co el maxel = r.chain (co + el * r.extent) ++ r.copies co (el + 1) maxel := by
  unfold copies
  rw [show (maxel - el).toNat = (maxel - (el + 1)).toNat + 1 by omega, range_succ_eq_map,
    flatMap_cons, flatMap_map]
  congr 1
  · simp
  · congr 1
    funext i
    rw [show el + ((i + 1 : Nat) : Int) = el + 1 + i by push_cast; omega]

theorem copies_of_ge (h : maxel ≤ el) :
    r.copies co el maxel = [] := by
  unfold copies
  rw [show (maxel - el).toNat = 0 by omega]
  rfl

end Request

/-! ## The stack of levels -/

namespace Reqstack

/-- Where the current copy of the type of a level begins. -/
def base (s : Reqstack) : Int := s.chunkOffset + s.el * s.rqbase.extent

/-- The chunks of a level that come after its current block. -/
def after (s : Reqstack) : List (Int × Int) :=
  s.rq.blocks s.base (s.blk + 1) ++ s.rq.sreq.chain s.base ++
    s.rqbase.copies s.chunkOffset (s.el + 1) s.maxel

/-- What is processed next at a level. -/
def work (s : Reqstack) : List (Int × Int) :=
  if s.rqbase.isWhole then
    [(s.rqbase.offset + s.chunkOffset + s.rqbase.disp, s.maxel * s.rqbase.aggregateSize)]
  else s.rq.block s.base s.blk ++ s.after

/-- What holds of every level of the stack. -/
structure Ok (s : Reqstack) : Prop where
  wf : s.rq.Wf
  wfbase : s.rqbase.Wf
  ereq_ne : s.rq = s.rqbase ∨ s.rq.ereq ≠ .null
  depth_le : s.rq.depth ≤ s.rqbase.depth
  el_nonneg : 0 ≤ s.el
  el_lt : s.el < s.maxel
  /-- a contiguous level is finished in one go -/
  whole : s.rqbase.isWhole = true → s.rq = s.rqbase
  blk_lt : s.rqbase.isWhole = false → s.blk < s.rq.numBlocks

variable {s : Reqstack}

theorem Ok.ereq_ne_null (h : s.Ok) (hw : s.rqbase.isWhole = false) : s.rq.ereq ≠ .null := by
  rcases h.ereq_ne with he | he
  · intro hn
    rw [he] at hn
    simp [isWhole, hn] at hw
  · exact he

@[simp] theorem next_rqbase (s : Reqstack) : s.next.1.rqbase = s.rqbase := by
  unfold next
  split
  · split <;> rfl
  · rfl

@[simp] theorem next_maxel (s : Reqstack) : s.next.1.maxel = s.maxel := by
  unfold next
  split
  · split <;> rfl
  · rfl

theorem next_spec (h : s.Ok) (hw : s.rqbase.isWhole = false) :
    (s.next.2 = true ∧ s.after = []) ∨
    (s.next.2 = false ∧ s.next.1.Ok ∧ s.after = s.next.1.work) := by
  unfold next
  by_cases hb : s.blk + 1 ≥ s.rq.numBlocks
  · rw [if_pos hb]
    by_cases hs : s.rq.sreq = .null
    · rw [if_pos hs]
      by_cases hm : s.el + 1 ≥ s.maxel
      · left
        refine ⟨by simpa using hm, ?_⟩
        rw [after, hs, blocks_of_ge hb, copies_of_ge hm]
        rfl
      · -- the next element starts again at the first entry of the sequence
        right
        have hne : s.rqbase.ereq ≠ .null := by
          intro hn
          simp [isWhole, hn] at hw
        have hbp := (h.wfbase.entry hne).2.2.1
        refine ⟨by simpa using hm, ?_, ?_⟩
        · exact ⟨h.wfbase, h.wfbase, .inl rfl, le_refl _, by have := h.el_nonneg; simp only; omega,
            by simp only; omega, fun _ => rfl, fun _ => hbp⟩
        · simp only [after, work, hw, hs, base]
          rw [blocks_of_ge hb, copies_of_lt (by omega),
            chain_eq _ h.wfbase.ne_null, blocks_of_lt hbp]
          simp [chain]
    · rw [if_neg hs]
      right
      obtain ⟨hwf, hse, hd⟩ := h.wf.rest hs
      have hbp := (hwf.entry hse).2.2.1
      refine ⟨rfl, ?_, ?_⟩
      · exact ⟨hwf, h.wfbase, .inr hse, le_trans hd h.depth_le, h.el_nonneg, h.el_lt,
          fun hc => absurd hc (by simp [hw]), fun _ => hbp⟩
      · simp only [after, work, hw, base]
        rw [blocks_of_ge hb, chain_eq _ hs, blocks_of_lt hbp]
        simp
  · rw [if_neg hb]
    right
    refine ⟨rfl, ?_, ?_⟩
    · exact ⟨h.wf, h.wfbase, h.ereq_ne, h.depth_le, h.el_nonneg, h.el_lt, h.whole,
        fun _ => by simp only; omega⟩
    · simp only [after, work, hw, base]
      rw [blocks_of_lt (by omega)]
      simp

/-- The bottom level, for `n` copies of a request. -/
def start (r : Request) (chunkOffset n : Int) : Reqstack := ⟨0, n, r, r, 0, chunkOffset⟩

variable {r : Request}

theorem start_ok (h : r.Wf) (chunkOffset : Int) {n : Int} (hn : 0 < n) :
    (start r chunkOffset n).Ok := by
  refine ⟨h, h, .inl rfl, le_refl _, le_refl _, hn, fun _ => rfl, fun hw => (h.entry ?_).2.2.1⟩
  intro hnull
  simp [start, isWhole, hnull] at hw

theorem start_work (h : r.Wf) (chunkOffset : Int) {n : Int} (hn : 0 < n) :
    (start r chunkOffset n).work = r.tiles chunkOffset n := by
  unfold work tiles
  by_cases hw : r.isWhole = true
  · simp only [start, hw, if_true]
  · have hne : r.ereq ≠ .null := by
      intro hnull
      simp [isWhole, hnull] at hw
    simp only [start, hw, after, base, Bool.false_eq_true, if_false]
    rw [copies_of_lt hn, chain_eq _ h.ne_null,
      blocks_of_lt (h.entry hne).2.2.1]
    simp

theorem Ok.child (h : s.Ok) (hw : s.rqbase.isWhole = false) (hcg : s.rq.ereq.isContig = false) :
    s.child.Ok ∧ s.child.work = s.rq.block s.base s.blk := by
  obtain ⟨hewf, hn, -, -⟩ := h.wf.entry (h.ereq_ne_null hw)
  have hstart : s.child = start s.rq.ereq s.blockOffset s.rq.numEreqs := rfl
  rw [hstart]
  refine ⟨start_ok hewf _ (by omega), ?_⟩
  rw [start_work hewf _ (by omega), block]
  simp only [hcg, Bool.false_eq_true, if_false]
  rfl

end Reqstack

namespace RequestState

/-- What the levels below `n` still have to do after their current blocks. -/
def below (req : RequestState) : Nat → List (Int × Int)
  | 0 => []
  | n + 1 => (req.cur n).after ++ req.below n

theorem below_congr (req req' : RequestState) {n : Nat} (h : ∀ i < n, req.cur i = req'.cur i) :
    req.below n = req'.below n := by
  induction n with
  | zero => rfl
  | succ n ih =>
    rw [below, below, h n (by omega), ih fun i hi => h i (by omega)]

/-- The levels below `n` are in the middle of a block. -/
def Levels (req : RequestState) (n : Nat) : Prop :=
  ∀ i < n, (req.cur i).Ok ∧ (req.cur i).rqbase.isWhole = false ∧
    (req.cur i).rqbase.depth + i ≤ (req.cur 0).rqbase.depth

/-- The first chunk without the bytes of it that are done. -/
def trim (bytes : Int) : List (Int × Int) → List (Int × Int)
  | [] => []
  | c :: rest => (c.1 + bytes, c.2 - bytes) :: rest

@[simp] theorem trim_zero (P : List (Int × Int)) : trim 0 P = P := by
  cases P <;> simp [trim]

/-- The state is suspended in front of the chunks `P`. -/
structure Rep (req : RequestState) (P : List (Int × Int)) : Prop where
  lvl_nonneg : 0 ≤ req.lvl
  levels : req.Levels req.lvl.toNat
  top_ok : req.top.Ok
  top_depth : req.top.rqbase.depth + req.lvl.toNat ≤ (req.cur 0).rqbase.depth
  pending : P = trim req.bytes (req.top.work ++ req.below req.lvl.toNat)
  /-- only a chunk can be half done -/
  bytes_top : req.bytes ≠ 0 → req.top.rqbase.isWhole = true ∨ req.top.rq.ereq.isContig = true

variable {req' : RequestState}
variable {req : RequestState}

theorem Rep.congr {P : List (Int × Int)} (h : req.Rep P)
    (hc : req'.cur = req.cur) (hl : req'.lvl = req.lvl) (hb : req'.bytes = req.bytes) :
    req'.Rep P := by
  obtain ⟨h1, h2, h3, h4, h5, h6⟩ := h
  have hbelow : req'.below req.lvl.toNat = req.below req.lvl.toNat :=
    below_congr _ _ fun i _ => by rw [hc]
  refine ⟨by rwa [hl], ?_, ?_, ?_, ?_, ?_⟩
  · rw [hl]
    intro i hi
    rw [hc]
    exact h2 i hi
  · rwa [top, hc, hl]
  · rwa [top, hc, hl]
  · rw [top, hc, hl, hb, hbelow]
    exact h5
  · rw [top, hc, hl, hb]
    exact h6

/-! ## Returning from a level -/

section
variable (n : Nat) (req : RequestState)

theorem returnFromLevel_frame : ∃ cur lvl,
    req.returnFromLevel n = { req with cur := cur, lvl := lvl, bytes := 0 } := by
  induction n generalizing req with
  | zero => exact ⟨_, _, rfl⟩
  | succ n ih =>
    unfold returnFromLevel
    simp only
    split
    · obtain ⟨cur, lvl, h⟩ := ih { req with
        cur := update req.cur n (req.cur n).next.1, lvl := n, bytes := 0 }
      exact ⟨cur, lvl, h⟩
    · exact ⟨_, _, rfl⟩

theorem returnFromLevel_bottom :
    ((req.returnFromLevel n).cur 0).rqbase = (req.cur 0).rqbase ∧
      ((req.returnFromLevel n).cur 0).maxel = (req.cur 0).maxel := by
  induction n generalizing req with
  | zero => exact ⟨rfl, rfl⟩
  | succ n ih =>
    have hup : ∀ m, ((update req.cur n m) 0).rqbase =
        (if n = 0 then m.rqbase else (req.cur 0).rqbase) ∧
        ((update req.cur n m) 0).maxel =
        (if n = 0 then m.maxel else (req.cur 0).maxel) := by
      intro m
      by_cases hn : n = 0
      · subst hn; simp
      · rw [update_of_ne (Ne.symm hn), if_neg hn, if_neg hn]
        exact ⟨rfl, rfl⟩
    have hs := hup (req.cur n).next.1
    have hn0 : n = 0 → (req.cur n).next.1.rqbase = (req.cur 0).rqbase ∧
        (req.cur n).next.1.maxel = (req.cur 0).maxel := by
      rintro rfl
      simp
    unfold returnFromLevel
    simp only
    split
    · rw [(ih _).1, (ih _).2]
      simp only [hs]
      split
      · exact hn0 ‹_›
      · exact ⟨rfl, rfl⟩
    · simp only [hs]
      split
      · exact hn0 ‹_›
      · exact ⟨rfl, rfl⟩

end

/-- Levels that are done are left for the first one that is not. -/
theorem returnFromLevel_spec {n : Nat} (h : req.Levels n) :
    ((req.returnFromLevel n).lvl = -1 ∧ req.below n = []) ∨
    (req.returnFromLevel n).Rep (req.below n) := by
  induction n generalizing req with
  | zero => exact .inl ⟨rfl, rfl⟩
  | succ n ih =>
    obtain ⟨hok, hw, hd⟩ := h n (by omega)
    have hcur : ∀ i < n, ∀ m, update req.cur n m i = req.cur i :=
      fun i hi m => update_of_ne (by omega) _ _
    -- the bottom level may be the one that is stepped
    have hbase : ((update req.cur n (req.cur n).next.1) 0).rqbase = (req.cur 0).rqbase := by
      rcases Nat.eq_zero_or_pos n with rfl | hn
      · simp
      · rw [hcur 0 hn]
    have hlevels : ∀ l b, RequestState.Levels
        { req with cur := update req.cur n (req.cur n).next.1, lvl := l, bytes := b } n := by
      intro l b i hi
      simp only [hcur i hi, hbase]
      exact h i (by omega)
    have hbelow : ∀ l b, RequestState.below
        { req with cur := update req.cur n (req.cur n).next.1, lvl := l, bytes := b } n =
        req.below n :=
      fun l b => below_congr _ _ fun i hi => hcur i hi _
    unfold returnFromLevel
    rcases Reqstack.next_spec hok hw with ⟨hlast, hafter⟩ | ⟨hgo, hok', hafter⟩
    · -- the level is finished: go back up a level
      simp only [hlast, if_true]
      rw [below, hafter, ← hbelow n 0]
      exact ih (hlevels n 0)
    · simp only [hgo, Bool.false_eq_true, if_false]
      right
      refine ⟨by simp, by simpa using hlevels n 0, ?_, ?_, ?_, by simp⟩
      · simpa [top] using hok'
      · simpa [top, hbase] using hd
      · simp only [top, Int.toNat_natCast, update_self, trim_zero]
        rw [hbelow, below, hafter]

/-! ## Decoding -/

section
variable {req : RequestState} {c : Int × Int} {rest : List (Int × Int)}

/-- The next chunk is on top of the stack: the decoder finds it, and finishing it leaves the
chunks behind it. -/
structure Ready (req : RequestState) (c : Int × Int) (rest : List (Int × Int)) (lvlFlag : Bool) :
    Prop where
  rep : req.Rep (c :: rest)
  chunk : req.top.rqbase.isWhole = true ∨ req.top.rq.ereq.isContig = true
  decode : req.decode = .chunk c.1 c.2 lvlFlag
  finish : ∀ req' : RequestState, req'.cur = req.cur → req'.lvl = req.lvl →
    ((req'.returnFromLevel (if lvlFlag then req'.lvl else req'.lvl + 1).toNat).lvl = -1 ∧
      rest = []) ∨
    (req'.returnFromLevel (if lvlFlag then req'.lvl else req'.lvl + 1).toNat).Rep rest

theorem Rep.ready_whole (h : req.Rep (c :: rest)) (hw : req.top.rqbase.isWhole = true) :
    req.Ready c rest true := by
  have hrq := h.top_ok.whole hw
  have hp := h.pending
  simp only [Reqstack.work, hw, if_true, cons_append, nil_append, trim,
    cons.injEq] at hp
  obtain ⟨rfl, rfl⟩ := hp
  refine ⟨h, .inl hw, ?_, ?_⟩
  · unfold decode
    rw [if_neg h.top_ok.wf.ne_null, if_pos ⟨hrq, by rw [hrq]; exact hw⟩, hrq]
    congr 1
    omega
  · intro req' hc hl
    have hb : req'.below req'.lvl.toNat = req.below req.lvl.toNat := by
      rw [hl]
      exact below_congr _ _ fun i _ => by rw [hc]
    have hlv : req'.Levels req'.lvl.toNat := by
      rw [hl]
      intro i hi
      rw [hc]
      exact h.levels i hi
    rw [← hb]
    exact returnFromLevel_spec hlv

theorem Rep.ready_contig (h : req.Rep (c :: rest)) (hw : req.top.rqbase.isWhole = false)
    (hcg : req.top.rq.ereq.isContig = true) : req.Ready c rest false := by
  have hne := h.top_ok.ereq_ne_null hw
  have hp := h.pending
  simp only [Reqstack.work, hw, Bool.false_eq_true, if_false, block, hcg, if_true,
    cons_append, nil_append, trim, cons.injEq] at hp
  obtain ⟨rfl, rfl⟩ := hp
  refine ⟨h, .inr hcg, ?_, ?_⟩
  · unfold decode
    rw [if_neg h.top_ok.wf.ne_null, if_neg, if_neg hne, if_pos hcg]
    · congr 1
      simp only [Reqstack.blockOffset, Reqstack.base]
      omega
    · rintro ⟨he, hc⟩
      rw [he, hw] at hc
      exact absurd hc (by simp)
  · intro req' hc hl
    have hn := h.lvl_nonneg
    have hlvl : (req'.lvl + 1).toNat = req.lvl.toNat + 1 := by omega
    have hb : req'.below (req.lvl.toNat + 1) = req.top.after ++ req.below req.lvl.toNat := by
      rw [below, hc, below_congr _ req fun i _ => by rw [hc]]
      rfl
    have hlv : req'.Levels (req.lvl.toNat + 1) := by
      intro i hi
      rw [hc]
      rcases Nat.lt_succ_iff_lt_or_eq.mp hi with hi | rfl
      · exact h.levels i hi
      · exact ⟨h.top_ok, hw, h.top_depth⟩
    simp only [Bool.false_eq_true, if_false, hlvl]
    rw [← hb]
    exact returnFromLevel_spec hlv

theorem Rep.descend {P : List (Int × Int)} (h : req.Rep P)
    (hw : req.top.rqbase.isWhole = false) (hcg : req.top.rq.ereq.isContig = false) :
    req.decode = .descend req.top.child ∧ (req.push req.top.child).Rep P := by
  have hok := h.top_ok
  have hne := hok.ereq_ne_null hw
  have hb0 : req.bytes = 0 := by
    by_contra hb
    rcases h.bytes_top hb with hx | hx
    · exact absurd (hw.symm.trans hx) (by simp)
    · exact absurd (hcg.symm.trans hx) (by simp)
  obtain ⟨hewf, hn, -, hdep⟩ := hok.wf.entry hne
  obtain ⟨hcok, hcwork⟩ := hok.child hw hcg
  have hl0 := h.lvl_nonneg
  have hdepth := h.top_depth
  have hpos := hewf.depth_pos
  have hdle := hok.depth_le
  constructor
  · unfold decode
    rw [if_neg hok.wf.ne_null, if_neg, if_neg hne, if_neg (by simp [hcg]), if_neg (by omega)]
    rintro ⟨he, hc⟩
    rw [he, hw] at hc
    exact absurd hc (by simp)
  · have hl1 : (req.push req.top.child).lvl.toNat = req.lvl.toNat + 1 := by
      simp only [push]
      omega
    have htop : (req.push req.top.child).top = req.top.child := by
      simp only [top, push, update_self]
    have hcur : ∀ i ≤ req.lvl.toNat, (req.push req.top.child).cur i = req.cur i :=
      fun i hi => update_of_ne (by omega) _ _
    refine ⟨by simp only [push]; omega, ?_, ?_, ?_, ?_, fun hc => absurd hb0 hc⟩
    · intro i hi
      rw [hcur i (by omega), hcur 0 (by omega)]
      rcases Nat.lt_succ_iff_lt_or_eq.mp (hl1 ▸ hi) with hi | rfl
      · exact h.levels i hi
      · exact ⟨hok, hw, hdepth⟩
    · rwa [htop]
    · rw [htop, hcur 0 (by omega)]
      have : req.top.child.rqbase.depth = req.top.rq.ereq.depth := rfl
      omega
    · have hbytes : (req.push req.top.child).bytes = 0 := hb0
      rw [h.pending, htop, hl1, hcwork, hbytes, hb0, trim_zero, trim_zero, below,
        hcur _ (le_refl _), below_congr _ req fun i hi => hcur i (by omega)]
      simp only [Reqstack.work, hw, Bool.false_eq_true, if_false, append_assoc]
      rfl

variable {lvlFlag : Bool}

theorem Ready.congr (h : req.Ready c rest lvlFlag) (hc : req'.cur = req.cur)
    (hl : req'.lvl = req.lvl) (hb : req'.bytes = req.bytes) : req'.Ready c rest lvlFlag := by
  have htop : req'.top = req.top := by rw [top, top, hc, hl]
  refine ⟨h.rep.congr hc hl hb, by rw [htop]; exact h.chunk, ?_, ?_⟩
  · rw [← h.decode]
    unfold RequestState.decode
    rw [htop, hb, hl, hc]
  · intro req'' hc' hl'
    exact h.finish req'' (hc'.trans hc) (hl'.trans hl)

theorem Ready.within (h : req.Ready c rest lvlFlag) (n : Int)
    (hc : req'.cur = req.cur) (hl : req'.lvl = req.lvl) (hb : req'.bytes = req.bytes + n) :
    req'.Rep ((c.1 + n, c.2 - n) :: rest) := by
  obtain ⟨h1, h2, h3, h4, h5, -⟩ := h.rep
  have hbelow : req'.below req.lvl.toNat = req.below req.lvl.toNat :=
    below_congr _ _ fun i _ => by rw [hc]
  have htop : req'.top = req.top := by rw [top, top, hc, hl]
  refine ⟨by rwa [hl], ?_, by rwa [htop], by rwa [htop, hl, hc], ?_, ?_⟩
  · rw [hl]
    intro i hi
    rw [hc]
    exact h2 i hi
  · rw [htop, hl, hbelow]
    cases hw : req.top.work ++ req.below req.lvl.toNat with
    | nil => rw [hw] at h5; simp [trim] at h5
    | cons d ds =>
      rw [hw] at h5
      simp only [trim, cons.injEq] at h5 ⊢
      obtain ⟨rfl, rfl⟩ := h5
      simp only [Prod.mk.injEq, and_true]
      omega
  · intro _
    rw [htop]
    exact h.chunk

end

end RequestState

end Pvfs.Description
