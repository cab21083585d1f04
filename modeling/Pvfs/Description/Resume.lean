import Mathlib.Data.Set.Finite.Lattice
import Pvfs.Description.Segments

/-! # Resuming a request

A server that is short of segments or of buffer space processes a request in many calls.
Its segments are those of one call that had room for everything: cutting the work moves no
byte, drops none and repeats none. -/

namespace Pvfs.Description

open Pvfs.Lib

/-- The layouts of a file on which all of the offsets `xs` can be processed: the whole file on its
one server, or a striped file and offsets below `2 ^ 31` full stripes. -/
inductive RequestFileData.Layout (rf : RequestFileData) (xs : List Int) : Prop where
  | basic (hd : rf.dist = .basic) (hn : rf.serverNr = 0) (hc : rf.serverCt = 1)
  | simpleStripe {strip : Int} (hs : 0 < strip) (hd : rf.dist = .simpleStripe strip)
      (hn : rf.serverNr < rf.serverCt) (hx : ∀ x ∈ xs, x < Dist.stripeLimit strip rf.serverCt)

theorem exists_limit (xs : List Int) : ∃ limit, ∀ x ∈ xs, x < limit := by
  obtain ⟨bound, h⟩ := xs.finite_toSet.bddAbove
  exact ⟨bound + 1, fun x hx => Int.lt_add_one_of_le (h hx)⟩

theorem RequestFileData.Layout.lawful {rf : RequestFileData} {xs : List Int} (h : rf.Layout xs) :
    ∃ limit, rf.Lawful limit ∧ ∀ x ∈ xs, x < limit := by
  cases h with
  | basic hd hn hc =>
    obtain ⟨limit, hlim⟩ := exists_limit xs
    refine ⟨limit, ?_, hlim⟩
    rw [Lawful, hd, hn, hc]
    exact Dist.basic_lawful limit
  | simpleStripe hs hd hn hx =>
    refine ⟨_, ?_, hx⟩
    rw [Lawful, hd]
    exact Dist.simpleStripe_lawful hs hn

/-- A file on one server, which may grow. -/
def oneFile : Shared := .fresh ⟨0, 0, 1, .basic, true⟩

section
variable {r : Request} {target final : Int} {sh : Shared}

theorem reachable_of_layout (hnn : ∀ x ∈ r.window target final, 0 ≤ x)
    (hlay : sh.rfdata.Layout (r.window target final)) :
    ∃ limit, sh.rfdata.Lawful limit ∧
      (∀ x ∈ r.window target final, sh.rfdata.Mapped x → x < limit) ∧
      ∀ q ∈ numbered target (r.window target final), Reachable sh.rfdata limit q.1 q.2 := by
  obtain ⟨limit, law, hlim⟩ := hlay.lawful
  refine ⟨limit, law, fun x hx _ => hlim x hx, fun q hq => ?_⟩
  obtain ⟨j, -, hj⟩ := mem_numbered.mp hq
  have hx := List.mem_of_getElem? hj
  exact ⟨hnn _ hx, fun _ => hlim _ hx⟩

/-- **Resumable request processing.**  However a server cuts the work on a window without negative
offsets into calls with positive budgets, every call succeeds, after at most one call a byte the
request is done, and then the segments of all the calls are, up to gluing neighbours, those of
one call with room for everything. -/
theorem processCalls_eq_one_call (hr : r.Built fun _ => True) (h0 : 0 ≤ target)
    (htf : target < final) (hnn : ∀ x ∈ r.window target final, 0 ≤ x)
    (hlay : sh.rfdata.Layout (r.window target final))
    (hord : sh.rfdata.extendFlag = true ∨ (r.stream (r.copiesFor final)).Pairwise (· < ·))
    {segmax : Nat} {bytemax : Int} (hsm : final - target ≤ segmax)
    (hbm : final - target ≤ bytemax) :
    ∃ whole shw, Returns (processRequest · (.opened r target final)
        { sh with result := sh.result.reset segmax bytemax } .pintServer) (.ret 0 whole shw) ∧
      whole.done = true ∧
      ∀ budgets : List (Nat × Int), (∀ b ∈ budgets, 0 < b.1 ∧ 0 < b.2) →
        ∃ segs req' sh', Returns (processCalls · .pintServer budgets (.opened r target final) sh)
            (segs, req', sh') ∧
          (final - target ≤ budgets.length → req'.done = true) ∧
          (req'.done = true → merge segs = merge shw.result.segments) := by
  have hwf := hr.wf
  obtain ⟨limit, law, hlim, hbytes⟩ := reachable_of_layout hnn hlay
  obtain ⟨whole, shw, hret, hdone, hpos, -, hexp⟩ := call_done sh.rfdata hwf
    (server_writes sh.rfdata) rfl rfl h0 htf hord hlim hbytes (server_serves law target _) hsm hbm
    (.refl _) (server_opens sh.rfdata sh)
  refine ⟨whole, shw, hret, hdone, fun budgets hb => ?_⟩
  obtain ⟨segs, req', sh', hcalls, hposs, hsegs, hend⟩ := calls_done sh.rfdata hwf
    (server_writes sh.rfdata) rfl rfl h0 htf hord hlim hbytes (fun _ => server_opens _ _) rfl hb
    (fun b _ => server_serves law target b) (.refl _) (server_opens sh.rfdata sh)
  refine ⟨segs, req', sh', hcalls, hend, fun hd => ?_⟩
  rw [merge_eq_iff hposs hpos, hexp, hsegs hd]

/-- The hypotheses hold together: every second byte of a file on two servers, which must not
grow, from the second byte on. -/
theorem processCalls_eq_one_call_vector :
    ∃ r, Request.vector 2 1 2 .pintByte = some r ∧
      ∃ whole shw, Returns (processRequest · (.opened r 1 4)
          { Shared.fresh ⟨5, 0, 2, .simpleStripe 2, false⟩ with
            result := RequestResult.reset (Shared.fresh ⟨5, 0, 2, .simpleStripe 2, false⟩).result
              8 8 } .pintServer) (.ret 0 whole shw) ∧
        whole.done = true ∧
        ∀ budgets : List (Nat × Int), (∀ b ∈ budgets, 0 < b.1 ∧ 0 < b.2) →
          ∃ segs req' sh', Returns (processCalls · .pintServer budgets (.opened r 1 4)
              (Shared.fresh ⟨5, 0, 2, .simpleStripe 2, false⟩)) (segs, req', sh') ∧
            ((4 : Int) - 1 ≤ budgets.length → req'.done = true) ∧
            (req'.done = true → merge segs = merge shw.result.segments) :=
  ⟨_, rfl, processCalls_eq_one_call
    (@Request.Built.vector _ 2 1 2 .pintByte _ (by decide) (by decide) trivial
      (.elementary (by decide)) rfl)
    (by decide) (by decide) (by decide) (.simpleStripe (by decide) rfl (by decide) (by decide))
    (.inr (by decide)) (by decide) (by decide)⟩

/-- A type of two bytes may go backwards without a negative displacement or stride: its element has
been given a negative extent. The second byte lies before the file. One call finds that out
after it has taken the first byte and gives up both; a call with room for one byte has
returned it by then. -/
theorem processCalls_differ_backwards :
    ∃ old r, Request.resized .pintByte 0 (-1) = some old ∧ Request.contiguous 2 old = some r ∧
      r.window 0 2 = [0, -1] ∧
      (∃ whole shw, processRequest 9 (.opened r 0 2)
          { oneFile with result := oneFile.result.reset 2 2 } .pintServer =
            some (.ret 0 whole shw) ∧ whole.done = true ∧ merge shw.result.segments = []) ∧
      ∃ segs req' sh', processCalls 9 .pintServer [(1, 1), (1, 1)] (.opened r 0 2) oneFile =
        some (segs, req', sh') ∧ req'.done = true ∧ merge segs = [(0, 1)] :=
  ⟨_, _, rfl, rfl, rfl, ⟨_, _, rfl, rfl, rfl⟩, _, _, _, rfl, rfl, rfl⟩

end

end Pvfs.Description
