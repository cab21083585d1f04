import Pvfs.Description.Resume

/-! # The byte stream on the wire

Client and server process the same request, each with the budgets of its own buffers, and
neither tells the other where the bytes go: the n-th byte the client puts on the connection
is whatever the server takes for the n-th one. A client names a byte by its place in the
buffer and a server by its physical offset, so the streams agree when the byte at the
client's place is the byte whose logical offset the server's physical offset stands for.

They agree whatever the budgets are, below `2 ^ 31` full stripes. Past that the number of
full stripes has wrapped, and with it the offset a byte is stored at: a client and a server
that hand over one byte at a time show it. -/

namespace Pvfs.Description

open Pvfs.Lib List RequestFileData Description.Dist

/-! ## Budgets of one byte -/

section
variable {mode : Mode} {rf : RequestFileData} {limit : Int} {Byte : Int → Int → Prop}
  {I : List (Int × Int) → Int → Shared → Prop} {v : List (Int × Int)} {k : Int}

theorem fragment_unit {res : RequestResult} {x rest : Int} (hone : res.bytes + 1 = res.bytemax)
    (hrest : 0 < rest) (hpos : 0 < rf.contiguousLength (rf.logicalToPhysicalOffset x)) :
    rf.fragment res x rest = 1 := by
  unfold fragment
  simp only
  split <;> split <;> omega

variable (law : rf.Seeks) (hext : rf.extendFlag = true)
  (hpos : ∀ x, 0 ≤ x → rf.Mapped x → 0 < rf.contiguousLength (rf.logicalToPhysicalOffset x))
include law hext hpos

/-- **`PINT_distribute` with room for one byte** needs nothing of the distribution but that it
finds the next byte, so this is what it does past any limit. -/
theorem distribute_unit (he : Emits mode rf Byte I)
    (hused : ∀ {v k sh}, I v k sh → v ≠ [] → sh.result.full mode) {offset size : Int} {sh : Shared}
    (h0 : 0 ≤ offset) (hsize : 0 < size) (hs : rf.Same sh.rfdata)
    (hreg : ∀ x, offset ≤ x → x < offset + size → Byte (k + (x - offset)) x) (hI : I v k sh)
    (hfull : ¬ sh.result.full mode) (hone : sh.result.bytes + 1 = sh.result.bytemax) :
    ∃ ret sh' eof, Returns (distribute · offset size sh mode) (.ret ret sh' eof) ∧
      Distributes mode rf limit I v k offset size ret sh' eof := by
  have hge : offset ≤ rf.nextMappedOffset offset := law.le_next offset h0
  have hm : rf.Mapped (rf.nextMappedOffset offset) := law.mapped_next offset h0
  have hnoeof : ∀ {st : DistLoop}, rf.Same st.sh.rfdata → st.eofFlag = false → st.atEof = false := by
    intro st hs' heof
    simp [DistLoop.atEof, heof, hs'.extendFlag, hext]
  obtain ⟨x, hx⟩ : ∃ x, rf.nextMappedOffset offset = x := ⟨_, rfl⟩
  rw [hx] at hge hm
  rcases Int.lt_or_le x (offset + size) with hlt | hend
  · -- the first byte of the region on this server, and then the budget is used up
    obtain ⟨rf', hclip1, hs'⟩ := clipEof_extend hs hext (sh.rfdata.logicalToPhysicalOffset x) 1
    have hclip : clipEof sh.rfdata (sh.rfdata.logicalToPhysicalOffset x)
        (sh.rfdata.fragment sh.result x (size - (x - offset))) = (rf', 1, false) := by
      rw [hs.fragment, fragment_unit hone (by omega) (hpos x (by omega) hm)]
      exact hclip1
    have hvis : rf.visible x = true := visible_eq_true.mpr ⟨hm, .inl hext⟩
    have hbyte : ∀ j, 0 ≤ j → j < 1 → rf.visible (x + j) = true ∧
        Byte (k + (x + j - offset)) (x + j) ∧
        rf.logicalToPhysicalOffset (x + j) = rf.logicalToPhysicalOffset x + j := by
      intro j hj0 hj
      obtain rfl : j = 0 := by omega
      simpa using And.intro hvis (hreg x hge hlt)
    obtain ⟨st', sz', hsz0, hle, -, hoff, -, hloff, heof, hs₁, hI₁, hturn⟩ :=
      @Emits.turn rf rf' mode k Byte I v ⟨offset, size, x, sh, false⟩ he law 1 false h0 hx.symm
        (show x - offset < size by omega) hs hI hfull hclip hs' Int.one_pos (by simp only; omega) hbyte
    simp only at hoff
    have hf : st'.sh.result.full mode := by
      refine hused hI₁ fun hnil => ?_
      have hnone := congrArg (map Prod.snd) (append_eq_nil_iff.mp hnil).2
      rw [map_snd_visit, map_nil, filter_eq_nil_iff] at hnone
      exact hnone x (mem_run.mpr (by simp only; omega)) hvis
    rw [if_pos hf] at hturn
    have hdone : DistDone mode rf limit (offset + size) I v k offset st' :=
      ⟨by omega, by omega, hloff, hs₁, hI₁, .inr (.inl hf), by simp [heof]⟩
    refine ⟨_, _, _, distribute_of_loop law h0 hsize hs hfull (by rw [hx]; exact Leaves.last hturn),
      hdone.distributes law h0 hsize (fun h => ?_) (.inl (by omega))⟩
    rw [hnoeof hdone.file heof] at h
    cases h
  · -- no byte of the region is on this server
    have hleave : Leaves (distributeBody mode) ⟨offset, size, x, sh, false⟩
        (some ⟨offset, size, x, sh, false⟩) := distributeBody_end (by simp only; omega)
    have hdone : DistDone mode rf limit (offset + size) I v k offset _ :=
      .none ⟨offset, size, x, sh, false⟩ (by simp only; omega) hx.symm hs hI hend (by simp)
    refine ⟨_, _, _, distribute_of_loop law h0 hsize hs hfull (by rw [hx]; exact hleave),
      hdone.distributes law h0 hsize (fun h => ?_) (.inr (.inl hend))⟩
    rw [hnoeof hs rfl] at h
    cases h

theorem Emits.serves_one {I : Nat × Int → List (Int × Int) → Int → Shared → Prop}
    {out : Int × Int → Int} {target : Int} {n : Nat}
    (he : Emits mode rf (fun _ x => 0 ≤ x) (I (n, 1))) (hw : Writes I out) (hm : mode.memreq = false)
    (hbudget : ∀ {v k sh}, I (n, 1) v k sh →
      sh.result.bytes ≤ sh.result.bytemax ∧ sh.result.segs ≤ sh.result.segmax)
    (hrestart : ∀ {v k k' sh}, I (n, 1) v k sh → ¬ sh.result.full mode →
      I (n, 1) v k' (sh.scratch mode (k' - target))) :
    Serves mode rf limit target (ByteRegion fun _ x => 0 ≤ x) (I (n, 1)) := by
  refine ⟨hm, hbudget, hrestart, ?_⟩
  intro v k k' offset size sh hI _ hfile hfull hsize hreg
  have h0 : 0 ≤ offset := by simpa using hreg 0 (le_refl _) hsize
  have hI' : I (n, 1) v k (sh.scratch mode (k - target)) := hrestart hI hfull
  have hused : ∀ {v k sh}, I (n, 1) v k sh → v ≠ [] → sh.result.full mode := by
    intro v k sh h hv
    have hlen := length_pos_iff.mpr hv
    have h1 := (hw.used h).1
    have h2 := (hw.budget h).2
    exact .inl (by simp only at h2; omega)
  have hv : v = [] := by
    by_contra hne
    exact hfull (hused hI hne)
  have hone : (sh.scratch mode (k - target)).result.bytes + 1 =
      (sh.scratch mode (k - target)).result.bytemax := by
    rw [(hw.used hI').1, (hw.budget hI').2, hv]
    rfl
  refine distribute_unit law hext hpos he hused h0 hsize (by rwa [Shared.scratch_rfdata])
    (fun x hx _ => ?_) hI' (by rwa [Shared.scratch_full]) hone
  exact Int.le_trans h0 hx

end

/-! ## Client and server -/

section
variable {r : Request} {strip target final : Int} {nr ct : Nat}

section
variable (hs : 0 < strip) (hn : nr < ct)
include hs hn

theorem striped_seeks :
    (striped strip nr ct).Seeks := (simpleStripe_lawful hs hn).toSeeks

theorem server_serves_one (target limit : Int) (n : Nat) :
    Serves .pintServer (.striped strip nr ct) limit target (ByteRegion fun _ x => 0 ≤ x)
      (ServerInv (.striped strip nr ct) (n, 1)) :=
  Emits.serves_one (striped_seeks hs hn) rfl (fun _ hx hm => contiguousLength_pos hs hn hx hm)
    (server_emits _ _ _) (server_writes _) rfl (fun h => h.within) (fun h _ => h)

theorem client_serves_one (target limit : Int) (n : Nat) :
    Serves .pintClient (.striped strip nr ct) limit target (ByteRegion fun _ x => 0 ≤ x)
      (ClientInv target (n, 1)) :=
  Emits.serves_one (striped_seeks hs hn) rfl (fun _ hx hm => contiguousLength_pos hs hn hx hm)
    (client_emits _ _ _ _) (client_writes _) rfl (fun h => h.holds.within)
    (fun h _ => h.scratched _)

end

/-- The segments of a client and of a server describe one byte stream: the n-th place in the
client's buffer holds the byte of the window that the server's n-th physical offset stands
for. -/
def SameStream (r : Request) (strip : Int) (nr ct : Nat) (target final : Int)
    (server client : List (Int × Int)) : Prop :=
  ((expand server).map fun p =>
      some ((simpleStripe strip).physicalToLogicalOffset nr ct p)) =
    (expand client).map fun o => (r.window target final)[o.toNat]?

/-- Whatever the budgets of both sides are, all their calls succeed, both get to the end of the
request, and then they have described the same stream. -/
def WireAgrees (r : Request) (strip : Int) (nr ct : Nat) (target final : Int) : Prop :=
  ∀ bs bc : List (Nat × Int), (∀ b ∈ bs, 0 < b.1 ∧ 0 < b.2) → (∀ b ∈ bc, 0 < b.1 ∧ 0 < b.2) →
    ∃ server reqs shs client reqc shc,
      Returns (processCalls · .pintServer bs (.opened r target final)
        (.fresh (.striped strip nr ct))) (server, reqs, shs) ∧
      Returns (processCalls · .pintClient bc (.opened r target final)
        (.fresh (.striped strip nr ct))) (client, reqc, shc) ∧
      (final - target ≤ bs.length → reqs.done = true) ∧
      (final - target ≤ bc.length → reqc.done = true) ∧
      (reqs.done = true → reqc.done = true →
        SameStream r strip nr ct target final server client)

theorem sameStream_iff_of_visited (hs : 0 < strip) (hn : nr < ct)
    (hnn : ∀ x ∈ r.window target final, 0 ≤ x) {w : List (Int × Int)}
    (hw : ∀ q ∈ w, q ∈ visit (striped strip nr ct).visible target
      (r.window target final)) {server client : List (Int × Int)}
    (hserver : expand server = w.map (physicalByte (.striped strip nr ct)))
    (hclient : expand client = w.map (bufferByte target)) :
    SameStream r strip nr ct target final server client ↔
      ∀ q ∈ w, q.2 < stripeLimit strip ct := by
  rw [SameStream, hserver, hclient, map_map, map_map, map_inj_left]
  refine forall₂_congr fun q hq => ?_
  -- a visited byte stands at its place in the window
  obtain ⟨j, hj, hx⟩ := mem_numbered.mp (mem_filter.mp (hw q hq)).1
  have hplace : (r.window target final)[(bufferByte target q).toNat]? = some q.2 := by
    rw [bufferByte, hj, show (target + j - target).toNat = j by omega, hx]
  have hm := (visible_eq_true.mp (mem_filter.mp (hw q hq)).2).1
  simp only [Function.comp_apply, hplace, Option.some.injEq]
  exact logical_phys_iff hs hn (hnn _ (mem_of_getElem? hx)) hm

theorem visited_lt_iff {limit : Int} :
    (∀ q ∈ visit (striped strip nr ct).visible target (r.window target final),
        q.2 < limit) ↔
      ∀ x ∈ r.window target final, (simpleStripe strip).Mapped nr ct x → x < limit := by
  constructor
  · intro h x hx hm
    obtain ⟨j, hj⟩ := getElem?_of_mem hx
    exact h (target + (j : Int), x) (mem_filter.mpr ⟨mem_numbered.mpr ⟨j, rfl, hj⟩,
      visible_eq_true.mpr ⟨hm, .inl rfl⟩⟩)
  · intro h q hq
    obtain ⟨hq, hv⟩ := mem_filter.mp hq
    exact h _ (snd_mem_of_numbered hq) (visible_eq_true.mp hv).1

section
variable (hs : 0 < strip) (hn : nr < ct) (hnn : ∀ x ∈ r.window target final, 0 ≤ x)
include hs hn hnn

theorem wireAgrees_of_lt_limit (hr : r.Wf) (h0 : 0 ≤ target) (htf : target < final)
    (hx : ∀ x ∈ r.window target final, (simpleStripe strip).Mapped nr ct x →
      x < stripeLimit strip ct) : WireAgrees r strip nr ct target final := by
  intro bs bc hbs hbc
  have law := striped_lawful hs hn
  have hreach : ∀ q ∈ numbered target (r.window target final),
      Reachable (.striped strip nr ct) (stripeLimit strip ct) q.1 q.2 := fun q hq =>
    ⟨hnn _ (snd_mem_of_numbered hq), fun hm => hx _ (snd_mem_of_numbered hq) hm⟩
  obtain ⟨server, reqs, shs, hrets, -, hexps, hds⟩ := calls_done (.striped strip nr ct) hr
    (server_writes _) rfl rfl h0 htf (.inl rfl) hx hreach (fun _ => server_opens _ _) rfl hbs
    (fun b _ => server_serves law target b) (.refl _) (server_opens _ (.fresh (.striped strip nr ct)))
  obtain ⟨client, reqc, shc, hretc, -, hexpc, hdc⟩ := calls_done (.striped strip nr ct) hr
    (client_writes target) rfl rfl h0 htf (.inl rfl) hx hreach (fun h => client_opens target _ h.mem)
    rfl hbc (fun b _ => client_serves law target b) (.refl _)
    (client_opens target (.fresh (.striped strip nr ct)) rfl)
  exact ⟨server, reqs, shs, client, reqc, shc, hrets, hretc, hds, hdc, fun h1 h2 =>
    (sameStream_iff_of_visited hs hn hnn (fun _ hq => hq) (hexps h1) (hexpc h2)).mpr
      (visited_lt_iff.mpr hx)⟩

theorem WireAgrees.lt_limit (h : WireAgrees r strip nr ct target final) (hr : r.Wf) (h0 : 0 ≤ target)
    (htf : target < final) :
    ∀ x ∈ r.window target final, (simpleStripe strip).Mapped nr ct x →
      x < stripeLimit strip ct := by
  obtain ⟨limit, hlim⟩ := exists_limit (r.window target final)
  have hones : ∀ b ∈ replicate (final - target).toNat ((1, 1) : Nat × Int),
      b = (1, 1) := fun b hb => eq_of_mem_replicate hb
  have hpos : ∀ b ∈ replicate (final - target).toNat ((1, 1) : Nat × Int),
      0 < b.1 ∧ 0 < b.2 := fun b hb => by rw [hones b hb]; decide
  obtain ⟨server, reqs, shs, client, reqc, shc, hrets, hretc, hds, hdc, hsame⟩ := h _ _ hpos hpos
  rw [length_replicate] at hds hdc
  have hx : ∀ x ∈ r.window target final, (simpleStripe strip).Mapped nr ct x → x < limit :=
    fun x hx _ => hlim x hx
  have hbytes : ∀ q ∈ numbered target (r.window target final), 0 ≤ q.2 :=
    fun q hq => hnn _ (snd_mem_of_numbered hq)
  obtain ⟨server', reqs', shs', hrets', -, hexps, -⟩ := calls_done (.striped strip nr ct) hr
    (server_writes _) rfl rfl h0 htf (.inl rfl) hx hbytes (fun _ => server_opens _ _) rfl hpos
    (fun b hb => hones b hb ▸ server_serves_one hs hn target limit 1) (.refl _)
    (server_opens _ (.fresh (.striped strip nr ct)))
  obtain ⟨client', reqc', shc', hretc', -, hexpc, -⟩ := calls_done (.striped strip nr ct) hr
    (client_writes target) rfl rfl h0 htf (.inl rfl) hx hbytes
    (fun h => client_opens target _ h.mem) rfl hpos
    (fun b hb => hones b hb ▸ client_serves_one hs hn target limit 1) (.refl _)
    (client_opens target (.fresh (.striped strip nr ct)) rfl)
  obtain ⟨rfl, rfl, rfl⟩ : server = server' ∧ reqs = reqs' ∧ shs = shs' := by
    simpa using hrets.unique hrets'
  obtain ⟨rfl, rfl, rfl⟩ : client = client' ∧ reqc = reqc' ∧ shc = shc' := by
    simpa using hretc.unique hretc'
  have hds := hds (by omega)
  have hdc := hdc (by omega)
  exact visited_lt_iff.mp ((sameStream_iff_of_visited hs hn hnn (fun _ hq => hq) (hexps hds)
    (hexpc hdc)).mp (hsame hds hdc))

end

/-- **Client and server agree on the wire**, whatever their budgets, exactly when every byte of
the window that this server stores lies below `2 ^ 31` full stripes. -/
theorem wire_agrees_iff (hr : r.Built fun _ => True) (hs : 0 < strip) (hn : nr < ct)
    (h0 : 0 ≤ target) (htf : target < final) (hnn : ∀ x ∈ r.window target final, 0 ≤ x) :
    WireAgrees r strip nr ct target final ↔
      ∀ x ∈ r.window target final, (simpleStripe strip).Mapped nr ct x →
        x < stripeLimit strip ct :=
  ⟨fun h => h.lt_limit hs hn hnn hr.wf h0 htf, wireAgrees_of_lt_limit hs hn hnn hr.wf h0 htf⟩

/-- The second of two servers, and a window over two copies of a type with a gap. -/
theorem wire_agrees_vector :
    ∃ r, Request.vector 2 1 2 .pintByte = some r ∧ WireAgrees r 2 1 2 0 4 :=
  ⟨_, rfl, (wire_agrees_iff
    (@Request.Built.vector _ 2 1 2 .pintByte _ (by decide) (by decide) trivial
      (.elementary (by decide)) rfl)
    (by decide) (by decide) (by decide) (by decide) (by decide)).mpr (by decide)⟩

/-- The first byte past `2 ^ 31` full stripes of four bytes: its server stores it at a negative
offset, which stands for another byte of the file. -/
theorem wire_disagrees_past_limit :
    ∃ r, Request.hindexed [(1, 2 ^ 33)] .pintByte = some r ∧ (r.Built fun _ => True) ∧
      r.window 0 1 = [2 ^ 33] ∧ (simpleStripe 2).Mapped 0 2 (2 ^ 33) ∧
      (simpleStripe 2).logicalToPhysicalOffset 0 2 (2 ^ 33) = -(2 ^ 32) + 2 ∧
      ¬ WireAgrees r 2 0 2 0 1 := by
  refine ⟨_, rfl, ?_⟩
  have hb := @Request.Built.hindexed (fun _ => True) [(1, 2 ^ 33)] .pintByte _ (by decide)
    (by decide) (.elementary (by decide)) rfl
  refine ⟨hb, by decide, by decide, by decide, fun h => ?_⟩
  have hlt := h.lt_limit (by decide) (by decide) (by decide) hb.wf (by decide) (by decide) (2 ^ 33)
    (by decide) (by decide)
  exact absurd hlt (by decide)

end

end Pvfs.Description
