import Pvfs.Flow.Fill

/-! # Both sides of a write cut it into the same messages (flowproto-multiqueue.c)

The client sends from one memory buffer, the server writes to its storage, and neither tells the
other where a message ends. `messages_from` says of each side that a message is the next
`buffer_size` visible bytes, so the cuts agree whatever number of regions a piece takes; what is
left is whether the two sides mean the same byte, which is the question of `SameStream`, asked
for each message. -/

namespace Pvfs.Flow

open Pvfs.Description RequestFileData Dist
open Pvfs.Lib

/-- How many bytes a message has. -/
def messageSize (segs : List (Int × Int)) : Int := (segs.map Prod.snd).sum

/-- A message of the client is as long as the server's, and carries the bytes that the server
writes from it. -/
def SameMessage (r : Request) (strip : Int) (nr ct : Nat) (target final : Int)
    (client server : List (Int × Int)) : Prop :=
  messageSize client = messageSize server ∧ SameStream r strip nr ct target final server client

/-- With one buffer size on both sides, both flows come to their end and agree message by message. -/
def FramingAgrees (r : Request) (strip : Int) (nr ct : Nat) (target final : Int) : Prop :=
  ∀ bufferSize : Int, 0 < bufferSize → ∃ client server : List (List (Int × Int)),
    Returns (clientMessages bufferSize r target final (.striped strip nr ct)) (some client) ∧
    Returns (serverMessages bufferSize r target final (.striped strip nr ct)) (some server) ∧
    List.Forall₂ (SameMessage r strip nr ct target final) client server

section
variable {r : Request} {strip : Int} {nr ct : Nat} {target final limit bufferSize : Int}
  {Byte : Int → Int → Prop}

theorem server_side (hserves : ∀ b, 0 < b → b ≤ bufferSize →
      Serves .pintServer (.striped strip nr ct) limit target (ByteRegion Byte)
        (ServerInv (.striped strip nr ct) (maxRegions, b))) :
    Side .pintServer (.striped strip nr ct) limit target bufferSize Byte
      (ServerInv (.striped strip nr ct)) (physicalByte (.striped strip nr ct)) where
  memreq := rfl
  skip := rfl
  cksize := rfl
  writes := server_writes _
  reopens := fun _ => server_opens _ _
  serves := hserves
  extend := rfl

theorem client_side (hserves : ∀ b, 0 < b → b ≤ bufferSize →
      Serves .pintClient (.striped strip nr ct) limit target (ByteRegion Byte)
        (ClientInv target (maxRegions, b))) :
    Side .pintClient (.striped strip nr ct) limit target bufferSize Byte (ClientInv target)
      (bufferByte target) where
  memreq := rfl
  skip := rfl
  cksize := rfl
  writes := client_writes target
  reopens := fun h => client_opens target _ h.mem
  serves := hserves
  extend := rfl

theorem opened_rest {mode : Mode} {rf : RequestFileData} (t : Transfer r target final limit rf Byte)
    (hm : mode.memreq = false) :
    Rest mode rf r target final target (.opened r target final) where
  done := by
    intro hd
    rw [RequestState.opened_done t.nonneg t.lt] at hd
    cases hd
  resumes := fun _ => RequestState.opened_resumes mode t.wf hm t.nonneg t.lt
  lt := fun _ => t.lt

theorem serverMessages_framed
    (side : Side .pintServer (.striped strip nr ct) limit target bufferSize Byte
      (ServerInv (.striped strip nr ct)) (physicalByte (.striped strip nr ct)))
    (t : Transfer r target final limit (.striped strip nr ct) Byte) (hbuf : 0 < bufferSize) :
    ∃ server, Returns (serverMessages bufferSize r target final (.striped strip nr ct)) (some server) ∧
      Framed bufferSize.toNat (physicalByte (.striped strip nr ct))
        (visit (striped strip nr ct).visible target (r.window target final)) server := by
  obtain ⟨server, hleaves, hframed⟩ := messages_from t hbuf
    (serverFill_filled side t rfl hbuf) _ ⟨.opened r target final, .fresh _, []⟩ target (Nat.le_refl _)
    (Int.le_refl _) (opened_rest t rfl) ⟨.refl _, server_opens _ _⟩
  exact ⟨server, hleaves.returns, hframed⟩

theorem clientMessages_framed
    (side : Side .pintClient (.striped strip nr ct) limit target bufferSize Byte (ClientInv target)
      (bufferByte target))
    (t : Transfer r target final limit (.striped strip nr ct) Byte) (hbuf : 0 < bufferSize) :
    ∃ client, Returns (clientMessages bufferSize r target final (.striped strip nr ct)) (some client) ∧
      Framed bufferSize.toNat (bufferByte target)
        (visit (striped strip nr ct).visible target (r.window target final)) client := by
  obtain ⟨client, hleaves, hframed⟩ := messages_from t hbuf
    (fun hres hle _ hready => clientFill_filled side t rfl hbuf hres hle hready) _
    ⟨.opened r target final, .fresh _, []⟩ target (Nat.le_refl _) (Int.le_refl _) (opened_rest t rfl)
    ⟨.refl _, client_opens target _ rfl⟩
  exact ⟨client, hleaves.returns, hframed⟩

end

section
variable {r : Request} {strip : Int} {nr ct : Nat} {target final : Int}

section
variable (hs : 0 < strip) (hn : nr < ct) (hnn : ∀ x ∈ r.window target final, 0 ≤ x)
include hs hn hnn

/-- **Message by message.**  The same bytes in buffers of one size agree when each of the bytes
comes back from where it is stored. -/
theorem Framed.agree_iff {n : Nat} {v : List (Int × Int)} {client server : List (List (Int × Int))}
    (hc : Framed n (bufferByte target) v client)
    (hsv : Framed n (physicalByte (.striped strip nr ct)) v server)
    (hv : ∀ q ∈ v, q ∈ visit (striped strip nr ct).visible target
      (r.window target final)) :
    List.Forall₂ (SameMessage r strip nr ct target final) client server ↔
      ∀ q ∈ v, q.2 < stripeLimit strip ct := by
  induction hc generalizing server with
  | done =>
    cases hsv with
    | done => simp
    | message hne => exact absurd rfl hne
  | @message v segs messages hne hpos hsegs _ ih =>
    cases hsv with
    | done => exact absurd rfl hne
    | @message _ segs' _ _ hpos' hsegs' rest' =>
      have hsize : messageSize segs = messageSize segs' := by
        unfold messageSize
        rw [sum_sizes hpos, sum_sizes hpos', hsegs, hsegs', List.length_map, List.length_map]
      have htake : ∀ q ∈ v.take n, q ∈ visit (striped strip nr ct).visible target
          (r.window target final) := fun q hq => hv q (List.mem_of_mem_take hq)
      rw [List.forall₂_cons, ih rest' fun q hq => hv q (List.mem_of_mem_drop hq), SameMessage,
        sameStream_iff_of_visited hs hn hnn htake hsegs' hsegs]
      conv_rhs => rw [← List.take_append_drop n v]
      simp only [List.mem_append, or_imp, forall_and]
      exact and_congr_left fun _ => and_iff_right hsize

theorem framingAgrees_of_lt_limit (hr : r.Wf) (h0 : 0 ≤ target) (htf : target < final)
    (hx : ∀ x ∈ r.window target final, (simpleStripe strip).Mapped nr ct x →
      x < stripeLimit strip ct) : FramingAgrees r strip nr ct target final := by
  intro bufferSize hbuf
  have law := striped_lawful hs hn
  have t : Transfer r target final (stripeLimit strip ct) (.striped strip nr ct)
      (Reachable (.striped strip nr ct) (stripeLimit strip ct)) :=
    ⟨hr, h0, htf, hx, fun q hq =>
      ⟨hnn _ (snd_mem_of_numbered hq), fun hm => hx _ (snd_mem_of_numbered hq) hm⟩⟩
  obtain ⟨client, hclient, hc⟩ := clientMessages_framed
    (client_side fun b _ _ => client_serves law target (maxRegions, b)) t hbuf
  obtain ⟨server, hserver, hsv⟩ := serverMessages_framed
    (server_side fun b _ _ => server_serves law target (maxRegions, b)) t hbuf
  refine ⟨client, server, hclient, hserver, ?_⟩
  exact (hc.agree_iff hs hn hnn hsv fun _ hq => hq).mpr (visited_lt_iff.mpr hx)

theorem FramingAgrees.lt_limit (h : FramingAgrees r strip nr ct target final) (hr : r.Wf)
    (h0 : 0 ≤ target) (htf : target < final) :
    ∀ x ∈ r.window target final, (simpleStripe strip).Mapped nr ct x →
      x < stripeLimit strip ct := by
  obtain ⟨limit, hlim⟩ := exists_limit (r.window target final)
  have t : Transfer r target final limit (.striped strip nr ct) fun _ x => 0 ≤ x :=
    ⟨hr, h0, htf, fun x hx _ => hlim x hx, fun q hq => hnn _ (snd_mem_of_numbered hq)⟩
  have hone : ∀ b : Int, 0 < b → b ≤ 1 → b = 1 := fun b h1 h2 => by omega
  obtain ⟨client', hclient', hc⟩ := clientMessages_framed
    (client_side fun b h1 h2 => hone b h1 h2 ▸ client_serves_one hs hn target limit maxRegions) t
    Int.one_pos
  obtain ⟨server', hserver', hsv⟩ := serverMessages_framed
    (server_side fun b h1 h2 => hone b h1 h2 ▸ server_serves_one hs hn target limit maxRegions) t
    Int.one_pos
  obtain ⟨client, server, hclient, hserver, hsame⟩ := h 1 Int.one_pos
  obtain rfl : client = client' := Option.some.inj (hclient.unique hclient')
  obtain rfl : server = server' := Option.some.inj (hserver.unique hserver')
  exact visited_lt_iff.mp ((hc.agree_iff hs hn hnn hsv fun _ hq => hq).mp hsame)

end

/-- **Client and server frame a write alike**, with any buffer size, exactly when every byte of the
window that this server stores lies below `2 ^ 31` full stripes. -/
theorem framing_agrees_iff (hr : r.Built fun _ => True) (hs : 0 < strip) (hn : nr < ct)
    (h0 : 0 ≤ target) (htf : target < final) (hnn : ∀ x ∈ r.window target final, 0 ≤ x) :
    FramingAgrees r strip nr ct target final ↔
      ∀ x ∈ r.window target final, (simpleStripe strip).Mapped nr ct x →
        x < stripeLimit strip ct :=
  ⟨fun h => h.lt_limit hs hn hnn hr.wf h0 htf, framingAgrees_of_lt_limit hs hn hnn hr.wf h0 htf⟩

/-- The second of two servers, and a window over two copies of a type with a gap. -/
theorem framing_agrees_vector :
    ∃ r, Request.vector 2 1 2 .pintByte = some r ∧ FramingAgrees r 2 1 2 0 4 :=
  ⟨_, rfl, (framing_agrees_iff
    (@Request.Built.vector _ 2 1 2 .pintByte _ (by decide) (by decide) trivial
      (.elementary (by decide)) rfl)
    (by decide) (by decide) (by decide) (by decide) (by decide)).mpr (by decide)⟩

/-- One byte past `2 ^ 31` full stripes of four bytes: the server writes it from message 0 to a
place that is another byte of the file. -/
theorem framing_disagrees_past_limit :
    ∃ r, Request.hindexed [(1, 2 ^ 33)] .pintByte = some r ∧ (r.Built fun _ => True) ∧
      r.window 0 1 = [2 ^ 33] ∧ (simpleStripe 2).Mapped 0 2 (2 ^ 33) ∧
      (simpleStripe 2).logicalToPhysicalOffset 0 2 (2 ^ 33) = -(2 ^ 32) + 2 ∧
      ¬ FramingAgrees r 2 0 2 0 1 := by
  refine ⟨_, rfl, ?_⟩
  have hb := @Request.Built.hindexed (fun _ => True) [(1, 2 ^ 33)] .pintByte _ (by decide)
    (by decide) (.elementary (by decide)) rfl
  refine ⟨hb, by decide, by decide, by decide, fun h => ?_⟩
  have hlt := h.lt_limit (by decide) (by decide) (by decide) hb.wf (by decide) (by decide) (2 ^ 33)
    (by decide) (by decide)
  exact absurd hlt (by decide)

end

end Pvfs.Flow
