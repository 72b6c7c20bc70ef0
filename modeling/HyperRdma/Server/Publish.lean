import HyperRdma.Failures
import HyperRdma.NicSends
import HyperRdma.Server.Records
import Mathlib.Data.List.Nodup

/-!
# Publishing the three regions

`start` sends three messages from one buffer and writes the buffer again only
after the completion of the send before has been dispatched. Which flag a send
completion sets depends on its `wr_id`; that of the first message is whatever
the memory held, but `start` gets past the first wait only if it names the
start region, and then no completion is mistaken for another's.
-/

namespace HyperRdma.Server

open ByteOrder Memory CompletionChannel Transition

/-- The regions whose messages have been posted. -/
def MainPc.posted : MainPc → List Region
  | .greet | .createId | .bind | .waitRequest | .allocPd | .createChannel | .createCq | .reqNotify
  | .createQp | .readQp | .setupBuffer | .postRecv | .startCq | .accept | .waitConnected
  | .waitRemote | .sendBuf .start | .sendRkey .start | .sendSize .start | .post .start => []
  | .waitSend .start | .sendBuf .cls | .sendRkey .cls | .sendSize .cls | .post .cls => [.start]
  | .copyObject _ | .copyArray _ | .waitSend .cls | .sendBuf .sketch | .sendRkey .sketch
  | .sendSize .sketch | .fill _ | .post .sketch => [.start, .cls]
  | _ => [.start, .cls, .sketch]

/-- The region whose whole descriptor is in `send_buf`. -/
def MainPc.holding : MainPc → Option Region
  | .greet | .createId | .bind | .waitRequest | .allocPd | .createChannel | .createCq | .reqNotify
  | .createQp | .readQp | .setupBuffer | .postRecv | .startCq | .accept | .waitConnected
  | .waitRemote | .sendBuf _ | .sendRkey _ | .sendSize _ => none
  | .post k | .waitSend k => some k
  | .copyObject _ | .copyArray _ => some .cls
  | _ => some .sketch

/-- The wait for the first message's completion is over. -/
def MainPc.identified (pc : MainPc) : Bool := pc.posted != [] && pc != .waitSend .start

/-- What is in `send_buf` at a location. -/
def Written (cfg : Config) (m : Mem Buf) : MainPc → Prop
  | .sendRkey .sketch =>
      getBuf m .sendBuf = htobe64 (cfg.advertised .sketch).addr ∧
        getSize m .sendBuf = htobe32 (cfg.advertised .sketch).len
  | .sendSize .sketch => getBuf m .sendBuf = htobe64 (cfg.advertised .sketch).addr
  | .sendRkey k => getBuf m .sendBuf = htobe64 (cfg.advertised k).addr
  | .sendSize k =>
      getBuf m .sendBuf = htobe64 (cfg.advertised k).addr ∧
        getRkey m .sendBuf = htobe32 (cfg.advertised k).rkey
  | pc => ∀ k, pc.holding = some k → load m .sendBuf 0 16 = (cfg.advertised k).encode

/-- The bytes of a message, by its immediate code. -/
def body (cfg : Config) (r : SendReq) : List UInt8 :=
  match r.imm.bind fun x => Region.ofImm (be32toh x) with
  | some k => (cfg.advertised k).encode
  | none => []

theorem body_publishReq (cfg : Config) (w : Records) (k : Region) :
    body cfg (publishReq cfg w k) = (cfg.advertised k).encode := by
  simp [body, publishReq]

theorem publishReq_injective (cfg : Config) (w : Records) :
    Function.Injective (publishReq cfg w) := by
  intro k k' h
  have himm : htobe32 k.imm = htobe32 k'.imm := by
    have h := congrArg SendReq.imm h
    simpa only [publishReq, Option.some.injEq] using h
  have hcode := congrArg (fun x => Region.ofImm (be32toh x)) himm
  simpa using hcode

/-! ## The completion flags -/

/-- The flags are set by the dispatched send completions that name them. -/
def Completed (s : Server) : Prop :=
  ∀ k, s.sendComplete k = true ↔
    ∃ wc ∈ s.dispatched, wc.opcode = .send ∧ sentRegion wc.wrId = some k

theorem Completed.same {s s' : Server} (inv : s.Completed)
    (hflags : s'.sendComplete = s.sendComplete) (hds : s'.dispatched = s.dispatched) :
    s'.Completed := by
  unfold Completed
  rw [hflags, hds]
  exact inv

/-- A completion that sets no flag. -/
theorem Completed.skip {s s' : Server} {wc : IbvWc} (inv : s.Completed)
    (hflags : s'.sendComplete = s.sendComplete) (hds : s'.dispatched = s.dispatched ++ [wc])
    (hwc : wc.opcode = .send → sentRegion wc.wrId = none) : s'.Completed := by
  intro k
  rw [hflags, hds, inv k]
  constructor
  · rintro ⟨x, hx, hk⟩
    exact ⟨x, List.mem_append_left _ hx, hk⟩
  · rintro ⟨x, hx, hop, hk⟩
    rcases List.mem_append.mp hx with hx | hx
    · exact ⟨x, hx, hop, hk⟩
    · obtain rfl := List.mem_singleton.mp hx
      rw [hwc hop] at hk
      cases hk

theorem Completed.cqThread {s s' : Server} (inv : s.Completed) (h : s.cqThread = some s') :
    s'.Completed := by
  unfold Server.cqThread at h
  split at h
  next wc _ =>
    obtain rfl := Option.some.inj h
    unfold dispatch
    split
    next hop =>
      split <;> exact inv.skip rfl rfl (by simp [hop])
    next hop =>
      split
      next k hk =>
        intro j
        change Function.update s.sendComplete k true j = true ↔
          ∃ x ∈ s.dispatched ++ [wc], x.opcode = .send ∧ sentRegion x.wrId = some j
        by_cases hj : j = k
        · subst hj
          simp only [Function.update_self, true_iff]
          exact ⟨wc, by simp, hop, hk⟩
        · simp only [Function.update_of_ne hj]
          rw [inv j]
          constructor
          · rintro ⟨x, hx, hj'⟩
            exact ⟨x, List.mem_append_left _ hx, hj'⟩
          · rintro ⟨x, hx, hopx, hj'⟩
            rcases List.mem_append.mp hx with hx | hx
            · exact ⟨x, hx, hopx, hj'⟩
            · obtain rfl := List.mem_singleton.mp hx
              rw [hk] at hj'
              exact absurd (Option.some.inj hj').symm hj
      next hnone => exact inv.skip rfl rfl fun _ => hnone
    next _ hne => exact inv.skip rfl rfl fun hop => absurd hop hne
  next k _ =>
    obtain rfl := Option.some.inj h
    cases k <;> exact inv.same rfl rfl
  · obtain ⟨d, hd, rfl⟩ := Option.map_eq_some_iff.mp h
    exact inv.same rfl (Drain.control_dispatched hd)

theorem Completed.step {cfg : Config} {l : Label} {s s' : Server} (inv : s.Completed)
    (h : s.step cfg l = some s') : s'.Completed := by
  have hds := step_dispatched h
  simp only [Server.step, Option.ite_none_left_eq_some] at h
  obtain ⟨-, h⟩ := h
  cases l with
  | main => exact inv.same (mainThread_unreported h).sendComplete (hds.resolve_right (by simp))
  | cq => exact inv.cqThread h
  | cm =>
      obtain ⟨es, pc, st, id, rs, rfl⟩ := cmThread_cases h
      exact inv
  | cmEvent e =>
      obtain rfl := Option.some.inj h
      exact inv
  | nic l =>
      obtain ⟨n, hn, rfl⟩ := Option.map_eq_some_iff.mp h
      exact inv

theorem reach_completed {cfg : Config} {ok : Server → Label → Prop} {calls : List Call}
    {s : Server} (run : Reach (Server.step cfg) ok (Fresh calls) s) : s.Completed := by
  refine run.invariant (fun s h => ?_) fun _ _ _ inv _ h => inv.step h
  intro k
  simp [h.sendComplete k, h.dispatched]

/-- A flag that is set goes back to a request which has completed. -/
theorem Completed.retired {cfg : Config} {w : Records} {s : Server} (inv : s.Completed)
    (hcons : s.nic.Conserved) (hsends : SendsInv cfg w s) (hqueue : s.QueueInv) {k : Region}
    (hk : s.sendComplete k = true) :
    ∃ k', publishReq cfg w k' ∈ s.nic.retired ∧ sentRegion (publishId w k') = some k := by
  obtain ⟨wc, hwc, hop, hid⟩ := (inv k).mp hk
  have harr : wc ∈ s.nic.ch.arrived := by
    have hord : s.nic.ch.arrived = s.dispatched ++ s.cqPc.held ++ s.nic.ch.cq :=
      hqueue.lossless.ordered
    rw [hord]
    simp [hwc]
  obtain ⟨r, hr, -, rfl⟩ := hcons.mem_retired harr (by rw [hop]; rfl)
  have hreq : Request cfg w r := by
    apply hsends.requests
    rw [hsends.ordered]
    simp [hr]
  cases hreq with
  | publish k' => exact ⟨k', hr, hid⟩
  | read | write => cases hop

/-! ## The invariant -/

/-- The send side of a server whose records were found with the contents `w`. -/
structure Publishing (cfg : Config) (w : Records) (s : Server) : Prop where
  written : Written cfg s.nic.mem s.mainPc
  posts : Nic.sends s.nic.posts = s.mainPc.posted.map (publishReq cfg w)
  flushed : s.mainPc.holding = none → ∀ e ∈ s.nic.sq, e.req.opcode.isSend = false
  known : s.mainPc.identified = true → sentRegion w.sqWr.wrId = some .start
  carries : s.nic.Carries cfg (body cfg)

theorem Written.congr {cfg : Config} {m m' : Mem Buf} {pc : MainPc} (h : Written cfg m pc)
    (hbuf : m' .sendBuf = m .sendBuf) : Written cfg m' pc := by
  have hload : ∀ off n, load m' .sendBuf off n = load m .sendBuf off n :=
    fun off n => load_congr fun k _ => by rw [hbuf]
  have hb : getBuf m' .sendBuf = getBuf m .sendBuf := Be.ext (hload 0 8)
  have hr : getRkey m' .sendBuf = getRkey m .sendBuf := Be.ext (hload 8 4)
  have hs : getSize m' .sendBuf = getSize m .sendBuf := Be.ext (hload 12 4)
  cases pc with
  | sendRkey k | sendSize k => cases k <;> simpa only [Written, hb, hr, hs] using h
  | _ => simpa only [Written, hload] using h

/-- Before the publication, and after it. -/
def MainPc.beginning : MainPc → Bool
  | .greet | .createId | .bind | .waitRequest | .allocPd | .createChannel | .createCq | .reqNotify
  | .createQp | .readQp | .setupBuffer | .postRecv | .startCq | .accept | .waitConnected
  | .waitRemote | .sendBuf .start => true
  | _ => false

def MainPc.calling : MainPc → Bool
  | .next | .readCheck | .readClear | .readAddr | .readRkey | .readLen | .readPost
  | .writeCopy | .writeAddr | .writeRkey | .writeLen | .writePost => true
  | _ => false

/-- Locations between which the publication makes no progress. -/
structure Alike (pc pc' : MainPc) : Prop where
  posted : pc'.posted = pc.posted
  holding : pc'.holding = pc.holding
  identified : pc'.identified = pc.identified
  written : ∀ cfg m, Written cfg m pc → Written cfg m pc'

theorem Alike.refl (pc : MainPc) : Alike pc pc := ⟨rfl, rfl, rfl, fun _ _ h => h⟩

theorem alike_beginning {pc pc' : MainPc} (h : pc.beginning = true) (h' : pc'.beginning = true) :
    Alike pc pc' := by
  have hnone : ∀ pc : MainPc, pc.beginning = true →
      pc.posted = [] ∧ pc.holding = none ∧ ∀ cfg m, Written cfg m pc := by
    intro pc h
    cases pc with
    | sendBuf k =>
        cases k with
        | start => exact ⟨rfl, rfl, by rintro cfg m k ⟨⟩⟩
        | cls | sketch => cases h
    | greet | createId | bind | waitRequest | allocPd | createChannel | createCq | reqNotify
    | createQp | readQp | setupBuffer | postRecv | startCq | accept | waitConnected
    | waitRemote => exact ⟨rfl, rfl, by rintro cfg m k ⟨⟩⟩
    | _ => cases h
  obtain ⟨hp, hh, -⟩ := hnone pc h
  obtain ⟨hp', hh', hw'⟩ := hnone pc' h'
  refine ⟨hp'.trans hp.symm, hh'.trans hh.symm, ?_, fun cfg m _ => hw' cfg m⟩
  rw [MainPc.identified, MainPc.identified, hp, hp']
  rfl

theorem alike_calling {pc pc' : MainPc} (h : pc.calling = true) (h' : pc'.calling = true) :
    Alike pc pc' := by
  have hall : ∀ pc : MainPc, pc.calling = true → Alike .next pc := by
    intro pc h
    cases pc with
    | next | readCheck | readClear | readAddr | readRkey | readLen | readPost | writeCopy
    | writeAddr | writeRkey | writeLen | writePost => exact ⟨rfl, rfl, rfl, fun _ _ hw => hw⟩
    | _ => cases h
  have hback : ∀ pc : MainPc, pc.calling = true → ∀ cfg m, Written cfg m pc → Written cfg m .next := by
    intro pc h
    cases pc with
    | next | readCheck | readClear | readAddr | readRkey | readLen | readPost | writeCopy
    | writeAddr | writeRkey | writeLen | writePost => exact fun _ _ hw => hw
    | _ => cases h
  obtain ⟨hp, hh, hi, -⟩ := hall pc h
  obtain ⟨hp', hh', hi', hw'⟩ := hall pc' h'
  exact ⟨hp'.trans hp.symm, hh'.trans hh.symm, hi'.trans hi.symm,
    fun cfg m hw => hw' cfg m (hback pc h cfg m hw)⟩

/-- The publication makes no progress, and nothing it depends on changes. -/
theorem Publishing.same {cfg : Config} {w : Records} {s s' : Server} (inv : Publishing cfg w s)
    (hpc : Alike s.mainPc s'.mainPc) (hbuf : s'.nic.mem .sendBuf = s.nic.mem .sendBuf)
    (hposts : Nic.sends s'.nic.posts = Nic.sends s.nic.posts)
    (hsq : ∀ e ∈ s'.nic.sq, e.req.opcode.isSend = true → ∃ e₀ ∈ s.nic.sq, e.req = e₀.req)
    (hcarries : s'.nic.Carries cfg (body cfg)) : Publishing cfg w s' := by
  refine ⟨(hpc.written _ _ inv.written).congr hbuf, ?_, ?_, ?_, hcarries⟩
  · rw [hposts, hpc.posted]
    exact inv.posts
  · rw [hpc.holding]
    intro hnone e he
    by_contra hop
    obtain ⟨e₀, he₀, hreq⟩ := hsq e he (by simpa using hop)
    rw [hreq] at hop
    exact hop (inv.flushed hnone e₀ he₀)
  · rw [hpc.identified]
    exact inv.known

theorem Publishing.goto {cfg : Config} {w : Records} {s s' : Server} (inv : Publishing cfg w s)
    (hs : s.nic.SameSends s'.nic) (hbuf : s'.nic.mem .sendBuf = s.nic.mem .sendBuf)
    (hpc : Alike s.mainPc s'.mainPc) : Publishing cfg w s' := by
  refine inv.same hpc hbuf (by rw [hs.posts]) ?_ (hs.carries inv.carries (.inl hbuf))
  obtain ⟨rq, recvPosts, ch, mem, he, -⟩ := hs
  rw [he]
  exact fun e he _ => ⟨e, he, rfl⟩

/-- A one-sided request is posted. -/
theorem Publishing.request {cfg : Config} {w : Records} {s s' : Server}
    (inv : Publishing cfg w s) {r : SendReq} (hn : Nic.Posted r s.nic s'.nic)
    (hop : r.opcode.isSend = false) (hpc : Alike s.mainPc s'.mainPc) : Publishing cfg w s' := by
  refine inv.same hpc (by rw [hn.eq]) ?_ ?_ (hn.carries inv.carries ?_)
  · rw [hn.eq, Nic.sends_append]
    simp [Nic.sends, hop]
  · rw [hn.eq]
    intro e he hsend
    rcases List.mem_append.mp he with he | he
    · exact ⟨e, he, rfl⟩
    · obtain rfl := List.mem_singleton.mp he
      rw [hop] at hsend
      cases hsend
  · simp [hop]

/-- The buffer may be written where no send is outstanding. -/
theorem Publishing.fill {cfg : Config} {w : Records} {s s' : Server} (inv : Publishing cfg w s)
    (hs : s.nic.SameSends s'.nic) (hnone : s.mainPc.holding = none)
    (hwritten : Written cfg s'.nic.mem s'.mainPc)
    (hposted : s'.mainPc.posted = s.mainPc.posted)
    (hident : s'.mainPc.identified = s.mainPc.identified) : Publishing cfg w s' := by
  have hidle := inv.flushed hnone
  refine ⟨hwritten, ?_, fun _ => ?_, ?_, hs.carries inv.carries (.inr hidle)⟩
  · rw [hs.posts, hposted]
    exact inv.posts
  · obtain ⟨rq, recvPosts, ch, mem, he, -⟩ := hs
    rw [he]
    exact hidle
  · rw [hident]
    exact inv.known

/-- Where `start` goes on after posting a region's message. -/
def MainPc.afterPost : Region → MainPc
  | .start => .waitSend .start
  | .cls => .copyObject 0
  | .sketch => .waitSend .sketch

/-- The outcomes of posting a region's message. -/
theorem mainThread_post {cfg : Config} {s s' : Server} {k : Region} (hpc : s.mainPc = .post k)
    (h : s.mainThread cfg = some s') : ∃ w, s' = (s.setWrs w).exit ∨
      s' = { s.setWrs w with
        mainPc := MainPc.afterPost k
        nic := { s.nic with
          sq := s.nic.sq ++ [⟨s.wrs.request (s.publishWr k), fun _ => none⟩]
          posts := s.nic.posts ++ [s.wrs.request (s.publishWr k)] } } := by
  cases k with
  | start =>
      simp only [mainThread, hpc, publish, Option.some.injEq] at h
      subst h
      refine ⟨{ s.wrs with sqWr := s.publishWr .start }, ?_⟩
      exact postSend_cases (s.setWrs { s.wrs with sqWr := s.publishWr .start }) _ _
  | cls | sketch =>
      simp only [mainThread, hpc, publish, Option.some.injEq] at h
      subst h
      exact ⟨s.wrs, postSend_cases s _ _⟩

/-- The location after a posting call. -/
def MainPc.handedOver : MainPc → MainPc
  | .post k => afterPost k
  | _ => .next

/-- At a posting location the main thread hands its request over, or ends the program. -/
theorem mainThread_posting (cfg : Config) {s : Server} {r : SendReq} (h : s.posting = some r) :
    ∃ w, s.mainThread cfg = some (match s.nic.postSend r with
      | none => { s with wrs := w, exited := true }
      | some n => { s with wrs := w, nic := n, mainPc := s.mainPc.handedOver }) := by
  cases hpc : s.mainPc with
  | post k =>
      simp only [posting, hpc, Option.some.injEq] at h
      subst h
      cases k with
      | start =>
          refine ⟨{ s.wrs with sqWr := s.publishWr .start }, ?_⟩
          have hreq : (s.setWrs { s.wrs with sqWr := s.publishWr .start }).wrs.request
              (s.publishWr .start) = s.wrs.request (s.publishWr .start) := rfl
          simp only [mainThread, hpc, publish, postSend, hreq]
          change some (match s.nic.postSend (s.wrs.request (s.publishWr .start)) with
            | none => _
            | some n => _) = _
          cases s.nic.postSend (s.wrs.request (s.publishWr .start)) <;>
            simp [exit, setWrs, hpc, MainPc.handedOver, MainPc.afterPost]
      | cls =>
          refine ⟨s.wrs, ?_⟩
          simp only [mainThread, hpc, publish, postSend]
          cases s.nic.postSend (s.wrs.request (s.publishWr .cls)) <;>
            simp [exit, hpc, MainPc.handedOver, MainPc.afterPost]
      | sketch =>
          refine ⟨s.wrs, ?_⟩
          simp only [mainThread, hpc, publish, postSend]
          cases s.nic.postSend (s.wrs.request (s.publishWr .sketch)) <;>
            simp [exit, hpc, MainPc.handedOver, MainPc.afterPost]
  | readPost | writePost =>
      simp only [posting, hpc, Option.some.injEq] at h
      subst h
      refine ⟨s.wrs, ?_⟩
      simp only [mainThread, hpc, rdmaRead, rdmaWrite, postSend]
      cases s.nic.postSend (s.wrs.request s.wrs.rdmaSqWr) <;> simp [exit, hpc, MainPc.handedOver]
  | _ => simp [posting, hpc] at h

theorem Publishing.post {cfg : Config} {w : Records} {s s' : Server} (inv : Publishing cfg w s)
    {k : Region} (hpc : s.mainPc = .post k) (hpc' : s'.mainPc = MainPc.afterPost k)
    (hn : Nic.Posted (publishReq cfg w k) s.nic s'.nic) : Publishing cfg w s' := by
  have hload : load s.nic.mem .sendBuf 0 16 = (cfg.advertised k).encode := by
    have hwritten := inv.written
    rw [hpc] at hwritten
    exact hwritten k rfl
  have hmem : s'.nic.mem = s.nic.mem := by rw [hn.eq]
  refine ⟨?_, ?_, ?_, ?_, ?_⟩
  · rw [hmem, hpc']
    cases k <;> exact fun j hj => Option.some.inj hj ▸ hload
  · have hposts := inv.posts
    rw [hpc] at hposts
    rw [hn.eq, hpc']
    simp only [Nic.sends_append, hposts]
    cases k <;> rfl
  · rw [hpc']
    cases k <;> rintro ⟨⟩
  · have hknown := inv.known
    rw [hpc] at hknown
    rw [hpc']
    cases k with
    | start => rintro ⟨⟩
    | cls | sketch => exact fun _ => hknown rfl
  · exact hn.carries inv.carries fun _ => ⟨rfl, hload.trans (body_publishReq cfg w k).symm⟩

theorem Publishing.of_fresh {cfg : Config} {calls : List Call} {s : Server} (h : Fresh calls s) :
    Publishing cfg s.wrs s := by
  refine ⟨?_, ?_, ?_, ?_, h.nic.carries⟩
  · rw [h.mainPc]
    rintro k ⟨⟩
  · rw [h.mainPc, h.nic.posts]
    rfl
  · simp [h.nic.sq]
  · rw [h.mainPc]
    rintro ⟨⟩

theorem posted_nodup (pc : MainPc) : pc.posted.Nodup := by
  unfold MainPc.posted
  split <;> decide

/-- When a wait for a send's completion ends, the first message's `wr_id` has been recognised
and no send is outstanding. -/
theorem Publishing.completed {cfg : Config} {w : Records} {s : Server} {k : Region}
    (inv : Publishing cfg w s) (hcomp : s.Completed) (hcons : s.nic.Conserved)
    (hsends : SendsInv cfg w s) (hqueue : s.QueueInv) (hpc : s.mainPc = .waitSend k)
    (hk : s.sendComplete k = true) :
    sentRegion w.sqWr.wrId = some .start ∧ ∀ e ∈ s.nic.sq, e.req.opcode.isSend = false := by
  obtain ⟨k', hret, hid⟩ := hcomp.retired hcons hsends hqueue hk
  have hposts := inv.posts
  rw [hpc] at hposts
  have hmem : publishReq cfg w k' ∈ Nic.sends s.nic.posts := by
    refine List.mem_filter.mpr ⟨?_, rfl⟩
    rw [hsends.ordered]
    simp [hret]
  have hk' : k' ∈ (MainPc.waitSend k).posted := by
    rw [hposts] at hmem
    obtain ⟨j, hj, he⟩ := List.mem_map.mp hmem
    rwa [← publishReq_injective cfg w he]
  -- the completion is that of the last message, since each earlier one names another region
  have hstart : sentRegion w.sqWr.wrId = some .start := by
    cases k with
    | start =>
        obtain rfl := List.mem_singleton.mp hk'
        exact hid
    | cls | sketch => exact inv.known (by rw [hpc]; rfl)
  have hsame : k' = k := by
    have hown : sentRegion (publishId w k') = some k' := by
      cases k' with
      | start => exact hstart
      | cls | sketch => rfl
    rw [hid] at hown
    exact (Option.some.inj hown).symm
  subst hsame
  refine ⟨hstart, ?_⟩
  have hnodup : (Nic.sends s.nic.posts).Nodup := by
    rw [hposts]
    exact List.Nodup.map (publishReq_injective cfg w) (posted_nodup _)
  have hlast : (Nic.sends s.nic.posts).getLast? = some (publishReq cfg w k') := by
    rw [hposts]
    cases k' <;> rfl
  obtain ⟨-, hsq⟩ := hsends.ordered.flushed hnodup hlast hret
  intro e he
  by_contra hop
  have hin : e.req ∈ Nic.sends (s.nic.sq.map SqEntry.req) :=
    List.mem_filter.mpr ⟨List.mem_map_of_mem he, by simpa using hop⟩
  rw [hsq] at hin
  cases hin

theorem Publishing.waitSend {cfg : Config} {w : Records} {s : Server} {k : Region} {pc : MainPc}
    (inv : Publishing cfg w s) (hcomp : s.Completed) (hcons : s.nic.Conserved)
    (hsends : SendsInv cfg w s) (hqueue : s.QueueInv) (hpc : s.mainPc = .waitSend k)
    (hk : s.sendComplete k = true) (hposted : pc.posted = (MainPc.waitSend k).posted)
    (hw : ∀ m : Mem Buf, load m .sendBuf 0 16 = (cfg.advertised k).encode → Written cfg m pc) :
    Publishing cfg w (s.goto pc) := by
  obtain ⟨hstart, hidle⟩ := inv.completed hcomp hcons hsends hqueue hpc hk
  have hload : load s.nic.mem .sendBuf 0 16 = (cfg.advertised k).encode := by
    have hwritten := inv.written
    rw [hpc] at hwritten
    exact hwritten k rfl
  refine ⟨hw _ hload, ?_, fun _ => hidle, fun _ => hstart, inv.carries⟩
  have hposts := inv.posts
  rw [hpc, ← hposted] at hposts
  exact hposts

theorem Publishing.mainThread {cfg : Config} {w : Records} {s s' : Server}
    (inv : Publishing cfg w s) (hcomp : s.Completed) (hcons : s.nic.Conserved)
    (hsends : SendsInv cfg w s) (hqueue : s.QueueInv) (h : s.mainThread cfg = some s') :
    Publishing cfg w s' := by
  have hmain := mainThread_sends h
  have hwritten := inv.written
  cases hpc : s.mainPc with
  | waitSend k =>
      simp only [Server.mainThread, hpc, publish, Option.ite_none_left_eq_some,
        Option.some.injEq] at h
      obtain ⟨hk, rfl⟩ := h
      have hk : s.sendComplete k = true := by simpa using hk
      refine inv.waitSend hcomp hcons hsends hqueue hpc hk ?_ ?_
      · cases k <;> rfl
      · intro m hm
        cases k with
        | start | cls => rintro j ⟨⟩
        | sketch =>
            intro j hj
            obtain rfl := Option.some.inj hj
            exact hm
  | post k =>
      obtain ⟨w', hout⟩ := mainThread_posting cfg (hsends.records.posting_publish hpc)
      rw [hout, Option.some.injEq] at h
      subst h
      cases hn : s.nic.postSend (publishReq cfg w k) with
      | none => exact inv.goto (.refl _) rfl (.refl _)
      | some n => exact inv.post hpc (by rw [hpc]; rfl) hn
  | sendBuf k =>
      have hs := hmain.resolve_right (by simp [posting, hpc])
      simp only [Server.mainThread, hpc, publish, Option.some.injEq] at h
      subst h
      have hb : ∀ m : Mem Buf, getBuf (setBuf m .sendBuf (htobe64 (cfg.advertised k).addr)) .sendBuf =
        htobe64 (cfg.advertised k).addr := fun m => getBuf_setBuf ..
      refine inv.fill hs (by rw [hpc]; rfl) ?_ ?_ ?_
      · cases k <;> exact hb _
      all_goals
        rw [hpc]
        cases k <;> rfl
  | sendRkey k =>
      have hs := hmain.resolve_right (by simp [posting, hpc])
      rw [hpc] at hwritten
      simp only [Server.mainThread, hpc, publish, Option.some.injEq] at h
      subst h
      refine inv.fill hs (by rw [hpc]; rfl) ?_ ?_ ?_
      · cases k with
        | start | cls => exact ⟨(getBuf_setRkey ..).trans hwritten, getRkey_setRkey ..⟩
        | sketch =>
            intro j hj
            obtain rfl := Option.some.inj hj
            refine (load_eq_encode_iff _ _ _).mpr ⟨?_, getRkey_setRkey .., ?_⟩
            · exact (getBuf_setRkey ..).trans hwritten.1
            · exact (getSize_setRkey ..).trans hwritten.2
      all_goals
        rw [hpc]
        cases k <;> rfl
  | sendSize k =>
      have hs := hmain.resolve_right (by simp [posting, hpc])
      rw [hpc] at hwritten
      simp only [Server.mainThread, hpc, publish, Option.some.injEq] at h
      subst h
      refine inv.fill hs (by rw [hpc]; rfl) ?_ ?_ ?_
      · cases k with
        | start | cls =>
            intro j hj
            obtain rfl := Option.some.inj hj
            refine (load_eq_encode_iff _ _ _).mpr ⟨?_, ?_, getSize_setSize ..⟩
            · exact (getBuf_setSize ..).trans hwritten.1
            · exact (getRkey_setSize ..).trans hwritten.2
        | sketch => exact ⟨(getBuf_setSize ..).trans hwritten, getSize_setSize ..⟩
      all_goals
        rw [hpc]
        cases k <;> rfl
  | fill i =>
      have hs := hmain.resolve_right (by simp [posting, hpc])
      have hlike : Alike (.fill i) (.fill (i + 1)) ∧ Alike (.fill i) (.post .sketch) :=
        ⟨⟨rfl, rfl, rfl, fun _ _ hw => hw⟩, ⟨rfl, rfl, rfl, fun _ _ hw => hw⟩⟩
      simp only [Server.mainThread, hpc, publish] at h
      split at h <;> obtain rfl := Option.some.inj h
      · exact inv.goto hs rfl (hpc ▸ hlike.1)
      · exact inv.goto hs rfl (hpc ▸ hlike.2)
  | copyObject j =>
      have hs := hmain.resolve_right (by simp [posting, hpc])
      have hlike : Alike (.copyObject j) (.copyObject (j + 1)) ∧
          Alike (.copyObject j) (.copyArray 0) :=
        ⟨⟨rfl, rfl, rfl, fun _ _ hw => hw⟩, ⟨rfl, rfl, rfl, fun _ _ hw => hw⟩⟩
      simp only [Server.mainThread, hpc, publish] at h
      split at h <;> obtain rfl := Option.some.inj h
      · exact inv.goto hs rfl (hpc ▸ hlike.1)
      · exact inv.goto hs rfl (hpc ▸ hlike.2)
  | copyArray j =>
      have hs := hmain.resolve_right (by simp [posting, hpc])
      have hlike : Alike (.copyArray j) (.copyArray (j + 1)) ∧
          Alike (.copyArray j) (.waitSend .cls) :=
        ⟨⟨rfl, rfl, rfl, fun _ _ hw => hw⟩, ⟨rfl, rfl, rfl, fun _ _ hw => hw⟩⟩
      simp only [Server.mainThread, hpc, publish] at h
      split at h <;> obtain rfl := Option.some.inj h
      · exact inv.goto hs rfl (hpc ▸ hlike.1)
      · exact inv.goto hs rfl (hpc ▸ hlike.2)
  | readPost | writePost =>
      have hend : Alike s.mainPc s'.mainPc ∧ s'.nic.mem = s.nic.mem := by
        simp only [Server.mainThread, hpc, rdmaRead, rdmaWrite, Option.some.injEq] at h
        subst h
        rcases postSend_cases _ _ _ with he | he <;> rw [he]
        · exact ⟨.refl _, rfl⟩
        · exact ⟨alike_calling (by rw [hpc]; rfl) rfl, rfl⟩
      rcases hmain with hs | ⟨r, hr, hn⟩
      · exact inv.goto hs (by rw [hend.2]) hend.1
      · have hop := (hsends.records.request hr).2.resolve_left (by simp [hpc])
        exact inv.request hn hop hend.1
  | next =>
      have hs := hmain.resolve_right (by simp [posting, hpc])
      simp only [Server.mainThread, hpc, script] at h
      split at h
      · cases h
      next call rest _ =>
        obtain rfl := Option.some.inj h
        exact inv.goto hs rfl (alike_calling (by rw [hpc]; rfl) (by cases call <;> rfl))
  | postRecv =>
      have hs := hmain.resolve_right (by simp [posting, hpc])
      simp only [Server.mainThread, hpc, start, Option.some.injEq] at h
      subst h
      rcases postRecv_cases s .startCq with he | he <;> rw [he] at hs ⊢
      · exact inv.goto hs rfl (.refl _)
      · exact inv.goto hs rfl (alike_beginning (by rw [hpc]; rfl) rfl)
  | readCheck | readClear | readAddr | readRkey | readLen | writeCopy | writeAddr | writeRkey
  | writeLen =>
      have hs := hmain.resolve_right (by simp [posting, hpc])
      simp only [Server.mainThread, hpc, rdmaRead, rdmaWrite] at h
      repeat' split at h
      all_goals try cases h
      all_goals refine inv.goto hs ?_ ?_
      all_goals first
        | rfl
        | exact .refl _
        | exact alike_calling (by rw [hpc]; rfl) rfl
  | _ =>
      have hs := hmain.resolve_right (by simp [posting, hpc])
      simp only [Server.mainThread, hpc, start] at h
      repeat' split at h
      all_goals try cases h
      all_goals exact inv.goto hs rfl (alike_beginning (by rw [hpc]; rfl) rfl)

theorem Publishing.step {cfg : Config} {w : Records} {l : Label} {s s' : Server}
    (inv : Publishing cfg w s) (hcomp : s.Completed) (hcons : s.nic.Conserved)
    (hsends : SendsInv cfg w s) (hqueue : s.QueueInv)
    (hrecvs : ∀ r ∈ s.nic.rq, r = w.recvReq cfg) (hl : l.succeeds = true)
    (h : s.step cfg l = some s') : Publishing cfg w s' := by
  simp only [Server.step, Option.ite_none_left_eq_some] at h
  obtain ⟨-, h⟩ := h
  cases l with
  | main => exact inv.mainThread hcomp hcons hsends hqueue h
  | cq =>
      obtain ⟨-, hmem, -, -, hs⟩ := cqThread_frame h
      exact inv.goto hs (by rw [hmem]) ((cqThread_drain h).1 ▸ .refl _)
  | cm =>
      obtain ⟨es, pc, st, id, rs, rfl⟩ := cmThread_cases h
      exact inv.goto (.refl _) rfl (.refl _)
  | cmEvent e =>
      obtain rfl := Option.some.inj h
      exact inv.goto (.refl _) rfl (.refl _)
  | nic l =>
      obtain ⟨n, hn, rfl⟩ := Option.map_eq_some_iff.mp h
      have hn := Nic.step_cases hn
      have hbuf : n.mem .sendBuf = s.nic.mem .sendBuf := by
        apply hn.mem_eq
        · rintro e he hop g hg heq
          rw [hsends.places e he hop g hg] at heq
          cases heq
        · intro r hr g hg
          rw [hrecvs r hr] at hg
          obtain rfl := List.mem_singleton.mp hg
          simp [Config.recvSge]
        · rintro off bs rfl
          cases hn with
          | remoteWrite hb _ => cases hb
      exact inv.same (.refl _) hbuf (by rw [hn.posts]) (fun e he _ => hn.sq_subset he)
        (inv.carries.step hn hl hbuf)

end HyperRdma.Server
