import HyperRdma.Chains
import HyperRdma.Lockstep

/-!
# What the found memory decides

The constructors leave most members as they find them. Where the `next` pointers
were found null, of everything else in the object and in the buffers the `wr_id`
of the work requests alone is handed over as it was found.
-/

namespace HyperRdma

open ByteOrder Memory CompletionChannel Transition

/-! ## Requests by location -/

namespace Client

/-- The `wr_id` of each work request was found the same. -/
structure SameWrIds (w w' : Records) : Prop where
  rqWr : w'.rqWr.wrId = w.rqWr.wrId
  sqWr : w'.sqWr.wrId = w.sqWr.wrId
  rdmaSqWr : w'.rdmaSqWr.wrId = w.rdmaSqWr.wrId
  testClassWr : w'.testClassWr.wrId = w.testClassWr.wrId
  sketchWr : w'.sketchWr.wrId = w.sketchWr.wrId

/-- The request which is handed over at a location, by the members found in the records. -/
def intended (cfg : Config) (adv : Region → RemoteInfo) (w : Records) : MainPc → Option SendReq
  | .postStart => some (sendReq cfg w)
  | .readPost =>
      some (w.rdmaReq cfg .rdmaRead (adv .start).len (Access.remote adv .rdmaRead))
  | .writePost =>
      some (w.rdmaReq cfg .rdmaWrite (adv .start).len (Access.remote adv .rdmaWrite))
  | .classPost => some (classReq cfg w (Access.remote adv .readClass))
  | .owPost i => some (sketchReq cfg w i (Access.remote adv (.owRead i)))
  | _ => none

theorem intended_congr {cfg : Config} {adv : Region → RemoteInfo} {w w' : Records}
    (h : SameWrIds w w') (hw : Unlinked w) (hw' : Unlinked w') (pc : MainPc) :
    intended cfg adv w' pc = intended cfg adv w pc := by
  cases pc <;>
    simp [intended, sendReq, classReq, sketchReq, Records.rdmaReq, h.sqWr, h.rdmaSqWr,
      h.testClassWr, h.sketchWr, hw.sqWr, hw.rdmaSqWr, hw.testClassWr, hw.sketchWr, hw'.sqWr,
      hw'.rdmaSqWr, hw'.testClassWr, hw'.sketchWr]

theorem recvReq_congr {cfg : Config} {w w' : Records} (h : SameWrIds w w') (hw : Unlinked w)
    (hw' : Unlinked w') : w'.recvReq cfg = w.recvReq cfg := by
  simp [Records.recvReq, h.rqWr, hw.rqWr, hw'.rqWr]

theorem RecordsInv.posting_eq {cfg : Config} {adv : Region → RemoteInfo} {w : Records}
    {c : Client} (inv : RecordsInv cfg w c) (hstart : Started cfg adv c) (haim : Aimed adv c) :
    c.posting = intended cfg adv w c.mainPc := by
  have htaken := hstart.taken
  have haimed := haim.taken
  cases hpc : c.mainPc with
  | postStart => exact inv.posting_start hpc
  | readPost =>
      rw [hpc] at htaken
      obtain ⟨haddr, hrkey, hlen⟩ := htaken
      rw [inv.posting_read hpc, haddr, hrkey, hlen]
      rfl
  | writePost =>
      rw [hpc] at htaken
      obtain ⟨haddr, hrkey, hlen⟩ := htaken
      rw [inv.posting_write hpc, haddr, hrkey, hlen]
      rfl
  | classPost =>
      rw [hpc] at haimed
      rw [inv.posting_class hpc, haimed.1, haimed.2]
      rfl
  | owPost i =>
      rw [hpc] at haimed
      rw [inv.posting_sketch hpc, haimed.1, haimed.2]
      rfl
  | _ => simp [posting, hpc, intended]

theorem Twin.of_fresh {calls : List Call} {c d : Client} (h : Fresh calls c)
    (h' : Fresh calls d) : c.Twin d := by
  have hgot : d.got = c.got := funext fun k => by rw [h.got k, h'.got k]
  have hd : d = { c with slot := d.slot, wrs := d.wrs, nic := d.nic } := by
    obtain ⟨⟩ := d
    simp only [Client.mk.injEq]
    exact ⟨h'.mainPc.trans h.mainPc.symm, h'.calls_eq.trans h.calls_eq.symm,
      h'.cqPc.trans h.cqPc.symm, h'.cmPc.trans h.cmPc.symm, h'.cmQueue.trans h.cmQueue.symm,
      h'.state.trans h.state.symm, hgot, trivial,
      h'.rdmaReadComplete.trans h.rdmaReadComplete.symm,
      h'.rdmaWriteComplete.trans h.rdmaWriteComplete.symm,
      h'.pendingReads.trans h.pendingReads.symm, trivial, trivial, h'.exited.trans h.exited.symm,
      h'.incs.trans h.incs.symm, h'.decs.trans h.decs.symm, h'.dispatched.trans h.dispatched.symm⟩
  rw [hd]
  exact .intro (h.nic.alike h'.nic)

end Client

namespace Server

/-- The `wr_id` of each member record which a server posts was found the same. -/
structure SameWrIds (w w' : Records) : Prop where
  rqWr : w'.rqWr.wrId = w.rqWr.wrId
  sqWr : w'.sqWr.wrId = w.sqWr.wrId
  rdmaSqWr : w'.rdmaSqWr.wrId = w.rdmaSqWr.wrId

/-- As for the client. -/
def intended (cfg : Config) (own : RemoteInfo) (w : Records) : MainPc → Option SendReq
  | .post k => some (publishReq cfg w k)
  | .readPost => some (w.rdmaReq cfg .rdmaRead own.len (own.addr, own.rkey))
  | .writePost => some (w.rdmaReq cfg .rdmaWrite own.len (own.addr, own.rkey))
  | _ => none

theorem intended_congr {cfg : Config} {own : RemoteInfo} {w w' : Records}
    (h : SameWrIds w w') (hw : Unlinked w) (hw' : Unlinked w') (pc : MainPc) :
    intended cfg own w' pc = intended cfg own w pc := by
  cases pc with
  | post k =>
      cases k <;> simp [intended, publishReq, publishId, publishNext, h.sqWr, hw.sqWr, hw'.sqWr]
  | readPost | writePost =>
      simp [intended, Records.rdmaReq, h.rdmaSqWr, hw.rdmaSqWr, hw'.rdmaSqWr]
  | _ => rfl

theorem recvReq_congr {cfg : Config} {w w' : Records} (h : SameWrIds w w') (hw : Unlinked w)
    (hw' : Unlinked w') : w'.recvReq cfg = w.recvReq cfg := by
  simp [Records.recvReq, h.rqWr, hw.rqWr, hw'.rqWr]

theorem RecordsInv.posting_eq {cfg : Config} {own : RemoteInfo} {w : Records} {s : Server}
    (inv : RecordsInv cfg w s) (haim : Aimed own s) :
    s.posting = intended cfg own w s.mainPc := by
  have htaken := haim.taken
  cases hpc : s.mainPc with
  | post k => exact inv.posting_publish hpc
  | readPost =>
      rw [hpc] at htaken
      obtain ⟨haddr, hrkey, hlen⟩ := htaken
      rw [inv.posting_read hpc, haddr, hrkey, hlen]
      rfl
  | writePost =>
      rw [hpc] at htaken
      obtain ⟨haddr, hrkey, hlen⟩ := htaken
      rw [inv.posting_write hpc, haddr, hrkey, hlen]
      rfl
  | _ => simp [posting, hpc, intended]

theorem Twin.of_fresh {calls : List Call} {s u : Server} (h : Fresh calls s)
    (h' : Fresh calls u) : s.Twin u := by
  have hsent : u.sendComplete = s.sendComplete :=
    funext fun k => by rw [h.sendComplete k, h'.sendComplete k]
  have hu : u = { s with remote := u.remote, wrs := u.wrs, nic := u.nic } := by
    obtain ⟨⟩ := u
    simp only [Server.mk.injEq]
    exact ⟨h'.mainPc.trans h.mainPc.symm, h'.calls_eq.trans h.calls_eq.symm,
      h'.cqPc.trans h.cqPc.symm, h'.cmPc.trans h.cmPc.symm, h'.cmQueue.trans h.cmQueue.symm,
      h'.state.trans h.state.symm, h'.gotRemote.trans h.gotRemote.symm, trivial, hsent,
      h'.childCmId.trans h.childCmId.symm, trivial, trivial, h'.exited.trans h.exited.symm,
      h'.uses.trans h.uses.symm, h'.requests.trans h.requests.symm,
      h'.dispatched.trans h.dispatched.symm⟩
  rw [hu]
  exact .intro (h.nic.alike h'.nic)

end Server

/-! ## The two sides under one move -/

namespace Nic

theorem Alike.access {n n' : Nic} (h : n.Alike n') (op : IbvWrOpcode) (peer : Config)
    (bufs : List Buf) : n.access op peer bufs = n'.access op peer bufs := by
  unfold Nic.access
  cases hsq : n.sq with
  | nil => rw [h.nil hsq]
  | cons e es =>
      obtain ⟨e', es', hsq', he, -⟩ := h.front hsq
      rw [hsq']
      simp only [SqEntry.req_of_outline he]

/-- Where the messages say what was posted, the same message is under way. -/
theorem Alike.outgoing {n n' : Nic} (h : n.Alike n') {cfg : Config} {body : SendReq → List UInt8}
    (hcarries : n.Carries cfg body) (hcarries' : n'.Carries cfg body) :
    n.outgoing = n'.outgoing := by
  have hsome := h.outgoing_isSome
  cases hm : n.outgoing with
  | none =>
      rw [hm, Option.isSome_none] at hsome
      exact (Option.not_isSome_iff_eq_none.mp (by rw [← hsome]; simp)).symm
  | some m =>
      rw [hm, Option.isSome_some] at hsome
      obtain ⟨m', hm'⟩ := Option.isSome_iff_exists.mp hsome.symm
      obtain ⟨e, es, hsq, -, rfl⟩ := hcarries.outgoing hm
      obtain ⟨e', es', hsq', -, rfl⟩ := hcarries'.outgoing hm'
      obtain ⟨e'', es'', hsq'', he, -⟩ := h.front hsq
      obtain ⟨rfl, -⟩ := List.cons.inj (hsq'.symm.trans hsq'')
      rw [hm', SqEntry.req_of_outline he]

end Nic

namespace System

/-- Two systems that differ in what they have found in memory alone. -/
structure Twins (t u : System) : Prop where
  cli : t.cli.Twin u.cli
  srv : t.srv.Twin u.srv

theorem Fresh.twins {ccalls : List Client.Call} {scalls : List Server.Call} {t u : System}
    (h : Fresh ccalls scalls t) (h' : Fresh ccalls scalls u) : t.Twins u :=
  ⟨.of_fresh h.cli h'.cli, .of_fresh h.srv h'.srv⟩

/-- At the same locations both systems hand over the same. -/
structure Agreeing (t u : System) : Prop where
  cliPosting : t.cli.posting = u.cli.posting
  cliReceive : t.cli.mainPc = .postRecv ∨ t.cli.cqPc ≠ .off →
    t.cli.wrs.receive t.cli.wrs.rqWr = u.cli.wrs.receive u.cli.wrs.rqWr
  srvPosting : t.srv.posting = u.srv.posting
  srvReceive : t.srv.mainPc = .postRecv →
    t.srv.wrs.receive t.srv.wrs.rqWr = u.srv.wrs.receive u.srv.wrs.rqWr

section Moves

variable {ccfg scfg : Config} {t u : System}

theorem Twins.cliStep (h : t.Twins u) (hag : t.Agreeing u) {l l' : Label} (hl : l.Similar l') :
    Option.Rel Client.Twin (t.cli.step ccfg l) (u.cli.step ccfg l') :=
  h.cli.step hl hag.cliPosting hag.cliReceive

theorem Twins.srvStep (h : t.Twins u) (hag : t.Agreeing u) {l l' : Label} (hl : l.Similar l') :
    Option.Rel Server.Twin (t.srv.step scfg l) (u.srv.step scfg l') :=
  h.srv.step hl hag.srvPosting hag.srvReceive

/-- A move of one system is a move of the other. -/
theorem Twins.step (h : t.Twins u) (hag : t.Agreeing u)
    (hcli : t.cli.nic.outgoing = u.cli.nic.outgoing)
    (hsrv : t.srv.nic.outgoing = u.srv.nic.outgoing) (m : Move) :
    Option.Rel Twins (step ccfg scfg m t) (step ccfg scfg m u) := by
  cases m with
  | client l =>
      simp only [System.step]
      split
      next hl =>
        exact rel_map (h.cliStep hag (Label.similar_self hl)) fun c d hc => ⟨hc, h.srv⟩
      · exact .none
  | server l =>
      simp only [System.step]
      split
      next hl =>
        exact rel_map (h.srvStep hag (Label.similar_self hl)) fun s v hs => ⟨h.cli, hs⟩
      · exact .none
  | toClient =>
      simp only [System.step, hsrv]
      cases u.srv.nic.outgoing with
      | none => exact .none
      | some m =>
          simp only [Option.bind_some]
          refine rel_bind (h.srvStep hag (.nic .deliver)) fun s v hs => ?_
          exact rel_map (h.cliStep hag (.nic (.recv m))) fun c d hc => ⟨hc, hs⟩
  | toServer =>
      simp only [System.step, hcli]
      cases u.cli.nic.outgoing with
      | none => exact .none
      | some m =>
          simp only [Option.bind_some]
          refine rel_bind (h.cliStep hag (.nic .deliver)) fun c d hc => ?_
          exact rel_map (h.srvStep hag (.nic (.recv m))) fun s v hs => ⟨hc, hs⟩
  | placeClient sel =>
      exact rel_map (h.cliStep hag (.nic (.recvPart _ _))) fun c d hc => ⟨hc, h.srv⟩
  | placeServer sel =>
      exact rel_map (h.srvStep hag (.nic (.recvPart _ _))) fun s v hs => ⟨h.cli, hs⟩
  | clientRead =>
      simp only [System.step, h.srv.exited, h.cli.nic.access]
      split
      · exact .none
      · cases u.cli.nic.access .rdmaRead scfg Server.registered with
        | none => exact .none
        | some a =>
            refine rel_map (h.cliStep hag (.nic (.answer ?_))) fun c d hc => ⟨hc, h.srv⟩
            simp
  | clientWrite =>
      simp only [System.step, h.cli.nic.access]
      cases u.cli.nic.access .rdmaWrite scfg Server.registered with
      | none => exact .none
      | some a =>
          simp only [Option.bind_some]
          refine rel_bind (h.cliStep hag (.nic .written)) fun c d hc => ?_
          exact rel_map (h.srvStep hag (.nic (.remoteWrite _ _ _ _))) fun s v hs => ⟨hc, hs⟩
  | serverRead =>
      simp only [System.step, h.cli.exited, h.srv.nic.access]
      split
      · exact .none
      · cases u.srv.nic.access .rdmaRead ccfg Client.registered with
        | none => exact .none
        | some a =>
            refine rel_map (h.srvStep hag (.nic (.answer ?_))) fun s v hs => ⟨h.cli, hs⟩
            simp
  | serverWrite =>
      simp only [System.step, h.srv.nic.access]
      cases u.srv.nic.access .rdmaWrite ccfg Client.registered with
      | none => exact .none
      | some a =>
          simp only [Option.bind_some]
          refine rel_bind (h.srvStep hag (.nic .written)) fun s v hs => ?_
          exact rel_map (h.cliStep hag (.nic (.remoteWrite _ _ _ _))) fun c d hc => ⟨hc, hs⟩

end Moves

/-! ## Runs -/

/-- In both systems `read_class` and `ow_read` begin only with their descriptors in hand. -/
def bothEquipped (p : System × System) (m : Move) : Bool := p.1.equipped m && p.2.equipped m

/-- The two systems have handed over the same requests, and their servers have put the
completions to the same flags. -/
structure SameRequests (t u : System) : Prop where
  cliPosts : t.cli.nic.posts = u.cli.nic.posts
  cliReceives : t.cli.nic.recvPosts = u.cli.nic.recvPosts
  srvPosts : t.srv.nic.posts = u.srv.nic.posts
  srvReceives : t.srv.nic.recvPosts = u.srv.nic.recvPosts
  sendComplete : t.srv.sendComplete = u.srv.sendComplete

/-- They have seen the same completions too, and come equally far. -/
structure SameCourse (t u : System) : Prop extends SameRequests t u where
  cliDispatched : t.cli.dispatched = u.cli.dispatched
  srvDispatched : t.srv.dispatched = u.srv.dispatched
  got : t.cli.got = u.cli.got
  cliPc : t.cli.mainPc = u.cli.mainPc
  srvPc : t.srv.mainPc = u.srv.mainPc

theorem Twins.sameCourse {t u : System} (h : t.Twins u) : t.SameCourse u := by
  obtain ⟨c, s⟩ := t
  obtain ⟨d, v⟩ := u
  obtain ⟨hc, hs⟩ := h
  cases hc with
  | intro hc =>
      cases hs with
      | intro hs =>
          exact ⟨⟨hc.posts, hc.recvPosts, hs.posts, hs.recvPosts, rfl⟩, rfl, rfl, rfl, rfl, rfl⟩

section Runs

variable {ccfg scfg : Config} {ccalls : List Client.Call} {scalls : List Server.Call}
  {t₀ u₀ : System} {ok : System → Move → Prop}

/-- What the main threads hand over is the request of their location. -/
structure Intending (ccfg scfg : Config) (t₀ t : System) : Prop where
  known : Known ccfg scfg t₀ t
  cliPosting : t.cli.posting = Client.intended ccfg scfg.advertised t₀.cli.wrs t.cli.mainPc
  srvPosting : t.srv.posting = Server.intended scfg ccfg.greeted t₀.srv.wrs t.srv.mainPc

theorem reach_intending {t : System} (h₀ : Fresh ccalls scalls t₀)
    (hok : ∀ t m, ok t m → t.equipped m = true)
    (run : Reach (step ccfg scfg) ok (· = t₀) t) : Intending ccfg scfg t₀ t := by
  have hk := reach_known h₀ run
  refine ⟨hk, ?_, ?_⟩
  · exact hk.cliSends.records.posting_eq (reach_started h₀ run) (reach_aimed h₀ hok run)
  · exact hk.srvSends.records.posting_eq (reach_srvDerived h₀ run).aimed

/-- Two pairs of new objects, all `next` pointers null, which agree in the `wr_id`s found. -/
structure Matched (ccalls : List Client.Call) (scalls : List Server.Call) (t u : System) :
    Prop where
  left : Clean ccalls scalls t
  right : Clean ccalls scalls u
  cli : Client.SameWrIds t.cli.wrs u.cli.wrs
  srv : Server.SameWrIds t.srv.wrs u.srv.wrs

/-- Where the members found agree, so does what is handed over. -/
theorem Twins.agreeing {t u : System} (h : t.Twins u) (h₀ : Matched ccalls scalls t₀ u₀)
    (ht : Intending ccfg scfg t₀ t) (hu : Intending ccfg scfg u₀ u) : t.Agreeing u := by
  obtain ⟨⟨-, htc, hts⟩, ⟨-, huc, hus⟩, hcli, hsrv⟩ := h₀
  have hcourse := h.sameCourse
  have hcqPc : u.cli.cqPc = t.cli.cqPc := congrArg Drain.loc h.cli.drain
  refine ⟨?_, ?_, ?_, ?_⟩
  · rw [ht.cliPosting, hu.cliPosting, Client.intended_congr hcli htc huc, hcourse.cliPc]
  · intro hat
    have hat' : u.cli.mainPc = .postRecv ∨ u.cli.cqPc ≠ .off := by
      rwa [← hcourse.cliPc, hcqPc]
    rw [ht.known.cliSends.records.receive_eq ht.known.cliQueue hat,
      hu.known.cliSends.records.receive_eq hu.known.cliQueue hat',
      Client.recvReq_congr hcli htc huc]
  · rw [ht.srvPosting, hu.srvPosting, Server.intended_congr hsrv hts hus, hcourse.srvPc]
  · intro hpc
    rw [ht.known.srvSends.records.receive_eq hpc,
      hu.known.srvSends.records.receive_eq (hcourse.srvPc ▸ hpc),
      Server.recvReq_congr hsrv hts hus]

theorem reach_twins (h₀ : Matched ccalls scalls t₀ u₀) {p : System × System}
    (run : Reach (paired (step ccfg scfg)) (fun p m => bothEquipped p m = true) (· = (t₀, u₀)) p) :
    p.1.Twins p.2 := by
  have ht := h₀.left.toFresh
  have hu := h₀.right.toFresh
  refine run.related (ht.twins hu) fun m p run h _ => ?_
  let ok : System → Move → Prop := fun t m => t.equipped m = true
  have hfst : Reach (step ccfg scfg) ok (· = t₀) p.1 :=
    run.paired_fst fun p m h => (Bool.and_eq_true_iff.mp h).1
  have hsnd : Reach (step ccfg scfg) ok (· = u₀) p.2 :=
    run.paired_snd fun p m h => (Bool.and_eq_true_iff.mp h).2
  have hint := reach_intending ht (fun _ _ h => h) hfst
  have hint' := reach_intending hu (fun _ _ h => h) hsnd
  refine h.step (h.agreeing h₀ hint hint') ?_ ?_ m
  · exact h.cli.nic.outgoing hint.known.sending.carries hint'.known.sending.carries
  · exact h.srv.nic.outgoing hint.known.publishing.carries hint'.known.publishing.carries

end Runs

end System

/-- Two pairs of new objects whose work requests were found with null `next` pointers and the
same `wr_id`s hand over the same requests and receives in every pair of runs under the same moves,
each of them a chain of one, and put the completions to the same flags. -/
theorem found_ids_decide_requests (ccfg scfg : Config) (ccalls : List Client.Call)
    (scalls : List Server.Call) (t₀ u₀ : System) (h₀ : System.Matched ccalls scalls t₀ u₀)
    (p : System × System)
    (run : Reach (paired (System.step ccfg scfg)) (fun p m => System.bothEquipped p m = true)
      (· = (t₀, u₀)) p) :
    p.1.SameRequests p.2 ∧ p.1.Unchained ∧ p.2.Unchained := by
  have hfst : Reach (System.step ccfg scfg) free (· = t₀) p.1 :=
    run.paired_fst fun _ _ _ => trivial
  have hsnd : Reach (System.step ccfg scfg) free (· = u₀) p.2 :=
    run.paired_snd fun _ _ _ => trivial
  refine ⟨?_, System.reach_unchained h₀.left hfst, System.reach_unchained h₀.right hsnd⟩
  exact (System.reach_twins h₀ run).sameCourse.toSameRequests

/-- A pair of new objects in memory full of sevens, with `wr_id` and `next` zero. -/
def System.littered (ccalls : List Client.Call) (scalls : List Server.Call) : System :=
  let wr := { IbvSendWr.zero with opcode := .rdmaWrite, numSge := 7, remoteAddr := 7, rkey := 7 }
  let w := { Records.zero with sqWr := wr, rdmaSqWr := wr, testClassWr := wr, sketchWr := wr }
  let n := { Nic.zero with mem := fun _ _ => 7 }
  { cli := { Client.zeroed ccalls with slot := fun _ => ⟨7, 7, 7⟩, wrs := w, nic := n }
    srv := { Server.zeroed scalls with remote := ⟨7, 7, 7⟩, wrs := w, nic := n } }

theorem System.matched_littered (ccalls : List Client.Call) (scalls : List Server.Call) :
    Matched ccalls scalls (zeroed ccalls scalls) (littered ccalls scalls) where
  left := clean_zeroed ccalls scalls
  right := by
    refine ⟨⟨?_, ?_⟩, ?_, ?_⟩ <;> constructor <;> first
      | rfl
      | exact fun _ => rfl
      | constructor <;> rfl
  cli := by constructor <;> rfl
  srv := by constructor <;> rfl

/-- The exchange of the greeting and of the first descriptor, beside a pair in memory full of
zeros. -/
theorem found_ids_decide_requests_first : ∃ t u : System,
    (t.cli.nic.posts.length = 1 ∧ t.srv.nic.posts.length = 1 ∧ t.srv.sendComplete .start = true) ∧
      t.SameRequests u ∧ t.Unchained ∧ u.Unchained := by
  obtain ⟨p, run, hp⟩ : ∃ p, Reach (paired (System.step .small .small))
      (fun p m => System.bothEquipped p m = true)
      (· = (.zeroed [] [], .littered [] [])) p ∧
      decide (p.1.cli.nic.posts.length = 1 ∧ p.1.srv.nic.posts.length = 1 ∧
        p.1.srv.sendComplete .start = true) = true :=
    ⟨_, Reach.drive System.bothEquipped (System.greetMoves ++ System.publishMoves 5) (.start rfl)
      fun _ _ h => h, by decide +kernel⟩
  exact ⟨p.1, p.2, of_decide_eq_true hp, found_ids_decide_requests .small .small [] [] _ _
    (System.matched_littered [] []) p run⟩

/-- A pair of new objects in memory of zeros but for the `wr_id` of the server's `sq_wr`. -/
def System.tagged : System :=
  { zeroed [] [] with
    srv := { Server.zeroed [] with
      wrs := { Records.zero with sqWr := { IbvSendWr.zero with wrId := 7 } } } }

theorem System.clean_tagged : Clean [] [] tagged := by
  refine ⟨⟨?_, ?_⟩, ?_, ?_⟩ <;> constructor <;> first
    | rfl
    | exact fun _ => rfl
    | exact Nic.fresh_zero

/-- The completion of the first message is recognised by the `wr_id` found in `sq_wr`. -/
theorem found_id_decides_flag : ¬(∀ t₀ u₀ : System, System.Clean [] [] t₀ →
    System.Clean [] [] u₀ → ∀ p, Reach (paired (System.step .small .small))
      (fun p m => System.bothEquipped p m = true) (· = (t₀, u₀)) p → p.1.SameRequests p.2) := by
  intro claim
  obtain ⟨p, run, hp⟩ : ∃ p, Reach (paired (System.step .small .small))
      (fun p m => System.bothEquipped p m = true) (· = (.zeroed [] [], .tagged)) p ∧
      (p.1.srv.sendComplete .start && !p.2.srv.sendComplete .start) = true :=
    ⟨_, Reach.drive System.bothEquipped (System.greetMoves ++ System.publishMoves 5) (.start rfl)
      fun _ _ h => h, by decide +kernel⟩
  have hsame := (claim _ _ (System.clean_zeroed [] []) System.clean_tagged p run).sendComplete
  rw [hsame] at hp
  simp at hp

/-- Of everything such objects were found with, the `wr_id`s decide alone: where these agree, the
two systems also take the same completions from their queues and come equally far. -/
theorem found_memory_decides_ids_only (ccfg scfg : Config) (ccalls : List Client.Call)
    (scalls : List Server.Call) (t₀ u₀ : System) (h₀ : System.Matched ccalls scalls t₀ u₀)
    (p : System × System)
    (run : Reach (paired (System.step ccfg scfg)) (fun p m => System.bothEquipped p m = true)
      (· = (t₀, u₀)) p) : p.1.SameCourse p.2 :=
  (System.reach_twins h₀ run).sameCourse

/-- Beside a pair in memory full of zeros it starts and reads the first region. -/
theorem found_memory_decides_ids_only_read : ∃ t u : System,
    (t.cli.nic.posts.length = 2 ∧ t.srv.nic.posts.length = 3 ∧ t.srv.sendComplete .start = true) ∧
      t.cli.nic.mem .rdmaBuf 31 ≠ u.cli.nic.mem .rdmaBuf 31 ∧ t.SameCourse u := by
  obtain ⟨p, run, hp⟩ : ∃ p, Reach (paired (System.step .small .small))
      (fun p m => System.bothEquipped p m = true)
      (· = (.zeroed [.rdmaRead] [], .littered [.rdmaRead] [])) p ∧
      (decide (p.1.cli.nic.posts.length = 2 ∧ p.1.srv.nic.posts.length = 3 ∧
        p.1.srv.sendComplete .start = true) &&
        decide (p.1.cli.nic.mem .rdmaBuf 31 ≠ p.2.cli.nic.mem .rdmaBuf 31)) = true :=
    ⟨_, Reach.drive System.bothEquipped (System.startMoves ++ System.readMoves) (.start rfl)
      fun _ _ h => h, by decide +kernel⟩
  obtain ⟨hposts, hmem⟩ := Bool.and_eq_true_iff.mp hp
  exact ⟨p.1, p.2, of_decide_eq_true hposts, of_decide_eq_true hmem,
    found_memory_decides_ids_only .small .small [.rdmaRead] [] _ _
      (System.matched_littered [.rdmaRead] []) p run⟩

end HyperRdma
