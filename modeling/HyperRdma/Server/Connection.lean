import HyperRdma.Threads

/-!
# Which connection the server accepts

`cm_thread` writes `state` and `child_cm_id` for every event it receives, while
`start` reads `child_cm_id` six times and waits twice on `state`. The uses of
`child_cm_id` agree, and the second wait ends with the event of the accepted
connection, as long as no other connection's event falls between.
-/

namespace HyperRdma.Server

open CompletionChannel Transition

/-- The statements of `start` that have read `child_cm_id` by the time it is at a location. -/
def MainPc.childUses : MainPc → List ChildUse
  | .greet | .createId | .bind | .waitRequest | .allocPd => []
  | .createChannel => [.allocPd]
  | .createCq => [.allocPd, .createChannel]
  | .reqNotify | .createQp => [.allocPd, .createChannel, .createCq]
  | .readQp => [.allocPd, .createChannel, .createCq, .createQp]
  | .setupBuffer | .postRecv | .startCq | .accept =>
      [.allocPd, .createChannel, .createCq, .createQp, .readQp]
  | _ => [.allocPd, .createChannel, .createCq, .createQp, .readQp, .accept]

/-- `start` has used `child_cm_id` and will use it again. -/
def MainPc.between : MainPc → Bool
  | .createChannel | .createCq | .reqNotify | .createQp | .readQp | .setupBuffer | .postRecv
  | .startCq | .accept => true
  | _ => false

/-- `start` has left the wait of `bindaddr` and not yet the wait for the connection. -/
def MainPc.connecting (pc : MainPc) : Bool := pc == .allocPd || pc.between || pc == .waitConnected

/-- `start` has left the wait for the connection. -/
def MainPc.connected : MainPc → Bool
  | .greet | .createId | .bind | .waitRequest => false
  | pc => !pc.connecting

/-- How far `start` is with the connection. -/
def MainPc.phase (pc : MainPc) : Bool × Bool × Bool × List ChildUse :=
  (pc.between, pc.connecting, pc.connected, pc.childUses)

/-- The connection which `start` has accepted. -/
def accepted (s : Server) : Option CmId :=
  (s.uses.find? fun u => u.1 == .accept).bind Prod.snd

/-- What a step of the main thread does to the connection: the wait of `bindaddr` ends, the
other wait ends, `child_cm_id` is read, or nothing happens to it. -/
inductive Progress (s s' : Server) : Prop
  | requested (hpc : s.mainPc = .waitRequest) (hpc' : s'.mainPc = .allocPd)
      (hstate : s.state = .requestGet) (huses : s'.uses = s.uses)
  | connected (hpc : s.mainPc = .waitConnected) (hpc' : s'.mainPc.connected = true)
      (hstate : s.state = .serverConnected) (huses : s'.uses = s.uses)
      (hdone : s'.mainPc.childUses = s.mainPc.childUses)
  | used (u : ChildUse) (hpc : s.mainPc = .allocPd ∨ s.mainPc.between = true)
      (hpc' : s'.mainPc.between = true ∨ s'.mainPc = .waitConnected)
      (huses : s'.uses = s.uses ++ [(u, s.childCmId)])
      (hdone : s'.mainPc.childUses = s.mainPc.childUses ++ [u])
  | other (hphase : s'.mainPc.phase = s.mainPc.phase) (huses : s'.uses = s.uses)

theorem state_eq_of_val {st : ServerState} :
    (st.val = ServerState.requestGet.val → st = .requestGet) ∧
      (st.val = ClientState.connected.val → st = .serverConnected) := by
  cases st <;> decide

/-- The main thread leaves the members of `cm_thread` alone. -/
theorem mainThread_links {cfg : Config} {s s' : Server} (h : s.mainThread cfg = some s') :
    s'.state = s.state ∧ s'.childCmId = s.childCmId ∧ s'.requests = s.requests ∧
      (s'.cmPc = s.cmPc ∨ s'.cmPc = .getEvent) := by
  cases hpc : s.mainPc with
  | readPost | writePost =>
      simp only [mainThread, hpc, rdmaRead, rdmaWrite, Option.some.injEq] at h
      subst h
      rcases postSend_cases _ _ _ with he | he <;> rw [he] <;> exact ⟨rfl, rfl, rfl, .inl rfl⟩
  | post k =>
      cases k <;> simp only [mainThread, hpc, publish, Option.some.injEq] at h <;> subst h
      all_goals
        rcases postSend_cases _ _ _ with he | he <;> rw [he] <;> exact ⟨rfl, rfl, rfl, .inl rfl⟩
  | postRecv =>
      simp only [mainThread, hpc, start, Option.some.injEq] at h
      subst h
      rcases postRecv_cases s _ with he | he <;> rw [he] <;> exact ⟨rfl, rfl, rfl, .inl rfl⟩
  | createId =>
      simp only [mainThread, hpc, start, Option.some.injEq] at h
      subst h
      exact ⟨rfl, rfl, rfl, .inr rfl⟩
  | _ =>
      simp only [mainThread, hpc, start, publish, rdmaRead, rdmaWrite, script] at h
      repeat' split at h
      all_goals try cases h
      all_goals exact ⟨rfl, rfl, rfl, .inl rfl⟩

theorem mainThread_progress {cfg : Config} {s s' : Server} (h : s.mainThread cfg = some s') :
    Progress s s' := by
  cases hpc : s.mainPc with
  | readPost | writePost =>
      simp only [mainThread, hpc, rdmaRead, rdmaWrite, Option.some.injEq] at h
      subst h
      rcases postSend_cases _ _ _ with he | he <;> rw [he]
      · exact .other rfl rfl
      · exact .other (by rw [hpc]; rfl) rfl
  | post k =>
      cases k <;> simp only [mainThread, hpc, publish, Option.some.injEq] at h <;> subst h
      all_goals
        rcases postSend_cases _ _ _ with he | he <;> rw [he]
        · exact .other rfl rfl
        · exact .other (by rw [hpc]; rfl) rfl
  | postRecv =>
      simp only [mainThread, hpc, start, Option.some.injEq] at h
      subst h
      rcases postRecv_cases s _ with he | he <;> rw [he]
      · exact .other rfl rfl
      · exact .other (by rw [hpc]; rfl) rfl
  | allocPd | createChannel | createCq | createQp | readQp | accept =>
      simp only [mainThread, hpc, start, Option.some.injEq] at h
      subst h
      refine .used _ ?_ ?_ rfl ?_ <;> simp [hpc, use, MainPc.between, MainPc.childUses]
  | waitRequest =>
      simp only [mainThread, hpc, start, Option.ite_none_left_eq_some, bne_iff_ne, ne_eq,
        not_not, Option.some.injEq] at h
      obtain ⟨hstate, rfl⟩ := h
      exact .requested hpc rfl (state_eq_of_val.1 hstate) rfl
  | waitConnected =>
      simp only [mainThread, hpc, start, Option.ite_none_left_eq_some, bne_iff_ne, ne_eq,
        not_not, Option.some.injEq] at h
      obtain ⟨hstate, rfl⟩ := h
      exact .connected hpc rfl (state_eq_of_val.2 hstate) rfl (by rw [hpc]; rfl)
  | next =>
      simp only [mainThread, hpc, script] at h
      split at h
      · cases h
      next call rest _ =>
        obtain rfl := Option.some.inj h
        exact .other (by rw [hpc]; cases call <;> rfl) rfl
  | waitSend k =>
      simp only [mainThread, hpc, publish, Option.ite_none_left_eq_some, Option.some.injEq] at h
      obtain ⟨-, rfl⟩ := h
      exact .other (by rw [hpc]; cases k <;> rfl) rfl
  | sendBuf k | sendRkey k | sendSize k =>
      simp only [mainThread, hpc, publish, Option.some.injEq] at h
      subst h
      exact .other (by rw [hpc]; cases k <;> rfl) rfl
  | _ =>
      simp only [mainThread, hpc, start, publish, rdmaRead, rdmaWrite] at h
      repeat' split at h
      all_goals try cases h
      all_goals
        refine .other ?_ rfl
        first
          | rfl
          | exact congrArg MainPc.phase hpc.symm
          | rw [hpc]; rfl

/-- The steps of the other labels but `cm_thread`'s leave the connection alone. -/
structure SameLinks (s s' : Server) : Prop where
  mainPc : s'.mainPc = s.mainPc
  uses : s'.uses = s.uses
  state : s'.state = s.state
  childCmId : s'.childCmId = s.childCmId
  requests : s'.requests = s.requests
  cmPc : s'.cmPc = s.cmPc

theorem cqThread_links {s s' : Server} (h : s.cqThread = some s') : SameLinks s s' := by
  unfold cqThread at h
  split at h
  next wc _ =>
    obtain rfl := Option.some.inj h
    unfold dispatch
    repeat' split
    all_goals exact ⟨rfl, rfl, rfl, rfl, rfl, rfl⟩
  next k _ =>
    obtain rfl := Option.some.inj h
    cases k <;> exact ⟨rfl, rfl, rfl, rfl, rfl, rfl⟩
  · obtain ⟨d, -, rfl⟩ := Option.map_eq_some_iff.mp h
    exact ⟨rfl, rfl, rfl, rfl, rfl, rfl⟩

/-- A step is the main thread's, `cm_thread`'s, or none of the connection's business. -/
theorem step_links {cfg : Config} {l : Label} {s s' : Server} (h : s.step cfg l = some s') :
    (l = .main ∧ s.mainThread cfg = some s') ∨ (l = .cm ∧ s.cmThread = some s') ∨
      SameLinks s s' := by
  simp only [Server.step, Option.ite_none_left_eq_some] at h
  obtain ⟨-, h⟩ := h
  cases l with
  | main => exact .inl ⟨rfl, h⟩
  | cm => exact .inr (.inl ⟨rfl, h⟩)
  | cq => exact .inr (.inr (cqThread_links h))
  | cmEvent e =>
      obtain rfl := Option.some.inj h
      exact .inr (.inr ⟨rfl, rfl, rfl, rfl, rfl, rfl⟩)
  | nic l =>
      obtain ⟨n, -, rfl⟩ := Option.map_eq_some_iff.mp h
      exact .inr (.inr ⟨rfl, rfl, rfl, rfl, rfl, rfl⟩)

/-- What `cm_thread` does: it takes an event, writes `state`, writes `child_cm_id`, or moves
on. -/
inductive Event (s s' : Server) : Prop
  | take (e : RdmaCmEvent) (hpc : s.cmPc = .getEvent) (hpc' : s'.cmPc = .switch e)
      (hstate : s'.state = s.state) (hchild : s'.childCmId = s.childCmId)
      (hreq : ∃ ids, s'.requests = s.requests ++ ids ∧ (e.event = .connectRequest → ids = [e.id]))
  | request (e : RdmaCmEvent) (hpc : s.cmPc = .switch e) (hev : e.event = .connectRequest)
      (hpc' : s'.cmPc = .setChild e.id) (hstate : s'.state = .requestGet)
      (hchild : s'.childCmId = s.childCmId) (hreq : s'.requests = s.requests)
  | connect (e : RdmaCmEvent) (hpc : s.cmPc = .switch e)
      (hev : e.event = .connectResponse ∨ e.event = .established) (hpc' : s'.cmPc = .ack)
      (hstate : s'.state = .serverConnected) (hchild : s'.childCmId = s.childCmId)
      (hreq : s'.requests = s.requests)
  | child (id : CmId) (hpc : s.cmPc = .setChild id) (hpc' : s'.cmPc = .ack)
      (hstate : s'.state = s.state) (hchild : s'.childCmId = some id)
      (hreq : s'.requests = s.requests)
  | other (hpc : ∀ e, s.cmPc = .switch e → e.event ≠ .established) (hstate : s'.state = s.state)
      (hchild : s'.childCmId = s.childCmId) (hreq : s'.requests = s.requests)
      (hpc' : s'.cmPc = .ack ∨ s'.cmPc = .getEvent)

theorem cmThread_event {s s' : Server} (h : s.cmThread = some s') :
    Event s s' ∧ s'.mainPc = s.mainPc ∧ s'.uses = s.uses := by
  unfold cmThread at h
  split at h
  · cases h
  next hpc =>
    split at h
    · cases h
    next e es _ =>
      obtain rfl := Option.some.inj h
      refine ⟨.take e hpc rfl rfl rfl ⟨_, rfl, ?_⟩, rfl, rfl⟩
      intro hev
      rw [if_pos hev]
  next e hpc =>
    split at h
    next hev =>
      obtain rfl := Option.some.inj h
      exact ⟨.request e hpc hev rfl rfl rfl rfl, rfl, rfl⟩
    next hev =>
      obtain rfl := Option.some.inj h
      exact ⟨.connect e hpc (.inl hev) rfl rfl rfl rfl, rfl, rfl⟩
    next hev =>
      obtain rfl := Option.some.inj h
      exact ⟨.connect e hpc (.inr hev) rfl rfl rfl rfl, rfl, rfl⟩
    next _ _ hev =>
      obtain rfl := Option.some.inj h
      refine ⟨.other ?_ rfl rfl rfl (.inl rfl), rfl, rfl⟩
      intro e' he'
      rw [hpc] at he'
      cases he'
      exact hev
  next id hpc =>
    obtain rfl := Option.some.inj h
    exact ⟨.child id hpc rfl rfl rfl rfl, rfl, rfl⟩
  next hpc =>
    obtain rfl := Option.some.inj h
    refine ⟨.other ?_ rfl rfl rfl (.inr rfl), rfl, rfl⟩
    intro e he
    rw [hpc] at he
    cases he

/-! ## One identity -/

/-- The connections `cm_thread` knows of are those of requests it has received. -/
structure Requested (s : Server) : Prop where
  child : ∀ id, s.childCmId = some id → id ∈ s.requests
  pending : ∀ id, s.cmPc = .setChild id → id ∈ s.requests
  event : ∀ e, s.cmPc = .switch e → e.event = .connectRequest → e.id ∈ s.requests

theorem Requested.of_fresh {calls : List Call} {s : Server} (h : Fresh calls s) : Requested s := by
  constructor <;> simp [h.childCmId, h.cmPc]

theorem Requested.event_step {s s' : Server} (inv : Requested s) (h : Event s s') :
    Requested s' := by
  obtain ⟨hchild, hpending, hevent⟩ := inv
  cases h with
  | take e _ hpc hstate hc hreq =>
      obtain ⟨ids, hreq, hids⟩ := hreq
      refine ⟨?_, ?_, ?_⟩
      · intro id hid
        rw [hreq]
        exact List.mem_append_left _ (hchild id (hc ▸ hid))
      · intro id hid
        rw [hpc] at hid
        cases hid
      · intro e' he' hev
        rw [hpc] at he'
        cases he'
        rw [hreq, hids hev]
        exact List.mem_append_right _ (List.mem_singleton_self e.id)
  | request e hpc hev hpc' hstate hc hreq =>
      refine ⟨?_, ?_, ?_⟩
      · rw [hc, hreq]
        exact hchild
      · intro id hid
        rw [hpc'] at hid
        cases hid
        rw [hreq]
        exact hevent e hpc hev
      · intro e' he'
        rw [hpc'] at he'
        cases he'
  | child id hpc hpc' hstate hc hreq =>
      refine ⟨?_, ?_, ?_⟩
      · intro id' hid'
        rw [hc] at hid'
        cases hid'
        rw [hreq]
        exact hpending id hpc
      · intro id' hid'
        rw [hpc'] at hid'
        cases hid'
      · intro e' he'
        rw [hpc'] at he'
        cases he'
  | connect _ _ _ hpc' _ hc hreq =>
      refine ⟨by rw [hc, hreq]; exact hchild, ?_, ?_⟩ <;> simp [hpc']
  | other _ _ hc hreq hpc' =>
      refine ⟨by rw [hc, hreq]; exact hchild, ?_, ?_⟩ <;> rcases hpc' with hpc' | hpc' <;>
        simp [hpc']

theorem Requested.step {cfg : Config} {l : Label} {s s' : Server} (inv : Requested s)
    (h : s.step cfg l = some s') : Requested s' := by
  rcases step_links h with ⟨-, h⟩ | ⟨-, h⟩ | h
  · obtain ⟨-, hchild, hreq, hpc⟩ := mainThread_links h
    refine ⟨by rw [hchild, hreq]; exact inv.child, ?_, ?_⟩
    · rcases hpc with hpc | hpc
      · rw [hpc, hreq]
        exact inv.pending
      · simp [hpc]
    · rcases hpc with hpc | hpc
      · rw [hpc, hreq]
        exact inv.event
      · simp [hpc]
  · exact inv.event_step (cmThread_event h).1
  · refine ⟨?_, ?_, ?_⟩
    · rw [h.childCmId, h.requests]
      exact inv.child
    · rw [h.cmPc, h.requests]
      exact inv.pending
    · rw [h.cmPc, h.requests]
      exact inv.event

/-- `start` first reads `child_cm_id` when it has been assigned, and from then on to
`rdma_accept` the thread assigns it no other connection. -/
def keepsChild (s : Server) : Label → Bool
  | .main => s.mainPc != .allocPd || s.childCmId.isSome
  | .cm =>
      match s.cmPc with
      | .setChild id => !s.mainPc.between || s.childCmId == some id
      | _ => true
  | _ => true

/-- All uses of `child_cm_id` so far have seen the connection of one received request. -/
structure OneIdentity (s : Server) : Prop where
  uses : s.uses.map Prod.fst = s.mainPc.childUses
  identity : s.uses ≠ [] → ∃ id ∈ s.requests, ∀ u ∈ s.uses, u.2 = some id

/-- While `start` will use `child_cm_id` again, it is what the earlier uses have seen. -/
structure Identified (s : Server) : Prop extends OneIdentity s where
  kept : s.mainPc.between = true → s.childCmId.isSome = true ∧ ∀ u ∈ s.uses, u.2 = s.childCmId

theorem Identified.of_fresh {calls : List Call} {s : Server} (h : Fresh calls s) :
    Identified s := by
  refine ⟨⟨?_, ?_⟩, ?_⟩ <;> simp [h.uses, h.mainPc, MainPc.childUses, MainPc.between]

theorem Identified.progress {s s' : Server} (inv : Identified s) (hreqs : Requested s)
    (h : Progress s s') (hchild : s'.childCmId = s.childCmId) (hreq : s'.requests = s.requests)
    (hok : s.mainPc = .allocPd → s.childCmId.isSome = true) : Identified s' := by
  obtain ⟨⟨huses, hid⟩, hkept⟩ := inv
  cases h with
  | requested hpc hpc' _ hu =>
      have hnil : s.uses = [] := by
        rw [hpc] at huses
        exact List.map_eq_nil_iff.mp huses
      refine ⟨⟨?_, ?_⟩, ?_⟩ <;> simp [hu, hnil, hpc', MainPc.childUses, MainPc.between]
  | connected hpc hpc' _ hu hdone =>
      refine ⟨⟨by rw [hu, hdone]; exact huses, by rw [hu, hreq]; exact hid⟩, ?_⟩
      intro hb
      cases hp : s'.mainPc <;> simp_all [MainPc.between, MainPc.connected, MainPc.connecting]
  | used u hpc hpc' hu hdone =>
      have hsome : s.childCmId.isSome = true ∧ ∀ v ∈ s.uses, v.2 = s.childCmId := by
        rcases hpc with hpc | hpc
        · have hnil : s.uses = [] := by
            rw [hpc] at huses
            exact List.map_eq_nil_iff.mp huses
          exact ⟨hok hpc, by simp [hnil]⟩
        · exact hkept hpc
      have hall : ∀ v ∈ s'.uses, v.2 = s.childCmId := by
        intro v hv
        rw [hu] at hv
        rcases List.mem_append.mp hv with hv | hv
        · exact hsome.2 v hv
        · obtain rfl := List.mem_singleton.mp hv
          rfl
      refine ⟨⟨?_, fun _ => ?_⟩, fun _ => ?_⟩
      · rw [hu, hdone, List.map_append, huses]
        rfl
      · obtain ⟨id, hsid⟩ := Option.isSome_iff_exists.mp hsome.1
        refine ⟨id, hreq ▸ hreqs.child id hsid, ?_⟩
        intro v hv
        rw [hall v hv, hsid]
      · rw [hchild]
        exact ⟨hsome.1, hall⟩
  | other hphase hu =>
      simp only [MainPc.phase, Prod.mk.injEq] at hphase
      obtain ⟨hb, -, -, hdone⟩ := hphase
      refine ⟨⟨by rw [hu, hdone]; exact huses, by rw [hu, hreq]; exact hid⟩, ?_⟩
      rw [hb, hchild, hu]
      exact hkept

theorem Identified.step {cfg : Config} {l : Label} {s s' : Server} (inv : Identified s)
    (hreqs : Requested s) (hok : s.keepsChild l = true) (h : s.step cfg l = some s') :
    Identified s' := by
  rcases step_links h with ⟨rfl, hm⟩ | ⟨rfl, hm⟩ | h
  · obtain ⟨-, hchild, hreq, -⟩ := mainThread_links hm
    refine inv.progress hreqs (mainThread_progress hm) hchild hreq ?_
    intro hpc
    simpa [keepsChild, hpc] using hok
  · obtain ⟨hev, hpc, huses⟩ := cmThread_event hm
    obtain ⟨⟨hu, hid⟩, hkept⟩ := inv
    have hmono : ∀ id ∈ s.requests, id ∈ s'.requests := by
      intro id hmem
      cases hev with
      | take e _ _ _ _ hreq =>
          obtain ⟨ids, hreq, -⟩ := hreq
          rw [hreq]
          exact List.mem_append_left _ hmem
      | request _ _ _ _ _ _ hreq | connect _ _ _ _ _ _ hreq | child _ _ _ _ _ hreq
      | other _ _ _ hreq _ => exact hreq ▸ hmem
    have hchild : s.mainPc.between = true → s'.childCmId = s.childCmId := by
      intro hb
      cases hev with
      | child id hloc _ _ hc _ =>
          simp only [keepsChild, hloc, hb, Bool.not_true, Bool.false_or, beq_iff_eq] at hok
          rw [hc, hok]
      | take _ _ _ _ hc _ | request _ _ _ _ _ hc _ | connect _ _ _ _ _ hc _
      | other _ _ hc _ _ => exact hc
    refine ⟨⟨by rw [huses, hpc]; exact hu, ?_⟩, ?_⟩
    · rw [huses]
      intro hne
      obtain ⟨id, hmem, hall⟩ := hid hne
      exact ⟨id, hmono id hmem, hall⟩
    · rw [hpc, huses]
      intro hb
      rw [hchild hb]
      exact hkept hb
  · obtain ⟨⟨hu, hid⟩, hkept⟩ := inv
    refine ⟨⟨?_, ?_⟩, ?_⟩
    · rw [h.uses, h.mainPc]
      exact hu
    · rw [h.uses, h.requests]
      exact hid
    · rw [h.mainPc, h.childCmId, h.uses]
      exact hkept

/-- In a run in which `child_cm_id` is assigned before its first use and kept until the last,
all uses see the connection of one request, up to `rdma_accept`. -/
theorem one_connection (cfg : Config) (calls : List Call) (s : Server)
    (run : Reach (Server.step cfg) (fun s l => s.keepsChild l = true) (Fresh calls) s) :
    s.OneIdentity := by
  have known : ∀ s, Reach (Server.step cfg) (fun s l => s.keepsChild l = true) (Fresh calls) s →
      Requested s :=
    fun s run => run.invariant (fun _ => .of_fresh) fun _ _ _ inv _ h => inv.step h
  have hid : Identified s := by
    refine run.invariant_of known (fun _ => .of_fresh) ?_
    intro s l s' hreqs _ inv hok h
    exact inv.step hreqs hok h
  exact hid.toOneIdentity

/-- A second client's request is taken between the creation of the queue pair and
`rdma_accept`. -/
def secondRequestLabels : List Label :=
  [.main, .main, .main, .cmEvent ⟨2, .connectRequest⟩] ++ List.replicate 4 .cm ++
    List.replicate 8 .main ++ .cmEvent ⟨3, .connectRequest⟩ :: List.replicate 4 .cm ++
    List.replicate 3 .main

/-- The server creates the queue pair on one connection and accepts another. -/
theorem one_connection_fails : ¬∀ s, Reach (Server.step .small) free (Fresh []) s →
    s.OneIdentity := by
  intro h
  obtain ⟨s, run, hs⟩ : ∃ s, Reach (Server.step .small) free (Fresh []) s ∧
      (s.uses.contains (.createQp, some 2) && s.uses.contains (.accept, some 3)) = true :=
    ⟨_, Reach.drive (fun _ _ => true) secondRequestLabels (.start (fresh_zeroed _))
      fun _ _ _ => trivial, by decide +kernel⟩
  simp only [Bool.and_eq_true, List.contains_iff_mem] at hs
  obtain ⟨id, -, hall⟩ := (h s run).identity (List.ne_nil_of_mem hs.1)
  have h₂ := hall _ hs.1
  have h₃ := hall _ hs.2
  rw [← h₃] at h₂
  cases h₂

/-- One client connects: the server creates the queue pair and accepts on its connection. -/
theorem one_connection_setUp : ∃ s : Server, s.mainPc = .waitConnected ∧ s.OneIdentity := by
  obtain ⟨s, run, hs⟩ : ∃ s, Reach (Server.step .small) (fun s l => s.keepsChild l = true)
      (Fresh []) s ∧ (s.mainPc == .waitConnected) = true :=
    ⟨_, Reach.drive keepsChild setUpLabels (.start (fresh_zeroed _)) fun _ _ h => h,
      by decide +kernel⟩
  exact ⟨s, beq_iff_eq.mp hs, one_connection .small [] s run⟩

/-! ## The connected state -/

/-- A server with the history of whether `cm_thread` has handled the ESTABLISHED event of the
connection which `start` has accepted. -/
structure Session where
  srv : Server
  confirmed : Bool

namespace Session

/-- The step handles that event. -/
def confirms (s : Server) : Label → Bool
  | .cm =>
      match s.cmPc with
      | .switch e => e.event == .established && s.accepted == some e.id
      | _ => false
  | _ => false

def step (cfg : Config) (l : Label) (p : Session) : Option Session :=
  (p.srv.step cfg l).map fun s => ⟨s, p.confirmed || confirms p.srv l⟩

def Fresh (calls : List Call) (p : Session) : Prop := Server.Fresh calls p.srv ∧ p.confirmed = false

/-- While `start` sets up and waits for its connection, the thread handles no CONNECT_RESPONSE
and no ESTABLISHED of a connection other than the accepted one, and no CONNECT_REQUEST once it
has handled the accepted one's ESTABLISHED. -/
def undisturbed (p : Session) : Label → Bool
  | .cm =>
      match p.srv.cmPc with
      | .switch e => !p.srv.mainPc.connecting || (match e.event with
          | .connectRequest => !p.confirmed
          | .connectResponse => false
          | .established => p.srv.accepted == some e.id
          | _ => true)
      | _ => true
  | _ => true

/-- The connected state lasts as long as `start` waits for it, and the wait ends with the event
of the accepted connection. -/
structure Connected (p : Session) : Prop where
  kept : p.confirmed = true → p.srv.mainPc = .waitConnected → p.srv.state = .serverConnected
  awaited : p.srv.mainPc.connected = true → p.confirmed = true

/-- The history against the location of `start` and the state. -/
structure Inv (p : Session) : Prop where
  uses : p.srv.uses.map Prod.fst = p.srv.mainPc.childUses
  early : .accept ∉ p.srv.mainPc.childUses → p.confirmed = false
  waiting : p.srv.mainPc.connecting = true →
    (p.srv.state = .serverConnected ↔ p.confirmed = true)
  late : p.srv.mainPc.connected = true → p.confirmed = true

theorem Inv.connected {p : Session} (inv : Inv p) : Connected p where
  kept hc hpc := (inv.waiting (by rw [hpc]; rfl)).mpr hc
  awaited := inv.late

theorem Inv.of_fresh {calls : List Call} {p : Session} (h : Fresh calls p) : Inv p := by
  obtain ⟨hs, hc⟩ := h
  refine ⟨?_, fun _ => hc, ?_, ?_⟩
  · simp [hs.uses, hs.mainPc, MainPc.childUses]
  · intro hpc
    rw [hs.mainPc] at hpc
    cases hpc
  · intro hpc
    rw [hs.mainPc] at hpc
    cases hpc

/-- Without `rdma_accept` there is no accepted connection. -/
theorem accepted_eq_none {s : Server} (huses : s.uses.map Prod.fst = s.mainPc.childUses)
    (h : .accept ∉ s.mainPc.childUses) : s.accepted = none := by
  have hnone : s.uses.find? (fun u => u.1 == .accept) = none := by
    rw [List.find?_eq_none]
    intro u hu hacc
    apply h
    rw [← huses, ← beq_iff_eq.mp hacc]
    exact List.mem_map_of_mem hu
  rw [accepted, hnone]
  rfl

/-- The main thread moves on. -/
theorem Inv.progress {p : Session} {s' : Server} (inv : Inv p) (h : Progress p.srv s')
    (hstate : s'.state = p.srv.state) : Inv ⟨s', p.confirmed⟩ := by
  obtain ⟨huses, hearly, hwaiting, hlate⟩ := inv
  cases h with
  | requested hpc hpc' hst hu =>
      have hc : p.confirmed = false := hearly (by rw [hpc]; exact List.not_mem_nil)
      refine ⟨?_, fun _ => hc, fun _ => ?_, ?_⟩
      · rw [hu, huses, hpc, hpc']
        rfl
      · simp [hstate, hst, hc]
      · intro hlt
        rw [hpc'] at hlt
        cases hlt
  | connected hpc hpc' hst hu hdone =>
      have hc : p.confirmed = true := (hwaiting (by rw [hpc]; rfl)).mp hst
      refine ⟨?_, ?_, fun _ => ?_, fun _ => hc⟩
      · rw [hu, hdone]
        exact huses
      · intro hacc
        rw [hdone, hpc] at hacc
        exact absurd (by decide) hacc
      · rw [hstate]
        exact ⟨fun _ => hc, fun _ => hst⟩
  | used u hpc hpc' hu hdone =>
      have hold : p.srv.mainPc.connecting = true := by
        rcases hpc with hpc | hpc
        · rw [hpc]
          rfl
        · simp [MainPc.connecting, hpc]
      refine ⟨?_, ?_, fun _ => ?_, ?_⟩
      · rw [hu, hdone, List.map_append, huses]
        rfl
      · intro hacc
        apply hearly
        intro hmem
        apply hacc
        rw [hdone]
        exact List.mem_append_left _ hmem
      · rw [hstate]
        exact hwaiting hold
      · intro hlt
        rcases hpc' with hb | hb
        · cases hp : s'.mainPc <;> simp_all [MainPc.between, MainPc.connected, MainPc.connecting]
        · rw [hb] at hlt
          cases hlt
  | other hphase hu =>
      simp only [MainPc.phase, Prod.mk.injEq] at hphase
      obtain ⟨-, hconn, hlt, hdone⟩ := hphase
      refine ⟨?_, ?_, ?_, ?_⟩
      · rw [hu, hdone]
        exact huses
      · rw [hdone]
        exact hearly
      · rw [hconn, hstate]
        exact hwaiting
      · rw [hlt]
        exact hlate

/-- `cm_thread` handles an event. -/
theorem Inv.event {p : Session} {s' : Server} (inv : Inv p) (hok : p.undisturbed .cm = true)
    (h : Event p.srv s') (hpc : s'.mainPc = p.srv.mainPc) (hu : s'.uses = p.srv.uses) :
    Inv ⟨s', p.confirmed || confirms p.srv .cm⟩ := by
  obtain ⟨huses, hearly, hwaiting, hlate⟩ := inv
  have hfirst : .accept ∉ s'.mainPc.childUses →
      (p.confirmed || confirms p.srv .cm) = false := by
    intro hacc
    rw [hpc] at hacc
    have hnone := accepted_eq_none huses hacc
    simp only [hearly hacc, Bool.false_or, confirms]
    split <;> simp [hnone]
  have hlast : s'.mainPc.connected = true → (p.confirmed || confirms p.srv .cm) = true := by
    intro hlt
    rw [hpc] at hlt
    rw [hlate hlt, Bool.true_or]
  refine ⟨by rw [hu, hpc]; exact huses, hfirst, ?_, hlast⟩
  intro hconn
  change s'.mainPc.connecting = true at hconn
  rw [hpc] at hconn
  have hquiet : (∀ e, p.srv.cmPc = .switch e → e.event ≠ .established) →
      confirms p.srv .cm = false := by
    intro hne
    simp only [confirms]
    split
    next e he => simp [hne e he]
    · rfl
  cases h with
  | take e hloc _ hstate _ _ =>
      have hno : confirms p.srv .cm = false := by simp [confirms, hloc]
      simp only [hstate, hno, Bool.or_false]
      exact hwaiting hconn
  | request e hloc hev _ hstate _ _ =>
      simp only [undisturbed, hloc, hconn, hev, Bool.not_true, Bool.false_or,
        Bool.not_eq_true'] at hok
      have hno : confirms p.srv .cm = false := hquiet (by
        intro e' he'
        rw [hloc] at he'
        cases he'
        simp [hev])
      simp [hstate, hok, hno]
  | connect e hloc hev _ hstate _ _ =>
      simp only [undisturbed, hloc, hconn, Bool.not_true, Bool.false_or] at hok
      rcases hev with hev | hev
      · simp [hev] at hok
      · rw [hev] at hok
        have hyes : confirms p.srv .cm = true := by simp [confirms, hloc, hev, hok]
        simp [hstate, hyes]
  | child id hloc _ hstate _ _ =>
      have hno : confirms p.srv .cm = false := by simp [confirms, hloc]
      simp only [hstate, hno, Bool.or_false]
      exact hwaiting hconn
  | other hne hstate _ _ _ =>
      simp only [hstate, hquiet hne, Bool.or_false]
      exact hwaiting hconn

theorem Inv.step {cfg : Config} {l : Label} {p p' : Session} (inv : Inv p)
    (hok : p.undisturbed l = true) (h : step cfg l p = some p') : Inv p' := by
  obtain ⟨s', hs, rfl⟩ := Option.map_eq_some_iff.mp h
  rcases step_links hs with ⟨rfl, hm⟩ | ⟨rfl, hm⟩ | hsame
  · rw [show confirms p.srv .main = false from rfl, Bool.or_false]
    exact inv.progress (mainThread_progress hm) (mainThread_links hm).1
  · obtain ⟨hev, hpc, hu⟩ := cmThread_event hm
    exact inv.event hok hev hpc hu
  · have hno : confirms p.srv l = false := by
      cases l with
      | cm =>
          -- only `cm_thread` moves `cm_thread`
          simp only [Server.step, Option.ite_none_left_eq_some] at hs
          have hev := (cmThread_event hs.2).1
          have hpc := hsame.cmPc
          cases hev with
          | take e h₁ h₂ | child id h₁ h₂ => simp [confirms, h₁]
          | request e h₁ _ h₂ => rw [h₁, h₂] at hpc; cases hpc
          | connect e h₁ _ h₂ => rw [h₁, h₂] at hpc; cases hpc
          | other h₁ _ _ _ h₂ =>
              simp only [confirms]
              split
              next e he => simp [h₁ e he]
              · rfl
      | main | cq | cmEvent | nic => rfl
    obtain ⟨huses, hearly, hwaiting, hlate⟩ := inv
    rw [hno, Bool.or_false]
    refine ⟨?_, ?_, ?_, ?_⟩
    · rw [hsame.uses, hsame.mainPc]
      exact huses
    · rw [hsame.mainPc]
      exact hearly
    · rw [hsame.mainPc, hsame.state]
      exact hwaiting
    · rw [hsame.mainPc]
      exact hlate

/-- As long as no other connection's event falls into the wait, the connected state is kept
until `start` leaves it, and `start` leaves it after its own connection's event. -/
theorem connected_until_left (cfg : Config) (calls : List Call) (p : Session)
    (run : Reach (step cfg) (fun p l => p.undisturbed l = true) (Fresh calls) p) :
    p.Connected := by
  refine Inv.connected (run.invariant (fun _ => .of_fresh) ?_)
  intro p l p' inv hok h
  exact inv.step hok h

/-- The connection is established, and then another client asks for one. -/
def strandingLabels : List Label :=
  setUpLabels ++ .cmEvent ⟨2, .established⟩ :: List.replicate 3 .cm ++
    .cmEvent ⟨3, .connectRequest⟩ :: List.replicate 2 .cm

/-- A later request takes the state back while `start` waits. -/
theorem connected_lost : ¬∀ p, Reach (step .small) free (Fresh []) p → p.Connected := by
  intro h
  obtain ⟨p, run, hp⟩ : ∃ p, Reach (step .small) free (Fresh []) p ∧
      (p.confirmed && p.srv.mainPc == .waitConnected && p.srv.state == .requestGet) = true :=
    ⟨_, Reach.drive (fun _ _ => true) strandingLabels
      (.start ⟨fresh_zeroed _, rfl⟩ : Reach _ _ _ ⟨zeroed [], false⟩) fun _ _ _ => trivial,
      by decide +kernel⟩
  simp only [Bool.and_eq_true, beq_iff_eq] at hp
  have hkept := (h p run).kept hp.1.1 hp.1.2
  rw [hp.2] at hkept
  cases hkept

/-- One client connects, and `start` leaves its wait. -/
theorem connected_until_left_once : ∃ p : Session, p.srv.mainPc = .waitRemote ∧ p.Connected := by
  obtain ⟨p, run, hp⟩ : ∃ p, Reach (step .small) (fun p l => p.undisturbed l = true) (Fresh []) p ∧
      (p.srv.mainPc == .waitRemote) = true :=
    ⟨_, Reach.drive undisturbed
      (setUpLabels ++ .cmEvent ⟨2, .established⟩ :: List.replicate 3 .cm ++ [.main])
      (.start ⟨fresh_zeroed _, rfl⟩ : Reach _ _ _ ⟨zeroed [], false⟩) fun _ _ h => h,
      by decide +kernel⟩
  exact ⟨p, beq_iff_eq.mp hp, connected_until_left .small [] p run⟩

end Session

end HyperRdma.Server
