import HyperRdma.NicStep

/-!
# What a send carries

Both programs send from the one registered `send_buf`, and the adapter may read
it at any moment while a send is outstanding. As long as the buffer holds still
meanwhile, each delivered message consists of the bytes that were in it when
its send was posted. Which bytes those are is given by a function of the
request, so that the programs can instantiate it.
-/

namespace HyperRdma.Nic

open ByteOrder Memory CompletionChannel

/-- A step changes a buffer only where an answer to the oldest request, an arriving message or
the peer's write is placed in it. -/
theorem Step.mem_eq_of_front {l : NicLabel} {n n' : Nic} (h : Step l n n') {b : Buf}
    (hread : ∀ e es bs, n.sq = e :: es → e.req.opcode = .rdmaRead → l = .answer bs →
      ∀ g ∈ e.req.sges, g.addr.block ≠ b)
    (hrecvs : l.receives = true → ∀ r ∈ n.rq, ∀ g ∈ r.sges, g.addr.block ≠ b)
    (hwrite : ∀ off bs, l ≠ .remoteWrite b off bs) : n'.mem b = n.mem b := by
  have hscatter : ∀ (sges : List IbvSge) (bs : List UInt8), (∀ g ∈ sges, g.addr.block ≠ b) →
      scatter n.mem (segments sges) bs b = n.mem b := by
    intro sges bs hg
    apply scatter_other
    simp only [segments, List.mem_map, forall_exists_index, and_imp]
    rintro _ g hmem rfl
    exact hg g hmem
  cases h with
  | answer hsq hop _ => exact hscatter _ _ (hread _ _ _ hsq hop rfl)
  | recvPart hrq | recv hrq => exact hscatter _ _ (hrecvs rfl _ (by simp [hrq]))
  | @remoteWrite _ b' off bs _ _ =>
      apply store_other
      rintro rfl
      exact hwrite off bs rfl
  | fetch | deliver | written | complete | recvImm | failUnacked | failPosted | failRecv
  | arrive => rfl

/-- The same where no outstanding read is placed in the buffer. -/
theorem Step.mem_eq {l : NicLabel} {n n' : Nic} (h : Step l n n') {b : Buf}
    (hreads : ∀ e ∈ n.sq, e.req.opcode = .rdmaRead → ∀ g ∈ e.req.sges, g.addr.block ≠ b)
    (hrecvs : ∀ r ∈ n.rq, ∀ g ∈ r.sges, g.addr.block ≠ b)
    (hwrite : ∀ off bs, l ≠ .remoteWrite b off bs) : n'.mem b = n.mem b := by
  refine h.mem_eq_of_front ?_ (fun _ => hrecvs) hwrite
  intro e es bs hsq hop _
  exact hreads e (by simp [hsq]) hop

/-- A request is served when the peer takes its message, answers it or has been written to. -/
theorem Step.served {l : NicLabel} {n n' : Nic} (h : Step l n n') :
    n'.served = n.served ∨ ∃ e es, n.sq = e :: es ∧ n'.served = n.served ++ [e.req] ∧
      (e.req.opcode = .rdmaRead → ∃ bs, l = .answer bs) := by
  cases h with
  | deliver hsq hop _ =>
      refine .inr ⟨_, _, hsq, rfl, fun hread => ?_⟩
      rw [hread] at hop
      cases hop
  | answer hsq _ _ => exact .inr ⟨_, _, hsq, rfl, fun _ => ⟨_, rfl⟩⟩
  | written hsq hop =>
      refine .inr ⟨_, _, hsq, rfl, fun hread => ?_⟩
      rw [hread] at hop
      cases hop
  | fetch | complete | recvPart | recv | recvImm | remoteWrite | failUnacked | failPosted
  | failRecv | arrive => exact .inl rfl

/-- The two-sided requests of a list. -/
def sends (rs : List SendReq) : List SendReq := rs.filter fun r => r.opcode.isSend

@[simp] theorem sends_append (rs ss : List SendReq) : sends (rs ++ ss) = sends rs ++ sends ss :=
  List.filter_append ..

/-- Outstanding sends read `send_buf`, which holds the bytes `body` says, and so does what has
been fetched and delivered. -/
structure Carries (cfg : Config) (body : SendReq → List UInt8) (n : Nic) : Prop where
  sges : ∀ e ∈ n.sq, e.req.opcode.isSend = true → e.req.sges = [cfg.sendSge]
  stored : ∀ e ∈ n.sq, e.req.opcode.isSend = true → load n.mem .sendBuf 0 16 = body e.req
  fetched : ∀ e ∈ n.sq, e.req.opcode.isSend = true →
    ∀ k b, e.fetched k = some b → (body e.req)[k]? = some b
  delivered : n.delivered = (sends n.served).map fun r => ⟨body r, r.imm⟩

variable {cfg : Config} {body : SendReq → List UInt8}

theorem Fresh.carries {n : Nic} (h : n.Fresh) : n.Carries cfg body := by
  constructor <;> simp [h.sq, h.delivered, h.served, sends]

/-- The bytes which the adapter reads for a send. -/
theorem gather_sendSge (m : Mem Buf) (cfg : Config) :
    gather m (segments [cfg.sendSge]) = load m .sendBuf 0 16 := by
  simp [segments, gather, Config.sendSge]

/-- A payload read whole is the body of its request. -/
theorem Carries.payload {n : Nic} (inv : n.Carries cfg body) {e : SqEntry} (he : e ∈ n.sq)
    (hop : e.req.opcode.isSend = true) {bs : List UInt8} (hbs : e.payload = some bs) :
    bs = body e.req := by
  have hlen : (body e.req).length = 16 := by
    rw [← inv.stored e he hop]
    exact load_length ..
  have hsges : sgesLength e.req.sges = 16 := by
    rw [inv.sges e he hop]
    rfl
  simp only [SqEntry.payload, hsges, Option.ite_none_right_eq_some, Option.some.injEq] at hbs
  obtain ⟨hall, rfl⟩ := hbs
  apply List.ext_getElem
  · simp [hlen]
  · intro k hk hk'
    obtain ⟨b, hb⟩ := Option.isSome_iff_exists.mp (hall k (hlen ▸ hk'))
    have hbody := inv.fetched e he hop k b hb
    rw [List.getElem?_eq_getElem hk', Option.some.injEq] at hbody
    simp [hb, hbody]

theorem Carries.step {l : NicLabel} {n n' : Nic} (inv : n.Carries cfg body) (h : Step l n n')
    (hl : l.succeeds = true) (hbuf : n'.mem .sendBuf = n.mem .sendBuf) :
    n'.Carries cfg body := by
  have hload : load n'.mem .sendBuf 0 16 = load n.mem .sendBuf 0 16 :=
    load_congr fun k _ => by rw [hbuf]
  obtain ⟨hsges, hstored, hfetched, hdel⟩ := inv
  cases h with
  | @fetch _ j sel hj =>
      have hold : ∀ e ∈ n.sq.modify j (SqEntry.fetch n.mem sel),
          ∃ e₀ ∈ n.sq, e.req = e₀.req ∧ (e = e₀ ∨ e = e₀.fetch n.mem sel) := by
        intro e he
        obtain ⟨i, hi, rfl⟩ := List.mem_iff_getElem.mp he
        have hi' : i < n.sq.length := by simpa using hi
        refine ⟨n.sq[i], List.getElem_mem hi', ?_⟩
        rw [List.getElem_modify]
        split
        · exact ⟨rfl, .inr rfl⟩
        · exact ⟨rfl, .inl rfl⟩
      refine ⟨?_, ?_, ?_, hdel⟩
      · intro e he hop
        obtain ⟨e₀, he₀, hreq, -⟩ := hold e he
        rw [hreq] at hop ⊢
        exact hsges e₀ he₀ hop
      · intro e he hop
        obtain ⟨e₀, he₀, hreq, -⟩ := hold e he
        rw [hreq] at hop ⊢
        exact hstored e₀ he₀ hop
      · intro e he hop k b hb
        obtain ⟨e₀, he₀, hreq, rfl | rfl⟩ := hold e he
        · exact hfetched e he₀ hop k b hb
        · rw [hreq] at hop ⊢
          simp only [SqEntry.fetch] at hb
          split at hb
          · rwa [hsges e₀ he₀ hop, gather_sendSge, hstored e₀ he₀ hop] at hb
          · exact hfetched e₀ he₀ hop k b hb
  | @deliver _ e es bs hsq hop hbs =>
      have he : e ∈ n.sq := by simp [hsq]
      have hbs' := Carries.payload ⟨hsges, hstored, hfetched, hdel⟩ he hop hbs
      have hsub : ∀ x ∈ es, x ∈ n.sq := fun x hx => by simp [hsq, hx]
      refine ⟨fun x hx => hsges x (hsub x hx), fun x hx => hstored x (hsub x hx),
        fun x hx => hfetched x (hsub x hx), ?_⟩
      simp [serve, sends, hop, hdel, hbs']
  | @answer _ e es bs hsq hop hbs | @written _ e es hsq hop =>
      have hsub : ∀ x ∈ es, x ∈ n.sq := fun x hx => by simp [hsq, hx]
      refine ⟨fun x hx => hsges x (hsub x hx),
        fun x hx hx' => hload.trans (hstored x (hsub x hx) hx'),
        fun x hx => hfetched x (hsub x hx), ?_⟩
      have hns : e.req.opcode.isSend = false := by simp [hop, IbvWrOpcode.isSend]
      simp [serve, sends, hns, hdel]
  | complete | recvPart | recv | recvImm | remoteWrite =>
      exact ⟨hsges, fun x hx hx' => hload.trans (hstored x hx hx'), hfetched, hdel⟩
  | failUnacked | failPosted | failRecv | arrive => cases hl

/-- A new send has to find its bytes in the buffer. -/
theorem Posted.carries {r : SendReq} {n n' : Nic} (h : Posted r n n')
    (inv : n.Carries cfg body)
    (hr : r.opcode.isSend = true →
      r.sges = [cfg.sendSge] ∧ load n.mem .sendBuf 0 16 = body r) : n'.Carries cfg body := by
  rw [h.eq]
  refine ⟨?_, ?_, ?_, inv.delivered⟩
  · intro e he hop
    rcases List.mem_append.mp he with he | he
    · exact inv.sges e he hop
    · obtain rfl := List.mem_singleton.mp he
      exact (hr hop).1
  · intro e he hop
    rcases List.mem_append.mp he with he | he
    · exact inv.stored e he hop
    · obtain rfl := List.mem_singleton.mp he
      exact (hr hop).2
  · intro e he hop k b hb
    rcases List.mem_append.mp he with he | he
    · exact inv.fetched e he hop k b hb
    · obtain rfl := List.mem_singleton.mp he
      cases hb

/-- The program's other steps may write the buffer while no send is outstanding. -/
theorem SameSends.carries {n n' : Nic} (h : n.SameSends n') (inv : n.Carries cfg body)
    (hbuf : n'.mem .sendBuf = n.mem .sendBuf ∨ ∀ e ∈ n.sq, e.req.opcode.isSend = false) :
    n'.Carries cfg body := by
  obtain ⟨rq, recvPosts, ch, mem, rfl, -⟩ := h
  refine ⟨inv.sges, ?_, inv.fetched, inv.delivered⟩
  intro e he hop
  rcases hbuf with hbuf | hnone
  · rw [← inv.stored e he hop]
    exact load_congr fun k _ => by rw [hbuf]
  · rw [hnone e he] at hop
    cases hop

/-- The message that a queue is about to deliver. -/
theorem Carries.outgoing {n : Nic} (inv : n.Carries cfg body) {m : Message}
    (hm : n.outgoing = some m) :
    ∃ e es, n.sq = e :: es ∧ e.req.opcode.isSend = true ∧ m = ⟨body e.req, e.req.imm⟩ := by
  unfold Nic.outgoing at hm
  split at hm
  · cases hm
  next e es hsq =>
    simp only [Option.ite_none_right_eq_some, Option.map_eq_some_iff] at hm
    obtain ⟨hop, bs, hbs, rfl⟩ := hm
    obtain rfl := inv.payload (by simp [hsq]) hop hbs
    exact ⟨e, es, hsq, hop, rfl⟩

/-- What has been delivered is a beginning of what has been posted. -/
theorem Carries.delivered_prefix {n : Nic} (inv : n.Carries cfg body) (hcons : n.Conserved) :
    n.delivered <+: (sends n.posts).map fun r => ⟨body r, r.imm⟩ := by
  have hposts : n.posts = n.retired ++ n.unacked ++ n.sq.map SqEntry.req := hcons.ordered
  rw [inv.delivered, hcons.served, hposts, sends_append (n.retired ++ n.unacked), List.map_append]
  exact List.prefix_append ..

/-- Once the last of several different sends has completed, none is outstanding. -/
theorem Ordered.flushed {n : Nic} (h : n.Ordered) (hnodup : (sends n.posts).Nodup)
    {r : SendReq} (hlast : (sends n.posts).getLast? = some r) (hr : r ∈ n.retired) :
    sends n.unacked = [] ∧ sends (n.sq.map SqEntry.req) = [] := by
  have hop : r.opcode.isSend = true := by
    have hmem := List.mem_of_getLast? hlast
    exact (List.mem_filter.mp hmem).2
  have hret : r ∈ sends n.retired := List.mem_filter.mpr ⟨hr, hop⟩
  have hsplit : sends n.posts =
      sends n.retired ++ (sends n.unacked ++ sends (n.sq.map SqEntry.req)) := by
    rw [h, sends_append, sends_append, List.append_assoc]
  rw [hsplit] at hnodup hlast
  rw [← List.append_eq_nil_iff]
  by_contra hne
  rw [List.getLast?_append_of_ne_nil _ hne] at hlast
  exact (List.nodup_append.mp hnodup).2.2 r hret r (List.mem_of_getLast? hlast) rfl

/-- With no send outstanding, everything posted has been delivered. -/
theorem Carries.delivered_all {n : Nic} (inv : n.Carries cfg body) (hcons : n.Conserved)
    (hidle : sends (n.sq.map SqEntry.req) = []) :
    n.delivered = (sends n.posts).map fun r => ⟨body r, r.imm⟩ := by
  have hposts : n.posts = n.retired ++ n.unacked ++ n.sq.map SqEntry.req := hcons.ordered
  rw [inv.delivered, hcons.served, hposts, sends_append (n.retired ++ n.unacked), hidle,
    List.append_nil]

/-! ## What is left to send -/

/-- A send waits for its bytes to be read, and then, at a cost of `k`, for its delivery. -/
def toSend (k : Nat) (n : Nic) : Nat :=
  (n.sq.map fun e => if e.payload.isSome then k else k + 1).sum

theorem toSend_cons {k : Nat} {n : Nic} {e : SqEntry} {es : List SqEntry} (h : n.sq = e :: es) :
    n.toSend k = (if e.payload.isSome then k else k + 1) + toSend k { n with sq := es } := by
  simp [toSend, h]

/-- Reading the whole of a message completes its payload. -/
theorem payload_fetch (m : Mem Buf) (e : SqEntry) :
    (e.fetch m fun _ => true).payload.isSome = true := by
  have hall : ∀ k < sgesLength (e.fetch m fun _ => true).req.sges,
      ((e.fetch m fun _ => true).fetched k).isSome := by
    intro k hk
    have hlen : k < (gather m (segments e.req.sges)).length := by
      rw [gather_length]
      exact hk
    simp only [SqEntry.fetch, if_true, List.getElem?_eq_getElem hlen, Option.isSome_some]
  rw [SqEntry.payload, if_pos hall]
  rfl

/-- The adapter can read the message at the front of the queue, which lowers what is left. -/
theorem fetch_toSend {n : Nic} {k : Nat} {e : SqEntry} {es : List SqEntry} (hsq : n.sq = e :: es)
    (hread : e.payload.isSome = false) :
    ∃ sq, n.fetch 0 (fun _ => true) = some { n with sq := sq } ∧
      toSend k { n with sq := sq } < n.toSend k := by
  refine ⟨e.fetch n.mem (fun _ => true) :: es, ?_, ?_⟩
  · simp [Nic.fetch, hsq]
  · rw [toSend_cons hsq]
    simp [toSend, payload_fetch, hread]

/-- A delivery takes the message off the queue. -/
theorem deliver_toSend {n : Nic} {k : Nat} {e : SqEntry} {es : List SqEntry} (hsq : n.sq = e :: es)
    (hop : e.req.opcode.isSend = true) {bs : List UInt8} (hbs : e.payload = some bs) :
    n.outgoing = some ⟨bs, e.req.imm⟩ ∧
      n.deliver = some { n.serve e es with delivered := n.delivered ++ [⟨bs, e.req.imm⟩] } ∧
      toSend k (n.serve e es) + k ≤ n.toSend k := by
  have hout : n.outgoing = some ⟨bs, e.req.imm⟩ := by
    simp [outgoing, hsq, hop, hbs]
  refine ⟨hout, ?_, ?_⟩
  · simp [deliver, hsq, hout]
  · rw [toSend_cons hsq]
    simp only [hbs, Option.isSome_some, if_true, toSend, serve]
    omega

end HyperRdma.Nic
