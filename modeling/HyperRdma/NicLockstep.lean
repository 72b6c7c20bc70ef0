import HyperRdma.NicStep

/-!
# Two adapters under the same labels

Two copies of one side have been handed the same requests and have got equally
far with them; the bytes in their buffers may differ. Then the adapter can do
the same in both at every moment, whatever bytes it brings, and the same
completions arrive.
-/

namespace HyperRdma

open ByteOrder Memory CompletionChannel

/-- Two labels that differ in the bytes they bring alone. -/
inductive NicLabel.Similar : NicLabel → NicLabel → Prop
  | fetch (j : Nat) (sel : Nat → Bool) : Similar (.fetch j sel) (.fetch j sel)
  | deliver : Similar .deliver .deliver
  | answer {bs bs' : List UInt8} (h : bs.length = bs'.length) : Similar (.answer bs) (.answer bs')
  | written : Similar .written .written
  | complete : Similar .complete .complete
  | recvPart (f f' : Nat → Option UInt8) : Similar (.recvPart f) (.recvPart f')
  | recv (m : Message) : Similar (.recv m) (.recv m)
  | remoteWrite (b : Buf) (off : Nat) (bs bs' : List UInt8) :
      Similar (.remoteWrite b off bs) (.remoteWrite b off bs')

namespace SqEntry

/-- A posted request, and which bytes of it have been read. -/
def outline (e : SqEntry) : SendReq × (Nat → Bool) := (e.req, fun k => (e.fetched k).isSome)

theorem req_of_outline {e e' : SqEntry} (h : e.outline = e'.outline) : e.req = e'.req :=
  congrArg Prod.fst h

/-- Whether the whole message has been read depends on the outline alone. -/
theorem payload_isSome_of_outline {e e' : SqEntry} (h : e.outline = e'.outline) :
    e.payload.isSome = e'.payload.isSome := by
  have hreq := req_of_outline h
  have hread : ∀ k, (e.fetched k).isSome = (e'.fetched k).isSome := fun k =>
    congrFun (congrArg Prod.snd h) k
  unfold payload
  simp only [hreq, hread]
  split <;> rfl

/-- What a fetch does to an outline. -/
def mark (sel : Nat → Bool) (o : SendReq × (Nat → Bool)) : SendReq × (Nat → Bool) :=
  (o.1, fun k => if sel k then decide (k < sgesLength o.1.sges) else o.2 k)

theorem outline_fetch (m : Mem Buf) (sel : Nat → Bool) (e : SqEntry) :
    (e.fetch m sel).outline = mark sel e.outline := by
  ext1
  · rfl
  · funext k
    change (if sel k then (gather m (segments e.req.sges))[k]? else e.fetched k).isSome =
      if sel k then decide (k < sgesLength e.req.sges) else (e.fetched k).isSome
    by_cases hs : sel k = true
    · rw [if_pos hs, if_pos hs, Bool.eq_iff_iff, decide_eq_true_iff]
      simp [sgesLength]
    · rw [if_neg hs, if_neg hs]

end SqEntry

namespace Nic

/-- The two adapters have been handed the same requests and have got equally far with them. -/
structure Alike (n n' : Nic) : Prop where
  sq : n.sq.map SqEntry.outline = n'.sq.map SqEntry.outline
  unacked : n.unacked = n'.unacked
  rq : n.rq = n'.rq
  ch : n.ch = n'.ch
  posts : n.posts = n'.posts
  recvPosts : n.recvPosts = n'.recvPosts

variable {n n' : Nic}

theorem Fresh.alike (h : n.Fresh) (h' : n'.Fresh) : n.Alike n' := by
  refine ⟨?_, ?_, ?_, ?_, ?_, ?_⟩
  · rw [h.sq, h'.sq]
  · rw [h.unacked, h'.unacked]
  · rw [h.rq, h'.rq]
  · rw [h.ch, h'.ch]
  · rw [h.posts, h'.posts]
  · rw [h.recvPosts, h'.recvPosts]

/-- The bytes in the buffers play no part. -/
theorem Alike.setMem (h : n.Alike n') (m m' : Mem Buf) :
    Alike { n with mem := m } { n' with mem := m' } :=
  ⟨h.sq, h.unacked, h.rq, h.ch, h.posts, h.recvPosts⟩

theorem Alike.setCh (h : n.Alike n') (ch : Channel IbvWc) :
    Alike { n with ch := ch } { n' with ch := ch } :=
  ⟨h.sq, h.unacked, h.rq, rfl, h.posts, h.recvPosts⟩

theorem Alike.occupied (h : n.Alike n') :
    n.sq.length + n.unacked.length = n'.sq.length + n'.unacked.length := by
  have hsq := congrArg List.length h.sq
  simp only [List.length_map] at hsq
  rw [hsq, h.unacked]

/-- The front of one queue is the front of the other. -/
theorem Alike.front (h : n.Alike n') {e : SqEntry} {es : List SqEntry} (hsq : n.sq = e :: es) :
    ∃ e' es', n'.sq = e' :: es' ∧ e.outline = e'.outline ∧
      es.map SqEntry.outline = es'.map SqEntry.outline := by
  have hmap := h.sq
  rw [hsq] at hmap
  cases hsq' : n'.sq with
  | nil =>
      rw [hsq'] at hmap
      cases hmap
  | cons e' es' =>
      rw [hsq', List.map_cons, List.map_cons, List.cons.injEq] at hmap
      exact ⟨e', es', rfl, hmap⟩

theorem Alike.nil (h : n.Alike n') (hsq : n.sq = []) : n'.sq = [] := by
  have hmap := h.sq
  rw [hsq, List.map_nil] at hmap
  exact List.map_eq_nil_iff.mp hmap.symm

theorem Alike.postSend (h : n.Alike n') (r : SendReq) :
    Option.Rel Alike (n.postSend r) (n'.postSend r) := by
  unfold Nic.postSend
  rw [← h.occupied]
  split
  · exact .some ⟨by simp [h.sq], h.unacked, h.rq, h.ch, by simp [h.posts], h.recvPosts⟩
  · exact .none

theorem Alike.postRecv (h : n.Alike n') (r : RecvReq) :
    Option.Rel Alike (n.postRecv r) (n'.postRecv r) := by
  unfold Nic.postRecv
  rw [← h.rq]
  split
  · exact .some ⟨h.sq, h.unacked, by simp [h.rq], h.ch, h.posts, by simp [h.recvPosts]⟩
  · exact .none

/-- The front request leaves both queues. -/
theorem Alike.serve (h : n.Alike n') {e e' : SqEntry} {es es' : List SqEntry}
    (he : e.outline = e'.outline) (hes : es.map SqEntry.outline = es'.map SqEntry.outline) :
    (n.serve e es).Alike (n'.serve e' es') := by
  refine ⟨hes, ?_, h.rq, h.ch, h.posts, h.recvPosts⟩
  simp [Nic.serve, h.unacked, SqEntry.req_of_outline he]

theorem Alike.fetch (h : n.Alike n') (j : Nat) (sel : Nat → Bool) :
    Option.Rel Alike (n.fetch j sel) (n'.fetch j sel) := by
  have hlen : n.sq.length = n'.sq.length := by
    have hsq := congrArg List.length h.sq
    simpa only [List.length_map] using hsq
  have hmodify : ∀ (m : Mem Buf) (es : List SqEntry),
      (es.modify j (SqEntry.fetch m sel)).map SqEntry.outline =
        (es.map SqEntry.outline).modify j (SqEntry.mark sel) := by
    intro m es
    induction es generalizing j with
    | nil => simp
    | cons e es ih =>
        cases j with
        | zero => simp [SqEntry.outline_fetch]
        | succ j => simp [ih]
  unfold Nic.fetch
  rw [← hlen]
  split
  · apply Option.Rel.some
    refine ⟨?_, h.unacked, h.rq, h.ch, h.posts, h.recvPosts⟩
    rw [hmodify, hmodify, h.sq]
  · exact .none

theorem Alike.outgoing_isSome (h : n.Alike n') : n.outgoing.isSome = n'.outgoing.isSome := by
  unfold Nic.outgoing
  cases hsq : n.sq with
  | nil => rw [h.nil hsq]
  | cons e es =>
      obtain ⟨e', es', hsq', he, -⟩ := h.front hsq
      rw [hsq']
      simp only [← SqEntry.req_of_outline he]
      split
      · simp only [Option.isSome_map, SqEntry.payload_isSome_of_outline he]
      · rfl

theorem Alike.deliver (h : n.Alike n') : Option.Rel Alike n.deliver n'.deliver := by
  have hsome := h.outgoing_isSome
  unfold Nic.deliver
  cases hsq : n.sq with
  | nil =>
      rw [h.nil hsq]
      exact .none
  | cons e es =>
      obtain ⟨e', es', hsq', he, hes⟩ := h.front hsq
      have hserve := h.serve he hes
      rw [hsq']
      cases ho : n.outgoing with
      | none =>
          rw [ho] at hsome
          rw [Option.isSome_eq_false_iff.mp hsome.symm |> Option.isNone_iff_eq_none.mp]
          exact .none
      | some m =>
          rw [ho] at hsome
          obtain ⟨m', ho'⟩ := Option.isSome_iff_exists.mp hsome.symm
          rw [ho']
          exact .some ⟨hserve.sq, hserve.unacked, hserve.rq, hserve.ch, hserve.posts,
            hserve.recvPosts⟩

theorem Alike.answer (h : n.Alike n') {bs bs' : List UInt8} (hbs : bs.length = bs'.length) :
    Option.Rel Alike (n.answer bs) (n'.answer bs') := by
  unfold Nic.answer
  cases hsq : n.sq with
  | nil =>
      rw [h.nil hsq]
      exact .none
  | cons e es =>
      obtain ⟨e', es', hsq', he, hes⟩ := h.front hsq
      rw [hsq']
      simp only [← SqEntry.req_of_outline he, ← hbs]
      split
      · exact .some ((h.serve he hes).setMem _ _)
      · exact .none

theorem Alike.written (h : n.Alike n') : Option.Rel Alike n.written n'.written := by
  unfold Nic.written
  cases hsq : n.sq with
  | nil =>
      rw [h.nil hsq]
      exact .none
  | cons e es =>
      obtain ⟨e', es', hsq', he, hes⟩ := h.front hsq
      rw [hsq']
      simp only [← SqEntry.req_of_outline he]
      split
      · exact .some (h.serve he hes)
      · exact .none

theorem Alike.complete (h : n.Alike n') : Option.Rel Alike n.complete n'.complete := by
  unfold Nic.complete
  rw [← h.unacked]
  split
  · exact .none
  · simp only [h.ch]
    exact .some ⟨h.sq, rfl, h.rq, rfl, h.posts, h.recvPosts⟩

/-- Whatever the adapter can do in one copy it can do in the other, with the same effect. -/
theorem Alike.step (h : n.Alike n') {l l' : NicLabel} (hl : l.Similar l') :
    Option.Rel Alike (n.step l) (n'.step l') := by
  cases hl with
  | fetch j sel => exact h.fetch j sel
  | deliver => exact h.deliver
  | answer hbs => exact h.answer hbs
  | written => exact h.written
  | complete => exact h.complete
  | recvPart f f' =>
      simp only [Nic.step, Nic.recvPart, ← h.rq]
      split
      · exact .none
      · exact .some ⟨h.sq, h.unacked, rfl, h.ch, h.posts, h.recvPosts⟩
  | recv m =>
      simp only [Nic.step, Nic.recv, ← h.rq]
      split
      · exact .none
      · split
        · rw [← h.ch]
          exact .some ⟨h.sq, h.unacked, rfl, rfl, h.posts, h.recvPosts⟩
        · exact .none
  | remoteWrite b off bs bs' =>
      simp only [Nic.step, Nic.remoteWrite, h.posts, h.recvPosts]
      split
      · exact .none
      · exact .some ⟨h.sq, h.unacked, h.rq, h.ch, rfl, rfl⟩

end Nic

end HyperRdma
