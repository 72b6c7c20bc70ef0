import HyperRdma.Client.Progress
import HyperRdma.SketchTransfer

/-!
# The client's calls

Each call of the client stands for a list of accesses to the server's regions.
At every location of the main thread the requests handed over so far, the
accesses which the running call has still to make and those of the calls left
are together the accesses of all calls.
-/

namespace HyperRdma.Client

open ByteOrder Memory CompletionChannel Transition

/-! ## The accesses of a call -/

/-- The accesses which a call makes, in order. -/
def Call.accesses (cfg : Config) : Call → List Access
  | .rdmaRead => [.rdmaRead]
  | .rdmaWrite => [.rdmaWrite]
  | .readClass => [.readClass]
  | .owRead => (List.range cfg.words).map .owRead
  | .waitClassAddr | .sleep => []

/-- The accesses of the loop of `ow_read` from its round `i` on. -/
def sketchFrom (cfg : Config) (i : Nat) : List Access :=
  (List.range' i (cfg.words - i)).map .owRead

/-- The accesses which the running call has still to make. -/
def MainPc.toMake (cfg : Config) : MainPc → List Access
  | .readCheck | .readClear | .readAddr | .readRkey | .readLen | .readPost => [.rdmaRead]
  | .writeClear | .writeCopy | .writeAddr | .writeRkey | .writeLen | .writePost => [.rdmaWrite]
  | .classClear | .classAddr | .classRkey | .classPost => [.readClass]
  | .owReset => sketchFrom cfg 0
  | .owLoop i | .owClear i | .owAddr i | .owRkey i | .owPost i => sketchFrom cfg i
  | .owInc i | .owWait i => sketchFrom cfg (i + 1)
  | _ => []

theorem sketchFrom_cons {cfg : Config} {i : Nat} (hi : (i : Int) < cfg.dataSize.toInt) :
    sketchFrom cfg i = .owRead i :: sketchFrom cfg (i + 1) := by
  have hlen : cfg.words - i = cfg.words - (i + 1) + 1 := by
    unfold Config.words
    omega
  rw [sketchFrom, hlen, List.range'_succ, List.map_cons]
  rfl

theorem sketchFrom_nil {cfg : Config} {i : Nat} (hi : ¬(i : Int) < cfg.dataSize.toInt) :
    sketchFrom cfg i = [] := by
  have hlen : cfg.words - i = 0 := by
    unfold Config.words
    omega
  rw [sketchFrom, hlen]
  rfl

/-- A call begins with all its accesses before it. -/
theorem toMake_entry (cfg : Config) (call : Call) :
    call.entry.toMake cfg = call.accesses cfg := by
  cases call with
  | owRead =>
      simp only [Call.entry, MainPc.toMake, sketchFrom, Call.accesses, Nat.sub_zero]
      rw [List.range_eq_range']
  | rdmaRead | rdmaWrite | readClass | waitClassAddr | sleep => rfl

/-- The accesses that are left at the client's location. -/
def toMake (cfg : Config) (c : Client) : List Access :=
  c.mainPc.toMake cfg ++ c.calls.flatMap (Call.accesses cfg)

/-- A request makes an access: it has its operation and its scatter list, and goes where the
descriptors say. -/
structure Makes (cfg : Config) (adv : Region → RemoteInfo) (r : SendReq) (a : Access) : Prop
    extends Performs cfg adv r a where
  remote : r.remote = some (a.remote adv)

/-- The one-sided requests handed over. -/
def accessed (c : Client) : List SendReq := c.nic.posts.filter fun r => r.opcode.isOneSided

/-- The requests handed over make the first accesses of the calls, and the others are left. -/
def Advanced (cfg : Config) (adv : Region → RemoteInfo) (calls : List Call) (c : Client) : Prop :=
  ∃ as, List.Forall₂ (Makes cfg adv) c.accessed as ∧
    as ++ c.toMake cfg = calls.flatMap (Call.accesses cfg)

/-! ## One step -/

/-- Where nothing is handed over, the accesses that are left stay the same. -/
theorem mainThread_toMake {cfg : Config} {c c' : Client} (h : c.mainThread cfg = some c')
    (hp : c.posting = none) : c'.toMake cfg = c.toMake cfg := by
  cases hpc : c.mainPc with
  | postStart | readPost | writePost | classPost | owPost i => simp [posting, hpc] at hp
  | next =>
      simp only [mainThread, hpc, script] at h
      split at h
      · cases h
      next call rest hcalls =>
        obtain rfl := Option.some.inj h
        simp only [toMake, hpc, hcalls, toMake_entry, List.flatMap_cons]
        rfl
  | owLoop i =>
      simp only [mainThread, hpc, owRead] at h
      split at h
      · obtain rfl := Option.some.inj h
        simp only [toMake, goto, hpc]
        rfl
      next hi =>
        obtain rfl := Option.some.inj h
        simp only [toMake, goto, hpc, MainPc.toMake, sketchFrom_nil hi]
  | postRecv =>
      simp only [mainThread, hpc, start, Option.some.injEq] at h
      subst h
      rcases postRecv_cases c with he | he
      all_goals
        rw [he]
        simp only [toMake, goto, hpc]
        rfl
  | _ =>
      simp only [mainThread, hpc, start, rdmaRead, rdmaWrite, readClass, owRead, script] at h
      repeat' split at h
      all_goals cases h
      all_goals simp only [toMake, goto, exit, setMem, setDrain, hpc, MainPc.toMake]

/-- A one-sided request makes the next access of its call. -/
theorem Started.makes {cfg : Config} {w : Records} {adv : Region → RemoteInfo} {c : Client}
    {r : SendReq} (inv : Started cfg adv c) (haim : Aimed adv c) (hrec : RecordsInv cfg w c)
    (h : c.posting = some r) (hop : r.opcode.isOneSided = true) :
    ∃ a, Makes cfg adv r a ∧ c.mainPc.toMake cfg = a :: c.mainPc.handedOver.toMake cfg := by
  have htaken := inv.taken
  have haimed := haim.taken
  cases hpc : c.mainPc with
  | postStart =>
      rw [hrec.posting_start hpc] at h
      obtain rfl := Option.some.inj h
      cases hop
  | readPost =>
      rw [hrec.posting_read hpc] at h
      obtain rfl := Option.some.inj h
      rw [hpc] at htaken
      obtain ⟨haddr, hrkey, hlen⟩ := htaken
      rw [haddr, hrkey, hlen]
      exact ⟨.rdmaRead, ⟨⟨trivial, rfl, rfl⟩, rfl⟩, rfl⟩
  | writePost =>
      rw [hrec.posting_write hpc] at h
      obtain rfl := Option.some.inj h
      rw [hpc] at htaken
      obtain ⟨haddr, hrkey, hlen⟩ := htaken
      rw [haddr, hrkey, hlen]
      exact ⟨.rdmaWrite, ⟨⟨trivial, rfl, rfl⟩, rfl⟩, rfl⟩
  | classPost =>
      rw [hrec.posting_class hpc] at h
      obtain rfl := Option.some.inj h
      rw [hpc] at haimed
      rw [classReq, haimed.1, haimed.2]
      exact ⟨.readClass, ⟨⟨trivial, rfl, rfl⟩, rfl⟩, rfl⟩
  | owPost i =>
      rw [hrec.posting_sketch hpc] at h
      obtain rfl := Option.some.inj h
      have hi := inv.word i (by rw [hpc]; rfl)
      rw [hpc] at haimed
      rw [sketchReq, haimed.1, haimed.2]
      exact ⟨.owRead i, ⟨⟨hi, rfl, rfl⟩, rfl⟩, sketchFrom_cons hi⟩
  | _ => simp [posting, hpc] at h

/-- The greeting is no access, and nothing is left to make while `start` runs. -/
theorem toMake_of_send {cfg : Config} {w : Records} {c : Client} {r : SendReq}
    (hrec : RecordsInv cfg w c) (h : c.posting = some r) (hop : r.opcode.isOneSided = false) :
    c.mainPc.handedOver.toMake cfg = c.mainPc.toMake cfg := by
  cases hpc : c.mainPc with
  | postStart => rfl
  | readPost =>
      rw [hrec.posting_read hpc] at h
      obtain rfl := Option.some.inj h
      cases hop
  | writePost =>
      rw [hrec.posting_write hpc] at h
      obtain rfl := Option.some.inj h
      cases hop
  | classPost =>
      rw [hrec.posting_class hpc] at h
      obtain rfl := Option.some.inj h
      cases hop
  | owPost i =>
      rw [hrec.posting_sketch hpc] at h
      obtain rfl := Option.some.inj h
      cases hop
  | _ => simp [posting, hpc] at h

theorem Advanced.congr {cfg : Config} {adv : Region → RemoteInfo} {calls : List Call}
    {c c' : Client} (inv : Advanced cfg adv calls c) (hposts : c'.nic.posts = c.nic.posts)
    (hleft : c'.toMake cfg = c.toMake cfg) : Advanced cfg adv calls c' := by
  unfold Advanced accessed
  rw [hposts, hleft]
  exact inv

theorem Advanced.mainThread {cfg : Config} {w : Records} {adv : Region → RemoteInfo}
    {calls : List Call} {c c' : Client} (inv : Advanced cfg adv calls c)
    (hstarted : Started cfg adv c) (haim : Aimed adv c) (hrec : RecordsInv cfg w c)
    (h : c.mainThread cfg = some c') : Advanced cfg adv calls c' := by
  cases hp : c.posting with
  | none =>
      rcases mainThread_sends h with hs | ⟨r, hr, -⟩
      · exact inv.congr hs.posts (mainThread_toMake h hp)
      · rw [hp] at hr
        cases hr
  | some r =>
      obtain ⟨w', hout⟩ := mainThread_posting cfg hp
      rw [hout, Option.some.injEq] at h
      subst h
      cases hn : c.nic.postSend r with
      | none => exact inv.congr rfl rfl
      | some n =>
          obtain ⟨-, rfl⟩ := Nic.postSend_cases hn
          obtain ⟨as, hmade, hleft⟩ := inv
          cases hop : r.opcode.isOneSided with
          | false =>
              refine ⟨as, ?_, ?_⟩
              · simpa [accessed, List.filter_append, hop] using hmade
              · rw [← hleft]
                simp only [toMake, toMake_of_send hrec hp hop]
          | true =>
              obtain ⟨a, hmakes, hnext⟩ := hstarted.makes haim hrec hp hop
              refine ⟨as ++ [a], ?_, ?_⟩
              · have hlast : List.Forall₂ (Makes cfg adv) [r] [a] := .cons hmakes .nil
                simpa [accessed, List.filter_append, hop] using List.rel_append hmade hlast
              · rw [← hleft]
                simp only [toMake, hnext, List.append_assoc, List.cons_append, List.nil_append]

theorem Advanced.step {cfg : Config} {w : Records} {adv : Region → RemoteInfo}
    {calls : List Call} {l : Label} {c c' : Client} (inv : Advanced cfg adv calls c)
    (hstarted : Started cfg adv c) (haim : Aimed adv c) (hrec : RecordsInv cfg w c)
    (h : c.step cfg l = some c') : Advanced cfg adv calls c' := by
  simp only [Client.step, Option.ite_none_left_eq_some] at h
  obtain ⟨-, h⟩ := h
  cases l with
  | main => exact inv.mainThread hstarted haim hrec h
  | cq =>
      refine inv.congr (cqThread_sends h).posts ?_
      simp only [toMake, (cqThread_drain h).1, cqThread_calls h]
  | cm =>
      obtain ⟨es, pc, st, rfl⟩ := cmThread_cases h
      exact inv
  | cmEvent e =>
      obtain rfl := Option.some.inj h
      exact inv
  | nic l =>
      obtain ⟨n, hn, rfl⟩ := Option.map_eq_some_iff.mp h
      exact inv.congr (Nic.step_cases hn).posts rfl

theorem Advanced.of_fresh {cfg : Config} {adv : Region → RemoteInfo} {calls : List Call}
    {c : Client} (h : Fresh calls c) : Advanced cfg adv calls c := by
  refine ⟨[], ?_, ?_⟩
  · rw [accessed, h.nic.posts]
    exact .nil
  · rw [toMake, h.mainPc, h.calls_eq]
    rfl

end HyperRdma.Client
