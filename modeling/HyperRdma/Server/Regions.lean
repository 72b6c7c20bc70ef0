import HyperRdma.Server.Receive

/-!
# What the advertised regions hold

The greeting is in its buffer before `start`, the sketch is filled before its
message is posted, and the class region only after. Beyond what the main thread
has written each buffer is as `malloc` returned it.
-/

namespace HyperRdma

open ByteOrder Memory CompletionChannel Transition

/-- The words which `init_sketch_rdma` has written after `n` rounds. -/
def sketchBytes (n : Nat) : List UInt8 := (List.range n).flatMap (encodeLe 4)

@[simp] theorem sketchBytes_length (n : Nat) : (sketchBytes n).length = 4 * n := by
  simp [sketchBytes, List.length_flatMap]
  omega

theorem sketchBytes_succ (n : Nat) : sketchBytes (n + 1) = sketchBytes n ++ encodeLe 4 n := by
  simp [sketchBytes, List.range_succ]

/-- The final contents of a region, from its first byte on. -/
def Config.contents (cfg : Config) : Region → List UInt8
  | .start => cfg.greeting ++ [0]
  | .cls => cfg.object.published
  | .sketch => sketchBytes cfg.dataSize.toInt.toNat

/-- A buffer found in a memory, with the final contents of its region stored in it. -/
def Config.publishedIn (cfg : Config) (found : Mem Buf) (k : Region) : Nat → UInt8 :=
  store found k.buf 0 (cfg.contents k) k.buf

/-- No write of the peer lands in the buffer of a region in `kept`. -/
def Label.Spares (kept : Region → Prop) : Label → Prop
  | .nic (.remoteWrite b _ _) => ∀ k, kept k → b ≠ k.buf
  | _ => True

/-- The published bytes one by one: those of the object, then those of its array. -/
theorem RdmaTest.published_take_succ (o : RdmaTest) {j : Nat} {x : UInt8}
    (h : (∃ hj : j < o.bytes.length, x = o.bytes[j]) ∨
      ∃ i, ∃ hi : i < o.arrayBytes.length, j = sizeOf + i ∧ x = o.arrayBytes[i]) :
    o.published.take (j + 1) = o.published.take j ++ [x] := by
  rw [List.take_add_one]
  congr 1
  rcases h with ⟨hj, rfl⟩ | ⟨i, hi, rfl, rfl⟩
  · rw [published, List.getElem?_append_left hj, List.getElem?_eq_getElem hj]
    rfl
  · rw [published, List.getElem?_append_right (by simp), bytes_length, Nat.add_sub_cancel_left,
      List.getElem?_eq_getElem hi]
    rfl

namespace Server

/-- Both `memcpy` calls of `init_class_recv` are over. -/
def MainPc.copied : MainPc → Bool
  | .waitSend .cls | .sendBuf .sketch | .sendRkey .sketch | .sendSize .sketch | .fill _
  | .post .sketch | .waitSend .sketch => true
  | pc => pc.calling

/-- The loop of `init_sketch_rdma` is over. -/
def MainPc.filled : MainPc → Bool
  | .post .sketch | .waitSend .sketch => true
  | pc => pc.calling

/-- What the main thread has written into a region's buffer by the time it is at a location. -/
def written (cfg : Config) : Region → MainPc → List UInt8
  | .start, pc => if pc = .greet then [] else cfg.contents .start
  | .cls, .copyObject j => (cfg.contents .cls).take j
  | .cls, .copyArray j => (cfg.contents .cls).take (RdmaTest.sizeOf + j)
  | .cls, pc => if pc.copied then cfg.contents .cls else []
  | .sketch, .fill i => sketchBytes i
  | .sketch, pc => if pc.filled then cfg.contents .sketch else []

/-- The loops stay within their bounds. -/
def Bounded (cfg : Config) : MainPc → Prop
  | .copyObject j => j ≤ RdmaTest.sizeOf
  | .copyArray j => j ≤ cfg.object.arrayBytes.length
  | .fill i => i ≤ cfg.dataSize.toInt.toNat
  | _ => True

/-- The regions in `kept` of a server whose memory was found with the contents `found`. -/
structure Regions (cfg : Config) (kept : Region → Prop) (found : Mem Buf) (s : Server) : Prop where
  bounded : Bounded cfg s.mainPc
  holds : ∀ k, kept k → s.nic.mem k.buf = store found k.buf 0 (written cfg k s.mainPc) k.buf

theorem Regions.of_fresh {cfg : Config} {kept : Region → Prop} {calls : List Call} {s : Server}
    (h : Fresh calls s) : Regions cfg kept s.nic.mem s where
  bounded := by
    rw [h.mainPc]
    trivial
  holds k _ := by
    funext x
    rw [h.mainPc]
    cases k <;> simp [written, store, MainPc.copied, MainPc.filled, MainPc.calling]

/-- The main thread writes to no region. -/
theorem Regions.keep {cfg : Config} {kept : Region → Prop} {found : Mem Buf} {s s' : Server}
    (inv : Regions cfg kept found s)
    (hmem : ∀ k : Region, kept k → s'.nic.mem k.buf = s.nic.mem k.buf)
    (hbound : Bounded cfg s'.mainPc)
    (hw : ∀ k, written cfg k s'.mainPc = written cfg k s.mainPc) : Regions cfg kept found s' where
  bounded := hbound
  holds k hk := by
    rw [hmem k hk, hw k]
    exact inv.holds k hk

theorem Regions.mainThread {cfg : Config} {kept : Region → Prop} {found : Mem Buf}
    {s s' : Server} (inv : Regions cfg kept found s) (h : s.mainThread cfg = some s') :
    Regions cfg kept found s' := by
  have hb := inv.bounded
  have hh := inv.holds
  cases hpc : s.mainPc with
  | greet =>
      simp only [Server.mainThread, hpc, start, Option.some.injEq] at h
      subst h
      rw [hpc] at hh
      refine ⟨trivial, ?_⟩
      intro k hk
      cases k with
      | start => exact store_grow _ (hh .start hk) rfl
      | cls => exact hh .cls hk
      | sketch => exact hh .sketch hk
  | fill i =>
      rw [hpc] at hh hb
      simp only [Server.mainThread, hpc, publish] at h
      split at h
      next hlt =>
        obtain rfl := Option.some.inj h
        refine ⟨?_, ?_⟩
        · change i + 1 ≤ cfg.dataSize.toInt.toNat
          omega
        · intro k hk
          cases k with
          | start => exact hh .start hk
          | cls => exact hh .cls hk
          | sketch =>
              change store s.nic.mem .sketchBuf (i * 4) (encodeLe 4 i) .sketchBuf =
                store found .sketchBuf 0 (sketchBytes (i + 1)) .sketchBuf
              rw [sketchBytes_succ]
              refine store_grow _ (hh .sketch hk) ?_
              rw [sketchBytes_length, Nat.mul_comm]
      next hge =>
        obtain rfl := Option.some.inj h
        have hi : i = cfg.dataSize.toInt.toNat := by
          change i ≤ cfg.dataSize.toInt.toNat at hb
          omega
        refine inv.keep (fun _ _ => rfl) trivial ?_
        rintro (_ | _ | _)
        · rw [hpc]; rfl
        · rw [hpc]; rfl
        · rw [hpc]
          change sketchBytes _ = sketchBytes i
          rw [hi]
  | copyObject j =>
      rw [hpc] at hh hb
      simp only [Server.mainThread, hpc, publish] at h
      split at h
      next hlt =>
        obtain rfl := Option.some.inj h
        refine ⟨?_, ?_⟩
        · change j + 1 ≤ RdmaTest.sizeOf
          rwa [RdmaTest.bytes_length] at hlt
        · intro k hk
          cases k with
          | start => exact hh .start hk
          | sketch => exact hh .sketch hk
          | cls =>
              change store s.nic.mem .classSendBuf j [cfg.object.bytes[j]] .classSendBuf =
                store found .classSendBuf 0 (cfg.object.published.take (j + 1)) .classSendBuf
              rw [RdmaTest.published_take_succ cfg.object (.inl ⟨hlt, rfl⟩)]
              refine store_grow _ (hh .cls hk) ?_
              simp [RdmaTest.published] at hlt ⊢
              omega
      next hge =>
        obtain rfl := Option.some.inj h
        rw [RdmaTest.bytes_length] at hge
        have hj : j = RdmaTest.sizeOf := by
          change j ≤ RdmaTest.sizeOf at hb
          omega
        refine inv.keep (fun _ _ => rfl) (Nat.zero_le _) ?_
        rintro (_ | _ | _)
        · rw [hpc]; rfl
        · rw [hpc, hj]; rfl
        · rw [hpc]; rfl
  | copyArray j =>
      rw [hpc] at hh hb
      simp only [Server.mainThread, hpc, publish] at h
      split at h
      next hlt =>
        obtain rfl := Option.some.inj h
        refine ⟨hlt, ?_⟩
        intro k hk
        cases k with
        | start => exact hh .start hk
        | sketch => exact hh .sketch hk
        | cls =>
            change store s.nic.mem .classSendBuf (RdmaTest.sizeOf + j)
                [cfg.object.arrayBytes[j]] .classSendBuf =
              store found .classSendBuf 0 (cfg.object.published.take (RdmaTest.sizeOf + (j + 1)))
                .classSendBuf
            rw [← Nat.add_assoc, RdmaTest.published_take_succ cfg.object (.inr ⟨j, hlt, rfl, rfl⟩)]
            refine store_grow _ (hh .cls hk) ?_
            simp [RdmaTest.published] at hlt ⊢
            omega
      next hge =>
        obtain rfl := Option.some.inj h
        refine inv.keep (fun _ _ => rfl) trivial ?_
        rintro (_ | _ | _)
        · rw [hpc]; rfl
        · rw [hpc]
          change cfg.object.published = cfg.object.published.take (RdmaTest.sizeOf + j)
          rw [List.take_of_length_le]
          simp [RdmaTest.published] at hge ⊢
          omega
        · rw [hpc]; rfl
  | next =>
      simp only [Server.mainThread, hpc, script] at h
      split at h
      · cases h
      next call rest _ =>
        obtain rfl := Option.some.inj h
        refine inv.keep (fun _ _ => rfl) ?_ ?_
        · cases call <;> trivial
        · rw [hpc]
          cases call <;> rintro (_ | _ | _) <;> rfl
  | post k =>
      obtain ⟨w, rfl | rfl⟩ := mainThread_post hpc h
      · exact inv.keep (fun _ _ => rfl) hb fun _ => rfl
      · refine inv.keep (fun _ _ => rfl) ?_ ?_
        · cases k <;> first | trivial | exact Nat.zero_le _
        · rw [hpc]
          cases k <;> rintro (_ | _ | _) <;> rfl
  | postRecv =>
      simp only [Server.mainThread, hpc, start, Option.some.injEq] at h
      subst h
      rcases postRecv_cases s _ with he | he <;> rw [he]
      · exact inv.keep (fun _ _ => rfl) hb fun _ => rfl
      · refine inv.keep (fun _ _ => rfl) trivial ?_
        rw [hpc]
        rintro (_ | _ | _) <;> rfl
  | readPost | writePost =>
      simp only [Server.mainThread, hpc, rdmaRead, rdmaWrite, Option.some.injEq] at h
      subst h
      rcases postSend_cases s _ _ with he | he <;> rw [he]
      · exact inv.keep (fun _ _ => rfl) hb fun _ => rfl
      · refine inv.keep (fun _ _ => rfl) trivial ?_
        rw [hpc]
        rintro (_ | _ | _) <;> rfl
  | sendBuf r | sendRkey r | sendSize r =>
      simp only [Server.mainThread, hpc, publish, Option.some.injEq] at h
      subst h
      refine inv.keep ?_ ?_ ?_
      · rintro (_ | _ | _) - <;> rfl
      · cases r <;> first | trivial | exact Nat.zero_le _
      · rw [hpc]
        cases r <;> rintro (_ | _ | _) <;> rfl
  | waitSend r =>
      simp only [Server.mainThread, hpc, publish, Option.ite_none_left_eq_some,
        Option.some.injEq] at h
      obtain ⟨-, rfl⟩ := h
      refine inv.keep (fun _ _ => rfl) ?_ ?_
      · cases r <;> trivial
      · rw [hpc]
        cases r <;> rintro (_ | _ | _) <;> rfl
  | _ =>
      simp only [Server.mainThread, hpc, start, rdmaRead, rdmaWrite] at h
      repeat' split at h
      all_goals try cases h
      all_goals refine inv.keep ?_ ?_ ?_
      all_goals first
        | exact trivial
        | exact hb
        | (intro k _; cases k <;> rfl)
        | (intro k; rfl)
        | (rw [hpc]; intro k; cases k <;> rfl)

/-- What the other threads and the adapter leave alone. -/
theorem step_region {cfg : Config} {kept : Region → Prop} {w : Records} {l : Label}
    {s s' : Server} (hsends : SendsInv cfg w s) (hrecvs : ∀ r ∈ s.nic.rq, r = w.recvReq cfg)
    (hl : l.Spares kept) (hmain : l ≠ .main) (h : s.step cfg l = some s') :
    s'.mainPc = s.mainPc ∧ ∀ k : Region, kept k → s'.nic.mem k.buf = s.nic.mem k.buf := by
  simp only [Server.step, Option.ite_none_left_eq_some] at h
  obtain ⟨-, h⟩ := h
  cases l with
  | main => exact absurd rfl hmain
  | cq =>
      obtain ⟨-, hmem, -⟩ := cqThread_frame h
      exact ⟨(cqThread_drain h).1, fun k _ => by rw [hmem]⟩
  | cm =>
      obtain ⟨es, pc, st, id, rs, rfl⟩ := cmThread_cases h
      exact ⟨rfl, fun _ _ => rfl⟩
  | cmEvent e =>
      obtain rfl := Option.some.inj h
      exact ⟨rfl, fun _ _ => rfl⟩
  | nic l =>
      obtain ⟨n, hn, rfl⟩ := Option.map_eq_some_iff.mp h
      refine ⟨rfl, fun k hk => ?_⟩
      apply (Nic.step_cases hn).mem_eq
      · intro e he hop g hg
        rw [hsends.places e he hop g hg]
        cases k <;> rintro ⟨⟩
      · intro r hr g hg
        rw [hrecvs r hr] at hg
        obtain rfl := List.mem_singleton.mp hg
        cases k <;> rintro ⟨⟩
      · rintro off bs rfl
        exact hl k hk rfl

theorem Regions.step {cfg : Config} {kept : Region → Prop} {w : Records} {found : Mem Buf}
    {l : Label} {s s' : Server} (inv : Regions cfg kept found s) (hsends : SendsInv cfg w s)
    (hrecvs : ∀ r ∈ s.nic.rq, r = w.recvReq cfg) (hl : l.Spares kept)
    (h : s.step cfg l = some s') : Regions cfg kept found s' := by
  cases l with
  | main =>
      simp only [Server.step, Option.ite_none_left_eq_some] at h
      exact inv.mainThread h.2
  | cq | cm | cmEvent | nic =>
      obtain ⟨hpc, hmem⟩ := step_region hsends hrecvs hl (by simp) h
      refine inv.keep hmem ?_ fun k => by rw [hpc]
      rw [hpc]
      exact inv.bounded

theorem reach_regions {cfg : Config} {kept : Region → Prop} {ok : Server → Label → Prop}
    {calls : List Call} {s₀ s : Server} (h₀ : Fresh calls s₀) (hok : ∀ s l, ok s l → l.Spares kept)
    (run : Reach (Server.step cfg) ok (· = s₀) s) : Regions cfg kept s₀.nic.mem s := by
  refine run.invariant_of (P := Regions cfg kept s₀.nic.mem)
    (fun s run => And.intro (reach_sends h₀ run) (reach_receives h₀ run).rq) ?_ ?_
  · rintro _ rfl
    exact .of_fresh h₀
  · rintro s l s' ⟨hsends, hrecvs⟩ - inv hl h
    exact inv.step hsends hrecvs (hok s l hl) h

/-- A region's final contents are in its buffer. -/
def MainPc.complete : Region → MainPc → Bool
  | .start, pc => pc != .greet
  | .cls, pc => pc.copied
  | .sketch, pc => pc.filled

theorem written_complete {cfg : Config} {k : Region} {pc : MainPc} (h : pc.complete k = true) :
    written cfg k pc = cfg.contents k := by
  cases k with
  | start =>
      have hpc : pc ≠ .greet := by simpa [MainPc.complete] using h
      simp [written, hpc]
  | cls => cases pc <;> simp_all [written, MainPc.complete, MainPc.copied, MainPc.calling]
  | sketch => cases pc <;> simp_all [written, MainPc.complete, MainPc.filled, MainPc.calling]

/-- Once complete, a region holds its final contents over what its buffer was found with. -/
theorem Regions.complete {cfg : Config} {kept : Region → Prop} {found : Mem Buf} {s : Server}
    (inv : Regions cfg kept found s) {k : Region} (hk : kept k)
    (h : s.mainPc.complete k = true) : s.nic.mem k.buf = cfg.publishedIn found k := by
  rw [inv.holds k hk, written_complete h]
  rfl

end Server

end HyperRdma
