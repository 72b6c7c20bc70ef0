import HyperRdma.System

/-!
# Chains of one

`ibv_post_send` and `ibv_post_recv` take a list of work requests and follow
`next` to its end. No statement sets `next` in a member record of either class,
so a post hands over one request, as `Nic.postSend` and `Nic.postRecv` have it,
where the object was found with null pointers.
-/

namespace HyperRdma

open ByteOrder Memory CompletionChannel Transition

/-- Every request handed over is a chain of one. -/
structure Nic.Unchained (n : Nic) : Prop where
  posts : ∀ r ∈ n.posts, r.next = 0
  recvPosts : ∀ r ∈ n.recvPosts, r.next = 0

namespace Client

/-- The five work requests of a client were found with null `next` pointers. -/
structure Unlinked (w : Records) : Prop where
  rqWr : w.rqWr.next = 0
  sqWr : w.sqWr.next = 0
  rdmaSqWr : w.rdmaSqWr.next = 0
  testClassWr : w.testClassWr.next = 0
  sketchWr : w.sketchWr.next = 0

theorem Request.next_eq {cfg : Config} {w : Records} {r : SendReq} (hr : Request cfg w r)
    (hw : Unlinked w) : r.next = 0 := by
  cases hr with
  | hello => exact hw.sqWr
  | read | write => exact hw.rdmaSqWr
  | cls => exact hw.testClassWr
  | sketch => exact hw.sketchWr

theorem reach_unchained {cfg : Config} {ok : Client → Label → Prop} {calls : List Call}
    {c₀ c : Client} (h₀ : Fresh calls c₀) (hw : Unlinked c₀.wrs)
    (run : Reach (Client.step cfg) ok (· = c₀) c) : c.nic.Unchained where
  posts r hr := ((reach_sends h₀ run).requests r hr).next_eq hw
  recvPosts r hr := by
    rw [(reach_receives h₀ run).recvPosts r hr]
    exact hw.rqWr

end Client

namespace Server

/-- The three member records which a server posts were found with null `next` pointers; the
other two requests it posts are local and cleared. -/
structure Unlinked (w : Records) : Prop where
  rqWr : w.rqWr.next = 0
  sqWr : w.sqWr.next = 0
  rdmaSqWr : w.rdmaSqWr.next = 0

theorem Request.next_eq {cfg : Config} {w : Records} {r : SendReq} (hr : Request cfg w r)
    (hw : Unlinked w) : r.next = 0 := by
  cases hr with
  | publish k =>
      cases k with
      | start => exact hw.sqWr
      | cls | sketch => rfl
  | read | write => exact hw.rdmaSqWr

theorem reach_unchained {cfg : Config} {ok : Server → Label → Prop} {calls : List Call}
    {s₀ s : Server} (h₀ : Fresh calls s₀) (hw : Unlinked s₀.wrs)
    (run : Reach (Server.step cfg) ok (· = s₀) s) : s.nic.Unchained where
  posts r hr := ((reach_sends h₀ run).requests r hr).next_eq hw
  recvPosts r hr := by
    rw [(reach_receives h₀ run).recvPosts r hr]
    exact hw.rqWr

end Server

namespace System

/-- Two objects just constructed whose work requests were found with null `next` pointers. -/
structure Clean (ccalls : List Client.Call) (scalls : List Server.Call) (t : System) : Prop
    extends Fresh ccalls scalls t where
  cliUnlinked : Client.Unlinked t.cli.wrs
  srvUnlinked : Server.Unlinked t.srv.wrs

theorem clean_zeroed (ccalls : List Client.Call) (scalls : List Server.Call) :
    Clean ccalls scalls (zeroed ccalls scalls) where
  toFresh := fresh_zeroed ccalls scalls
  cliUnlinked := by constructor <;> rfl
  srvUnlinked := by constructor <;> rfl

/-- Every post of either side has handed over one request. -/
structure Unchained (t : System) : Prop where
  cli : t.cli.nic.Unchained
  srv : t.srv.nic.Unchained

theorem reach_unchained {ccfg scfg : Config} {ok : System → Move → Prop}
    {ccalls : List Client.Call} {scalls : List Server.Call} {t₀ t : System}
    (h₀ : Clean ccalls scalls t₀) (run : Reach (step ccfg scfg) ok (· = t₀) t) :
    t.Unchained where
  cli := Client.reach_unchained h₀.cli h₀.cliUnlinked (reach_cli run)
  srv := Server.reach_unchained h₀.srv h₀.srvUnlinked (reach_srv run)

end System

end HyperRdma
