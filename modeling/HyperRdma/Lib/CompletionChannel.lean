import Mathlib.Data.List.Basic
import Mathlib.Logic.Function.Iterate
import Mathlib.Tactic.Common

/-!
# A completion queue with an event channel, and its draining thread

A completion that arrives at an armed queue queues one event and disarms the
queue; at an unarmed queue it queues none. The draining thread takes an event,
arms the queue again, polls one completion at a time until the queue is empty
and acknowledges the event. `Drain.Inv` says that no wakeup is lost, whatever
the handling of a completion does.
-/

namespace HyperRdma.CompletionChannel

variable {α η : Type*}

/-- The queue, its armed flag and the number of events queued on the channel.
`arrived` is the history of the completions. -/
structure Channel (α : Type*) where
  cq : List α
  armed : Bool
  events : Nat
  arrived : List α

/-- A channel nothing has happened on. -/
def Channel.fresh : Channel α := ⟨[], false, 0, []⟩

/-- A completion enters the queue. -/
def Channel.arrive (ch : Channel α) (x : α) : Channel α where
  cq := ch.cq ++ [x]
  armed := false
  events := if ch.armed then ch.events + 1 else ch.events
  arrived := ch.arrived ++ [x]

/-- Request an event for the next completion. -/
def Channel.reqNotify (ch : Channel α) : Channel α := { ch with armed := true }

/-- Location of the draining thread: outside its loop body, at the switch on a
polled completion, or inside the handler of one at a location of type `η`. -/
inductive Loc (α η : Type*)
  | off
  | getEvent
  | reqNotify
  | poll
  | switch (x : α)
  | handler (h : η)
  | ack
  deriving DecidableEq

/-- The completions polled but not yet dispatched. -/
def Loc.held : Loc α η → List α
  | .switch x => [x]
  | _ => []

/-- The thread together with its channel; `dispatched` is the history of the switches taken. -/
structure Drain (α η : Type*) where
  ch : Channel α
  loc : Loc α η
  dispatched : List α

namespace Drain

/-- The thread is created and enters its loop. -/
def launch (d : Drain α η) : Drain α η := { d with loc := .getEvent }

/-- A completion arrives while the thread stays where it is. -/
def arrive (d : Drain α η) (x : α) : Drain α η := { d with ch := d.ch.arrive x }

/-- The steps of the loop itself; a switch or a handler is not one of them. -/
def control (d : Drain α η) : Option (Drain α η) :=
  match d.loc with
  | .getEvent =>
      if d.ch.events = 0 then none
      else some { d with ch := { d.ch with events := d.ch.events - 1 }, loc := .reqNotify }
  | .reqNotify => some { d with ch := d.ch.reqNotify, loc := .poll }
  | .poll =>
      match d.ch.cq with
      | [] => some { d with loc := .ack }
      | x :: xs => some { d with ch := { d.ch with cq := xs }, loc := .switch x }
  | .ack => some { d with loc := .getEvent }
  | _ => none

/-- Where the thread goes on: into a handler, or back to the poll. -/
def resume : Option η → Loc α η
  | none => .poll
  | some h => .handler h

/-- The switch on the completion in hand, with the handler location it leads to. -/
def dispatch (d : Drain α η) (x : α) (h : Option η) : Drain α η :=
  { d with loc := resume h, dispatched := d.dispatched ++ [x] }

/-- A step inside a handler. -/
def advance (d : Drain α η) (h : Option η) : Drain α η := { d with loc := resume h }

/-- An event is queued, or the queue is armed and empty. -/
def Quiet (ch : Channel α) : Prop := 0 < ch.events ∨ (ch.armed = true ∧ ch.cq = [])

/-- An event is queued, or the queue is armed. -/
def Watched (ch : Channel α) : Prop := 0 < ch.events ∨ ch.armed = true

/-- What the channel guarantees at each location of the thread. -/
def LocInv (ch : Channel α) : Loc α η → Prop
  | .off | .getEvent | .ack => Quiet ch
  | .reqNotify => True
  | .poll | .switch _ | .handler _ => Watched ch

/-- Completions are conserved in order, and no wakeup is lost. -/
structure Inv (d : Drain α η) : Prop where
  conserved : d.ch.arrived = d.dispatched ++ d.loc.held ++ d.ch.cq
  watched : LocInv d.ch d.loc

theorem Quiet.watched {ch : Channel α} (h : Quiet ch) : Watched ch :=
  h.imp id And.left

/-- After an arrival an event is queued wherever the queue was watched. -/
theorem Watched.arrive {ch : Channel α} (h : Watched ch) (x : α) : 0 < (ch.arrive x).events := by
  rcases h with h | h
  · simp only [Channel.arrive]
    split <;> omega
  · simp [Channel.arrive, h]

theorem LocInv.arrive {ch : Channel α} {loc : Loc α η} (h : LocInv ch loc) (x : α) :
    LocInv (ch.arrive x) loc := by
  cases loc with
  | reqNotify => trivial
  | off | getEvent | ack => exact .inl (Watched.arrive (Quiet.watched h) x)
  | poll | switch _ | handler _ => exact .inl (Watched.arrive h x)

theorem Inv.arrive {d : Drain α η} (h : d.Inv) (x : α) : (d.arrive x).Inv where
  conserved := by simp [Drain.arrive, Channel.arrive, h.conserved]
  watched := LocInv.arrive h.watched x

theorem Inv.launch {d : Drain α η} (h : d.Inv) (hoff : d.loc = .off) : d.launch.Inv where
  conserved := by simpa [Drain.launch, hoff, Loc.held] using h.conserved
  watched := by simpa [Drain.launch, hoff, LocInv] using h.watched

theorem Inv.dispatch {d : Drain α η} (h : d.Inv) {x : α} (hloc : d.loc = .switch x)
    (next : Option η) : (d.dispatch x next).Inv where
  conserved := by
    have hc := h.conserved
    cases next <;> simpa [Drain.dispatch, resume, hloc, Loc.held] using hc
  watched := by
    have hw := h.watched
    rw [hloc] at hw
    cases next <;> simpa [Drain.dispatch, resume, LocInv] using hw

theorem Inv.advance {d : Drain α η} (h : d.Inv) {k : η} (hloc : d.loc = .handler k)
    (next : Option η) : (d.advance next).Inv where
  conserved := by
    have hc := h.conserved
    cases next <;> simpa [Drain.advance, resume, hloc, Loc.held] using hc
  watched := by
    have hw := h.watched
    rw [hloc] at hw
    cases next <;> simpa [Drain.advance, resume, LocInv] using hw

/-- Every step of the loop keeps the invariant. Arming before the drain is what
makes the empty poll leave an armed queue behind, or a queued event. -/
theorem Inv.control {d d' : Drain α η} (h : d.Inv) (hs : d.control = some d') : d'.Inv := by
  obtain ⟨hc, hw⟩ := h
  unfold Drain.control at hs
  cases hloc : d.loc with
  | off | switch x | handler k => simp [hloc] at hs
  | getEvent =>
      simp only [hloc] at hs
      split at hs
      · simp at hs
      · obtain rfl := Option.some.inj hs
        exact ⟨by simpa [hloc, Loc.held] using hc, trivial⟩
  | reqNotify =>
      simp only [hloc, Option.some.injEq] at hs
      subst hs
      exact ⟨by simpa [hloc, Loc.held, Channel.reqNotify] using hc, .inr rfl⟩
  | ack =>
      simp only [hloc, Option.some.injEq] at hs
      subst hs
      rw [hloc] at hw
      exact ⟨by simpa [hloc, Loc.held] using hc, hw⟩
  | poll =>
      simp only [hloc] at hs hw
      cases hq : d.ch.cq with
      | nil =>
          simp only [hq, Option.some.injEq] at hs
          subst hs
          exact ⟨by simpa [hloc, Loc.held, hq] using hc, hw.imp id fun ha => ⟨ha, hq⟩⟩
      | cons x xs =>
          simp only [hq, Option.some.injEq] at hs
          subst hs
          exact ⟨by simpa [hloc, Loc.held, hq] using hc, hw⟩

/-- The loop's own steps let nothing arrive. -/
theorem control_arrived {d d' : Drain α η} (h : d.control = some d') :
    d'.ch.arrived = d.ch.arrived := by
  unfold Drain.control at h
  repeat' split at h
  all_goals first
    | (obtain rfl := Option.some.inj h; rfl)
    | cases h

/-- The loop's own steps keep the completions polled or queued, and stay out of handlers. -/
theorem control_pending {d d' : Drain α η} (h : d.control = some d') :
    d'.loc.held ++ d'.ch.cq = d.loc.held ++ d.ch.cq ∧ (∀ k, d.loc ≠ .handler k) := by
  unfold Drain.control at h
  cases hloc : d.loc with
  | off | switch x | handler k => simp [hloc] at h
  | getEvent =>
      simp only [hloc, Option.ite_none_left_eq_some, Option.some.injEq] at h
      obtain ⟨-, rfl⟩ := h
      exact ⟨rfl, (by simp)⟩
  | reqNotify | ack =>
      simp only [hloc, Option.some.injEq] at h
      subst h
      exact ⟨rfl, (by simp)⟩
  | poll =>
      simp only [hloc] at h
      cases hq : d.ch.cq with
      | nil =>
          simp only [hq, Option.some.injEq] at h
          subst h
          exact ⟨hq, (by simp)⟩
      | cons x xs =>
          simp only [hq, Option.some.injEq] at h
          subst h
          exact ⟨rfl, (by simp)⟩

theorem control_dispatched {d d' : Drain α η} (h : d.control = some d') :
    d'.dispatched = d.dispatched := by
  unfold Drain.control at h
  repeat' split at h
  all_goals first
    | (obtain rfl := Option.some.inj h; rfl)
    | cases h

/-- The loop's own steps do not enter a handler. -/
theorem control_loc {d d' : Drain α η} (h : d.control = some d') (k : η) :
    d'.loc ≠ .handler k := by
  unfold Drain.control at h
  repeat' split at h
  all_goals first
    | (obtain rfl := Option.some.inj h; simp)
    | cases h

/-- A thread blocked for an event that is not queued has dispatched every arrival,
in order, and will be woken by the next one. -/
theorem Inv.blocked {d : Drain α η} (h : d.Inv) (hloc : d.loc = .getEvent)
    (hev : d.ch.events = 0) :
    d.ch.cq = [] ∧ d.ch.armed = true ∧ d.dispatched = d.ch.arrived := by
  have hw := h.watched
  rw [hloc] at hw
  have hq : d.ch.armed = true ∧ d.ch.cq = [] := hw.resolve_left (by omega)
  refine ⟨hq.2, hq.1, ?_⟩
  simpa [hloc, Loc.held, hq.2] using h.conserved.symm

/-- Nothing is lost, repeated or made up: the arrivals are those dispatched, the one in hand
and those queued, in order; and a blocked thread has an empty, armed queue. -/
structure Lossless (d : Drain α η) : Prop where
  ordered : d.ch.arrived = d.dispatched ++ d.loc.held ++ d.ch.cq
  blocked : d.loc = .getEvent → d.ch.events = 0 → d.ch.cq = [] ∧ d.ch.armed = true

theorem Inv.lossless {d : Drain α η} (h : d.Inv) : d.Lossless where
  ordered := h.conserved
  blocked hloc hev := ⟨(h.blocked hloc hev).1, (h.blocked hloc hev).2.1⟩

/-- The steps a draining thread's location allows. `hr` ranks the handler locations below
`bound`; a handler moves to locations of lower rank until it is left. -/
inductive Step (hr : η → Nat) (bound : Nat) (d : Drain α η) : Drain α η → Prop
  | control {d'} (h : d.control = some d') : Step hr bound d d'
  | dispatch {x} (next : Option η) (h : d.loc = .switch x) (hb : ∀ k ∈ next, hr k < bound) :
      Step hr bound d (d.dispatch x next)
  | advance {k} (next : Option η) (h : d.loc = .handler k) (hb : ∀ k' ∈ next, hr k' < hr k) :
      Step hr bound d (d.advance next)

theorem Step.inv {hr : η → Nat} {bound : Nat} {d d' : Drain α η} (h : Step hr bound d d')
    (inv : d.Inv) : d'.Inv := by
  cases h with
  | control h => exact inv.control h
  | dispatch next h _ => exact inv.dispatch h next
  | advance next h _ => exact inv.advance h next

/-- Only the switch adds to the history, and only the completion in hand. -/
theorem Step.dispatched {hr : η → Nat} {bound : Nat} {d d' : Drain α η}
    (h : Step hr bound d d') : d'.dispatched = d.dispatched ∨
      ∃ x, d.loc = .switch x ∧ d'.dispatched = d.dispatched ++ [x] := by
  cases h with
  | control h => exact .inl (control_dispatched h)
  | dispatch next h _ => exact .inr ⟨_, h, rfl⟩
  | advance next h _ => exact .inl rfl

/-- How far a location is from the next wait for an event. -/
def locRank (hr : η → Nat) (bound : Nat) : Loc α η → Nat
  | .off | .getEvent => 0
  | .ack => 1
  | .poll => 2
  | .reqNotify => 3
  | .handler k => 3 + hr k
  | .switch _ => 3 + bound

/-- The steps a thread can take before it blocks, as long as nothing arrives. -/
def rank (hr : η → Nat) (bound : Nat) (d : Drain α η) : Nat :=
  4 * d.ch.events + (bound + 5) * d.ch.cq.length + locRank hr bound d.loc

/-- An arrival costs the thread a wakeup and one round of its loop. -/
theorem rank_arrive_le (hr : η → Nat) (bound : Nat) (d : Drain α η) (x : α) :
    (d.arrive x).rank hr bound ≤ d.rank hr bound + (bound + 9) := by
  simp only [rank, arrive, Channel.arrive, List.length_append, List.length_singleton, Nat.mul_add]
  split <;> omega

theorem locRank_resume_lt {hr : η → Nat} {bound n : Nat} {next : Option η} (hn : 2 < n)
    (hb : ∀ k ∈ next, 3 + hr k < n) : locRank hr bound (resume next : Loc α η) < n := by
  cases next with
  | none => exact hn
  | some k => exact hb k rfl

/-- The thread's own steps lower its rank and bring in no completion. -/
theorem Step.rank_lt {hr : η → Nat} {bound : Nat} {d d' : Drain α η} (h : Step hr bound d d') :
    d'.rank hr bound < d.rank hr bound ∧ d'.ch.arrived = d.ch.arrived := by
  cases h with
  | control h =>
      unfold Drain.control at h
      cases hloc : d.loc with
      | off | switch x | handler k => simp [hloc] at h
      | getEvent =>
          simp only [hloc, Option.ite_none_left_eq_some, Option.some.injEq] at h
          obtain ⟨hev, rfl⟩ := h
          refine ⟨?_, rfl⟩
          simp only [rank, locRank, hloc]
          omega
      | reqNotify | ack =>
          simp only [hloc, Option.some.injEq] at h
          subst h
          simp [rank, locRank, hloc, Channel.reqNotify]
      | poll =>
          simp only [hloc] at h
          cases hq : d.ch.cq with
          | nil =>
              simp only [hq, Option.some.injEq] at h
              subst h
              simp [rank, locRank, hloc]
          | cons x xs =>
              simp only [hq, Option.some.injEq] at h
              subst h
              refine ⟨?_, rfl⟩
              simp only [rank, locRank, hloc, hq, List.length_cons, Nat.mul_add]
              omega
  | dispatch next h hb =>
      have h2 : 2 < locRank hr bound d.loc := by
        rw [h]
        exact Nat.lt_add_right bound (by omega)
      have hlt : locRank hr bound (resume next : Loc α η) < locRank hr bound d.loc := by
        refine locRank_resume_lt h2 fun k hk => ?_
        rw [h]
        exact Nat.add_lt_add_left (hb k hk) 3
      refine ⟨?_, rfl⟩
      simpa only [rank, Drain.dispatch] using Nat.add_lt_add_left hlt _
  | advance next h hb =>
      have h2 : 2 < locRank hr bound d.loc := by
        rw [h]
        exact Nat.lt_add_right _ (by omega)
      have hlt : locRank hr bound (resume next : Loc α η) < locRank hr bound d.loc := by
        refine locRank_resume_lt h2 fun k' hk => ?_
        rw [h]
        exact Nat.add_lt_add_left (hb k' hk) 3
      refine ⟨?_, rfl⟩
      simpa only [rank, Drain.advance] using Nat.add_lt_add_left hlt _

/-- A draining thread has a step unless it has not been created or waits for an event. -/
theorem control_isSome {d : Drain α η} (hoff : d.loc ≠ .off)
    (hev : ¬(d.loc = .getEvent ∧ d.ch.events = 0)) :
    (∃ x, d.loc = .switch x) ∨ (∃ k, d.loc = .handler k) ∨ d.control.isSome := by
  unfold Drain.control
  cases hloc : d.loc with
  | off => exact absurd hloc hoff
  | switch x => exact .inl ⟨x, rfl⟩
  | handler k => exact .inr (.inl ⟨k, rfl⟩)
  | getEvent => simp_all
  | reqNotify | ack => simp
  | poll => cases d.ch.cq <;> simp

theorem Step.ne_off {hr : η → Nat} {bound : Nat} {d d' : Drain α η} (h : Step hr bound d d') :
    d'.loc ≠ .off := by
  cases h with
  | dispatch next _ _ | advance next _ _ =>
      cases next <;> simp [Drain.dispatch, Drain.advance, resume]
  | control h =>
      unfold Drain.control at h
      repeat' split at h
      all_goals first
        | (obtain rfl := Option.some.inj h; simp)
        | cases h

/-- A program that embeds a draining thread, steps it by `f` and lets it step wherever it
is not blocked, brings it to its wait in finitely many steps of `f` alone, or ends. By then
every completion that had arrived has been dispatched. -/
theorem drains {σ : Type*} (hr : η → Nat) (bound : Nat) {f : σ → Option σ}
    (drain : σ → Drain α η) (dead : σ → Prop)
    (hstep : ∀ s s', f s = some s' → Step hr bound (drain s) (drain s'))
    (hlive : ∀ s, ¬dead s → (drain s).loc ≠ .off →
      ¬((drain s).loc = .getEvent ∧ (drain s).ch.events = 0) → (f s).isSome)
    (s : σ) (inv : (drain s).Inv) (hoff : (drain s).loc ≠ .off) :
    ∃ n s', (fun o => o.bind f)^[n] (some s) = some s' ∧
      (dead s' ∨ ((drain s').loc = .getEvent ∧ (drain s').ch.events = 0 ∧
        (drain s').dispatched = (drain s).ch.arrived)) := by
  induction hk : (drain s).rank hr bound using Nat.strongRecOn generalizing s with
  | ind k ih =>
      by_cases hdead : dead s
      · exact ⟨0, s, rfl, .inl hdead⟩
      by_cases hev : (drain s).loc = .getEvent ∧ (drain s).ch.events = 0
      · exact ⟨0, s, rfl, .inr ⟨hev.1, hev.2, (inv.blocked hev.1 hev.2).2.2⟩⟩
      obtain ⟨t, ht⟩ := Option.isSome_iff_exists.mp (hlive s hdead hoff hev)
      have hst := hstep s t ht
      obtain ⟨hlt, harr⟩ := hst.rank_lt
      obtain ⟨n, u, hu, hend⟩ := ih _ (hk ▸ hlt) t (hst.inv inv) hst.ne_off rfl
      refine ⟨n + 1, u, ?_, harr ▸ hend⟩
      simpa only [Function.iterate_succ_apply, Option.bind_some, ht] using hu

end Drain

end HyperRdma.CompletionChannel
