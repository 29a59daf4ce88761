import FlowBrake.Windows.DelayQueue.Least
import FlowBrake.Windows.Engine.Held

/-! How long a packet may have to wait, whatever else its flow has in the queue. -/
namespace FlowBrake.Windows
open FlowBrake.Core Transition KeyOrder

/-- What was decided about the packets put into the queue, by their sequence numbers, and when the
queue was last released. -/
structure Log where
  receivedAt : ℕ → Instant := fun _ => 0
  delayMs : ℕ → UInt32 := fun _ => 0
  /-- Whether a release selected the packet. -/
  released : ℕ → Bool := fun _ => false
  lastRelease : Instant := 0
  /-- The time at which the last of them was received. -/
  latest : Instant := 0

namespace Log

/-- The next sequence number goes to this packet, if it is put into the queue. -/
def arrival (log : Log) (s : State) (a : Admission) : Log :=
  { log with
    receivedAt := Function.update log.receivedAt s.queue.nextSequence a.receivedAt
    delayMs := Function.update log.delayMs s.queue.nextSequence
      (s.policy.effectiveDelayMs a.pid a.direction a.isLoopback)
    released := Function.update log.released s.queue.nextSequence false
    latest := a.receivedAt }

def release (log : Log) (s : State) (predicate : PendingPacket → Bool) : Log :=
  { log with
    released := fun sequence => log.released sequence ||
      s.queue.heap.entries.any fun entry => entry.sequence = sequence && predicate entry.packet
    lastRelease := s.now }

/-- The log after an operation that begins in `s`. -/
def record (log : Log) (s : State) : Op → Log
  | .dispatch a _ => log.arrival s a
  | .releaseAll => log.release s fun _ => true
  | .releaseRevised => log.release s s.policy.releases
  | _ => log

end Log

/-- The engine with the log of its queue. -/
structure Logged where
  state : State := {}
  log : Log := {}

namespace Logged

def step (x : Logged) (label : Label) : Option Logged :=
  (x.state.step label).map fun state => {
    state
    log := match label with
      | .call .startWithIo => {}
      | .run t _ => ((x.state.ops t).head?.map (x.log.record x.state)).getD x.log
      | _ => x.log }

def Reachable : Logged → Prop :=
  Transition.Reachable (fun x label x' => x.step label = some x') (· = {})

theorem step_eq_some {x x' : Logged} {label : Label} (h : x.step label = some x') :
    x.state.step label = some x'.state := by
  obtain ⟨state, hstate, rfl⟩ := Option.map_eq_some_iff.mp h
  exact hstate

theorem Reachable.state {x : Logged} (h : x.Reachable) : x.state.Reachable :=
  Transition.Reachable.map (g := Logged.state) (by rintro _ rfl; rfl)
    (fun _ _ _ => step_eq_some) h

/-- Every run of the engine is one with a log. -/
theorem exists_of_reachable {s : State} (h : s.Reachable) : ∃ log, Reachable ⟨s, log⟩ := by
  obtain ⟨x, hx, rfl⟩ : ∃ x : Logged, x.Reachable ∧ x.state = s := by
    refine Transition.Reachable.exists_of_map ?_ (fun x label s' hstep => ?_) h
    · rintro _ rfl
      exact ⟨{}, rfl, rfl⟩
    · exact ⟨_, congrArg (Option.map _) hstep, rfl⟩
  exact ⟨x.log, hx⟩

theorem Reachable.of_follow {x : Logged} {labels : List Label}
    (h : labels.foldlM step {} = some x) : x.Reachable :=
  ⟨{}, labels, rfl, .of_foldlM h⟩

end Logged

theorem Op.eq_receiver_of_receivedAt {t : Tid} {op : Op} (h : op.allowed t) {r : Instant}
    (hr : r ∈ op.receivedAt) : t = .receiver := by
  cases op
  case check c => cases c <;> simp_all [Op.allowed, Op.receivedAt]
  all_goals simp_all [Op.allowed, Op.receivedAt]

namespace State

theorem Reachable.flightTails {s : State} (h : s.Reachable) : s.queue.FlightTails := by
  refine h.queue_invariant (P := fun queue _ => queue.FlightTails) ?_ (fun _ _ _ _ hs => hs) ?_
  · intro now flow state hs
    cases hs
  intro s op queue hr hs hstep
  cases hstep with
  | keep => exact hs
  | enqueue a delayMs | exhaust a delayMs => exact hs.charge a.pending _
  | pop entry heap state => exact hs.popped entry heap state
  | finish packet queue hq => exact hs.finish hq
  | releaseAll queue hq | releaseRevised queue hq =>
    exact hs.of_counts (DelayQueue.released_of_releaseMatching hr.queueOk.consistent
      hr.queueOk.ordered hs hq).counts_eq
  | discard =>
    intro flow state hs
    cases hs

end State

/-- The longest delay that a rule may ask for. -/
def maxDelay : Instant := maxDelayMs.toNat * 1000000

theorem Policy.effectiveDelayMs_le (policy : Policy) (pid : Option UInt32) (direction : Direction)
    (isLoopback : Bool) :
    (policy.effectiveDelayMs pid direction isLoopback).toNat * 1000000 ≤ maxDelay := by
  have hle : policy.effectiveDelayMs pid direction isLoopback ≤ maxDelayMs := by
    unfold effectiveDelayMs
    split
    · decide
    · change (if _ then _ else _) ≤ maxDelayMs
      split
      · assumption
      · exact UInt32.le_refl _
  exact Nat.mul_le_mul_right _ (UInt32.le_iff_toNat_le.mp hle)

namespace Log

/-- No deadline is later than that of the last packet admitted with the longest delay, and than the
last release. -/
def bound (log : Log) : Instant := max (log.latest + maxDelay) log.lastRelease

/-- What the log says about the deadlines in the queue. -/
structure Timely (log : Log) (queue : DelayQueue) (now : Instant) (draining : Bool) : Prop where
  latest_le : log.latest ≤ now
  lastRelease_le : log.lastRelease ≤ now
  due : queue.Due log.bound
  latency : ∀ entry ∈ queue.heap.entries,
    entry.deadline ≤ max (log.receivedAt entry.sequence + maxDelay) log.lastRelease
  delayed : ∀ entry ∈ queue.heap.entries, log.released entry.sequence = false → draining = true ∨
    log.receivedAt entry.sequence + (log.delayMs entry.sequence).toNat * 1000000 ≤ entry.deadline

namespace Timely

variable {log : Log} {queue queue' : DelayQueue} {now now' : Instant} {draining draining' : Bool}

theorem empty (h₁ : log.latest ≤ now) (h₂ : log.lastRelease ≤ now) :
    log.Timely {} now draining where
  latest_le := h₁
  lastRelease_le := h₂
  due := {
    entries := fun entry hm => by cases hm
    tails := fun flow state hs => by cases hs }
  latency entry hm := by cases hm
  delayed entry hm := by cases hm

theorem mono (h : log.Timely queue now draining) (hnow : now ≤ now')
    (hdraining : draining = true → draining' = true) : log.Timely queue now' draining' where
  latest_le := h.latest_le.trans hnow
  lastRelease_le := h.lastRelease_le.trans hnow
  due := h.due
  latency := h.latency
  delayed entry hm hr := (h.delayed entry hm hr).imp hdraining id

/-- A queue with fewer entries and nothing later. -/
theorem of_subset (h : log.Timely queue now draining)
    (hsub : ∀ entry ∈ queue'.heap.entries, entry ∈ queue.heap.entries)
    (hdue : queue'.Due log.bound) : log.Timely queue' now draining where
  latest_le := h.latest_le
  lastRelease_le := h.lastRelease_le
  due := hdue
  latency entry hm := h.latency entry (hsub entry hm)
  delayed entry hm := h.delayed entry (hsub entry hm)

variable {s : State} {a : Admission}

/-- The packets in the queue keep their places in the log. -/
theorem arrival (h : log.Timely s.queue now draining) (ho : s.queue.Ordered)
    (hlatest : log.latest ≤ a.receivedAt) (hnow : a.receivedAt ≤ now) :
    (log.arrival s a).Timely s.queue now draining := by
  have hne : ∀ entry ∈ s.queue.heap.entries, entry.sequence ≠ s.queue.nextSequence :=
    fun entry hm => (ho.fresh entry hm).ne
  refine ⟨hnow, h.lastRelease_le, h.due.mono ?_, fun entry hm => ?_, fun entry hm hr => ?_⟩
  · exact max_le_max_right _ (Nat.add_le_add_right hlatest _)
  · simp only [Log.arrival, Function.update_of_ne (hne entry hm)]
    exact h.latency entry hm
  · simp only [Log.arrival, Function.update_of_ne (hne entry hm)] at hr ⊢
    exact h.delayed entry hm hr

theorem requestedDeadline_le (log : Log) {delayMs : UInt32}
    (hdelay : delayMs = s.policy.effectiveDelayMs a.pid a.direction a.isLoopback) :
    s.requestedDeadline a delayMs ≤ (log.arrival s a).bound := by
  have hmax := s.policy.effectiveDelayMs_le a.pid a.direction a.isLoopback
  rw [← hdelay] at hmax
  refine le_max_of_le_left ?_
  unfold State.requestedDeadline
  split
  · exact Nat.le_add_right _ _
  · exact Nat.add_le_add_left hmax _

/-- A packet put into the queue is late only if its flow's tail is. -/
theorem admitted (h : log.Timely s.queue now s.status.draining) (ho : s.queue.Ordered)
    (hlatest : log.latest ≤ a.receivedAt) (hnow : a.receivedAt ≤ now) {delayMs : UInt32}
    (hdelay : delayMs = s.policy.effectiveDelayMs a.pid a.direction a.isLoopback) :
    (log.arrival s a).Timely (s.queue.admitted a.pending (s.requestedDeadline a delayMs)) now
      s.status.draining := by
  have hkept := h.arrival ho hlatest hnow
  have hrequested := requestedDeadline_le log hdelay
  refine ⟨hkept.latest_le, hkept.lastRelease_le, hkept.due.admitted hrequested,
    fun entry hm => ?_, fun entry hm hr => ?_⟩
  · rcases (MinHeap.mem_push _ _ _).mp hm with rfl | hm
    · have hle : s.queue.admitDeadline a.pending (s.requestedDeadline a delayMs) ≤
          (log.arrival s a).bound :=
        DelayQueue.admitDeadline_le hkept.due hrequested
      simpa [Log.bound, Log.arrival] using hle
    · exact hkept.latency entry hm
  · rcases (MinHeap.mem_push _ _ _).mp hm with rfl | hm
    · have hle : s.requestedDeadline a delayMs ≤
          s.queue.admitDeadline a.pending (s.requestedDeadline a delayMs) :=
        DelayQueue.le_clampToTail _ _
      cases hdraining : s.status.draining with
      | true => exact .inl rfl
      | false =>
        right
        rw [State.requestedDeadline, hdraining, if_neg Bool.false_ne_true, hdelay] at hle
        simpa [Log.arrival, State.requestedDeadline, hdraining, hdelay] using hle
    · exact hkept.delayed entry hm hr

/-- A release takes packets up to its own time, and none that it does not select before. -/
theorem released (h : log.Timely s.queue s.now draining) (ho : s.queue.Ordered)
    {predicate : PendingPacket → Bool} (hq : s.queue.releaseMatching s.now predicate = .ok queue')
    (hreleased : s.queue.Released s.now predicate queue') :
    (log.release s predicate).Timely queue' s.now draining := by
  have hbound : log.bound ≤ (log.release s predicate).bound :=
    max_le_max_left _ h.lastRelease_le
  have hbefore : ∀ after ∈ queue'.heap.entries,
      ∃ before ∈ s.queue.heap.entries, before.sequence = after.sequence := by
    intro after hm
    obtain ⟨before, hb, heq⟩ :=
      List.mem_map.mp (hreleased.places.mem_iff.mp (List.mem_map_of_mem hm))
    exact ⟨before, hb, (Prod.mk.inj heq).2⟩
  refine ⟨h.latest_le, le_rfl, ?_, fun after hm => ?_, fun after hm hr => ?_⟩
  · refine .releaseMatching (le_max_right _ _) (fun flow state hs t ht => ?_) hq
      fun entry hm _ => (h.due.entries entry hm).trans hbound
    obtain ⟨tail, htail, hle⟩ := ho.inFlightTail_le flow state hs t ht
    exact hle.trans ((h.due.tails flow state hs tail htail).trans hbound)
  · obtain ⟨before, hb, hs⟩ := hbefore after hm
    have hlater := hreleased.not_later before hb after hm hs.symm
    have hlatency := h.latency before hb
    rw [hs] at hlatency
    refine hlater.trans (max_le (le_max_right _ _) (hlatency.trans ?_))
    exact max_le_max_left _ h.lastRelease_le
  · obtain ⟨before, hb, hs⟩ := hbefore after hm
    simp only [Log.release, Bool.or_eq_false_iff, List.any_eq_false] at hr
    have hnot : predicate before.packet = false := by
      simpa [hs] using hr.2 before hb
    refine (h.delayed before hb (hs ▸ hr.1)).imp id fun hle => ?_
    rw [hs] at hle
    exact hle.trans (hreleased.not_earlier before hb after hm hs.symm hnot)

end Timely

end Log

namespace State

theorem exec_timely {s : State} (hr : s.Reachable) {t : Tid} {env : Env} {op : Op}
    {rest : List Op} {o : Outcome} (hops : s.ops t = op :: rest)
    (h : s.exec t env op = some o) {log : Log}
    (hlog : log.Timely s.queue s.now s.status.draining)
    (hlatest : ∀ r ∈ op.receivedAt, log.latest ≤ r) :
    (log.record s op).Timely o.state.queue s.now s.status.draining := by
  have ho := hr.queueOk.ordered
  have harrived : op.Arrived s.now := hr.arrived (hops ▸ List.mem_cons_self)
  have hreleased {predicate : PendingPacket → Bool} {queue : DelayQueue}
      (hq : s.queue.releaseMatching s.now predicate = .ok queue) :
      (log.release s predicate).Timely queue s.now s.status.draining :=
    hlog.released ho hq
      (DelayQueue.released_of_releaseMatching hr.queueOk.consistent ho hr.flightTails hq)
  have hdispatch {a : Admission} {delayMs : UInt32} (hop : op = .dispatch a delayMs) :
      log.latest ≤ a.receivedAt ∧ a.receivedAt ≤ s.now := by
    subst hop
    exact ⟨hlatest _ List.mem_cons_self, harrived⟩
  have hrelease (predicate : PendingPacket → Bool) : ∃ queue,
      s.queue.releaseMatching s.now predicate = .ok queue := by
    obtain ⟨queue, hq, -⟩ := hr.queueOk.consistent.releaseMatching s.now predicate
    exact ⟨queue, hq⟩
  by_cases hreleases : op = .releaseAll ∨ op = .releaseRevised
  · rcases hreleases with rfl | rfl
    · obtain ⟨queue, hq⟩ := hrelease fun _ => true
      simp only [exec, tryQueue, hq] at h
      cases h
      exact hreleased hq
    · obtain ⟨queue, hq⟩ := hrelease s.policy.releases
      simp only [exec, tryQueue, hq] at h
      cases h
      exact hreleased hq
  rw [not_or] at hreleases
  generalize hqueue : o.state.queue = queue
  have hstep := exec_queueStep hr hops h
  rw [hqueue] at hstep
  cases hstep with
  | keep =>
    cases op
    case dispatch a delayMs => exact hlog.arrival ho (hdispatch rfl).1 (hdispatch rfl).2
    case releaseAll => exact absurd rfl hreleases.1
    case releaseRevised => exact absurd rfl hreleases.2
    all_goals exact hlog
  | enqueue a delayMs =>
    exact hlog.admitted ho (hdispatch rfl).1 (hdispatch rfl).2 (delayMs_of_dispatch hr hops)
  | exhaust a delayMs =>
    have hkept := hlog.arrival ho (hdispatch rfl).1 (hdispatch rfl).2
    have hrequested := Log.Timely.requestedDeadline_le log (delayMs_of_dispatch hr hops)
    exact hkept.of_subset (fun e he => he) (hkept.due.charge hrequested)
  | pop entry heap state hpop hdue hstate =>
    refine hlog.of_subset (fun e he => ?_) (hlog.due.popped hstate hpop)
    exact (MinHeap.pop?_eq_some hpop).1 ▸ List.mem_cons_of_mem _ he
  | finish packet queue hq =>
    exact hlog.of_subset (fun e he => (DelayQueue.finish_eq_ok hq).1 ▸ he) (hlog.due.finish hq)
  | releaseAll => exact absurd rfl hreleases.1
  | releaseRevised => exact absurd rfl hreleases.2
  | discard => exact .empty hlog.latest_le hlog.lastRelease_le

theorem record_latest (log : Log) (s : State) {op : Op}
    (h : ∀ a delayMs, op ≠ .dispatch a delayMs) : (log.record s op).latest = log.latest := by
  cases op
  case dispatch a delayMs => exact absurd rfl (h a delayMs)
  all_goals rfl

/-- A packet in the hands of another thread, or behind the operation, is no packet at all when one
is put into the queue. -/
theorem record_latest_le {s : State} (hr : s.Reachable) {t t' : Tid} {op op' : Op} {rest : List Op}
    (hops : s.ops t = op :: rest) {log : Log} (hm : op' ∈ s.ops t') (hne : t' ≠ t ∨ op' ∈ rest)
    {r : Instant} (hmem : r ∈ op'.receivedAt) (hlatest : log.latest ≤ r) :
    (log.record s op).latest ≤ r := by
  by_cases hdispatch : ∃ a delayMs, op = .dispatch a delayMs
  · obtain ⟨a, delayMs, rfl⟩ := hdispatch
    obtain ⟨hall, hshape⟩ := hops ▸ hr.shape t
    rcases hne with ht | hrest
    · have htid := Op.eq_receiver_of_receivedAt (List.all_eq_true.mp (hr.shape t').1 op' hm) hmem
      have htid' : t = .receiver := by
        simpa [Op.allowed] using List.all_eq_true.mp hall _ List.mem_cons_self
      exact absurd (htid.trans htid'.symm) ht
    · rw [Op.receivedAt_of_carried (hshape.2.2.1 rfl) hrest] at hmem
      cases hmem
  · rw [record_latest log s fun a delayMs hop => hdispatch ⟨a, delayMs, hop⟩]
    exact hlatest

/-- What an operation leaves of the other threads' work. -/
theorem exec_hands_other {s : State} (hr : s.Reachable) {t t' : Tid} {env : Env} {op op' : Op}
    {rest : List Op} {o : Outcome} (hops : s.ops t = op :: rest) (h : s.exec t env op = some o)
    (ht : t' ≠ t) {log : Log} (hs : ∀ t, ∀ op ∈ s.ops t, ∀ r ∈ op.receivedAt, log.latest ≤ r)
    (hm : op' ∈ o.state.ops t') : ∀ r ∈ op'.receivedAt, (log.record s op).latest ≤ r := by
  intro r hmem
  rcases exec_ops h t' with he | ⟨-, -, he⟩ | ⟨-, -, he⟩ <;> rw [he] at hm
  · exact record_latest_le hr hops hm (.inl ht) hmem (hs t' op' hm r hmem)
  · rw [Op.receivedAt_of_carried rfl hm] at hmem
    cases hmem
  · rw [Op.receivedAt_of_carried rfl hm] at hmem
    cases hmem

/-- What an operation puts in its place. -/
theorem exec_hands_self {s s' : State} (hr : s.Reachable) {t : Tid} {env : Env} {op op' : Op}
    {rest pushed : List Op} (hops : s.ops t = op :: rest)
    (h : s.exec t env op = some (.next s' pushed)) {log : Log} (hnow : log.latest ≤ s.now)
    (hs : ∀ t, ∀ op ∈ s.ops t, ∀ r ∈ op.receivedAt, log.latest ≤ r) (hm : op' ∈ pushed ++ rest) :
    ∀ r ∈ op'.receivedAt, (log.record s op).latest ≤ r := by
  intro r hmem
  rcases List.mem_append.mp hm with hm | hm
  · rcases exec_receivedAt h op' hm r hmem with hold | ⟨rfl, rfl⟩
    · by_cases hdispatch : ∃ a delayMs, op = .dispatch a delayMs
      · obtain ⟨a, delayMs, rfl⟩ := hdispatch
        exact (List.mem_singleton.mp hold).ge
      · rw [record_latest log s fun a delayMs hop => hdispatch ⟨a, delayMs, hop⟩]
        exact hs t op (hops ▸ List.mem_cons_self) r hold
    · exact hnow
  · have hm' : op' ∈ s.ops t := hops ▸ List.mem_cons_of_mem _ hm
    exact record_latest_le hr hops hm' (.inr hm) hmem (hs t op' hm' r hmem)

end State

/-- The log is timely, and no packet in hand was received before one that it has. -/
structure Logged.Timely (x : Logged) : Prop where
  log : x.log.Timely x.state.queue x.state.now x.state.status.draining
  hands : ∀ t, ∀ op ∈ x.state.ops t, ∀ r ∈ op.receivedAt, x.log.latest ≤ r

theorem Logged.Reachable.timely {x : Logged} (h : x.Reachable) : x.Timely := by
  refine Transition.Reachable.invariant (I := Logged.Timely) ?_ ?_ h
  · rintro _ rfl
    exact ⟨.empty le_rfl le_rfl, by simp⟩
  intro x label x' hx hs hstep
  have hr := Logged.Reachable.state hx
  obtain ⟨s', hnext, rfl⟩ := Option.map_eq_some_iff.mp hstep
  -- The queue stays timely, as `draining` is not taken back.
  have hqueue {t : Tid} {env : Env} {op : Op} {rest : List Op} {o : Outcome}
      (hops : x.state.ops t = op :: rest) (hexec : x.state.exec t env op = some o) :
      (x.log.record x.state op).Timely o.state.queue o.state.now o.state.status.draining := by
    rw [State.exec_now hexec]
    refine (State.exec_timely hr hops hexec hs.log
      (hs.hands t op (hops ▸ List.mem_cons_self))).mono le_rfl fun hdraining => ?_
    rcases (State.exec_flags hexec).2.1 with hsame | rfl
    · rw [hsame]
      exact hdraining
    · cases hexec
      rfl
  cases State.Step.of_step hnext with
  | tick elapsed => exact ⟨hs.log.mono (Nat.le_add_right _ _) id, hs.hands⟩
  | @call call s' hops hbegin =>
    have hprogram : ∀ op ∈ call.program, op.receivedAt = [] :=
      fun op hm => Op.receivedAt_of_carried (by cases call <;> rfl) hm
    rcases State.begin_eq_some hbegin with ⟨rfl, hactive, rfl⟩ | ⟨hcall, rfl⟩
    · exact ⟨.empty (Nat.zero_le _) (Nat.zero_le _), fun t op hm r hr => Nat.zero_le _⟩
    · have hlog : (match Label.call call with
          | .call .startWithIo => {}
          | .run t _ => ((x.state.ops t).head?.map (x.log.record x.state)).getD x.log
          | _ => x.log) = x.log := by
        cases call
        case startWithIo => exact absurd rfl hcall
        all_goals rfl
      rw [hlog]
      refine ⟨hs.log, fun t' op hm => ?_⟩
      by_cases ht : t' = .ui
      · subst ht
        rw [State.setOps_self] at hm
        rw [hprogram op hm]
        simp
      · rw [State.setOps_of_ne _ ht] at hm
        exact hs.hands t' op hm
  | @next t env op rest pushed s₁ hops hexec =>
    simp only [hops, List.head?_cons, Option.map_some, Option.getD_some]
    refine ⟨hqueue hops hexec, fun t' op' hm => ?_⟩
    by_cases ht : t' = t
    · subst ht
      rw [State.setOps_self] at hm
      exact State.exec_hands_self hr hops hexec hs.log.latest_le hs.hands hm
    · rw [State.setOps_of_ne _ ht] at hm
      exact State.exec_hands_other hr hops hexec ht hs.hands hm
  | @panic t env op rest s₁ hops hexec =>
    simp only [hops, List.head?_cons, Option.map_some, Option.getD_some]
    refine ⟨hqueue hops hexec, fun t' op' hm => ?_⟩
    by_cases ht : t' = t
    · subst ht
      rw [State.panicked_self] at hm
      rw [Op.receivedAt_of_carried (State.carried_afterPanic s₁ t') hm]
      simp
    · rw [State.panicked_of_ne _ ht] at hm
      exact State.exec_hands_other hr hops hexec ht hs.hands hm

/-- Delay does not add up in a flow: a queued packet is due at the latest once the longest delay has
passed since it was received, or at the last release; and a packet that no release selected is not
popped before its own delay has passed, unless the engine is stopping. -/
theorem Logged.delay_bounded {x : Logged} (h : x.Reachable) :
    (∀ entry ∈ x.state.queue.heap.entries,
        entry.deadline ≤ max (x.log.receivedAt entry.sequence + maxDelay) x.log.lastRelease) ∧
      ∀ entry heap queue, x.state.queue.heap.pop? = some (entry, heap) →
        x.state.queue.popDue x.state.now = .ok (some entry.packet, queue) →
        x.log.released entry.sequence = false → x.state.status.draining = true ∨
          x.log.receivedAt entry.sequence +
            (x.log.delayMs entry.sequence).toNat * 1000000 ≤ x.state.now := by
  have htimely := h.timely.log
  refine ⟨htimely.latency, fun entry heap queue hpop hdue hreleased => ?_⟩
  have hentries := (MinHeap.pop?_eq_some hpop).1
  refine (htimely.delayed entry (hentries ▸ List.mem_cons_self) hreleased).imp id fun hle => ?_
  rcases x.state.queue.popDue_cases x.state.now with he | ⟨entry', heap', hpop', hnow, -⟩
  · cases he.symm.trans hdue
  · cases hpop.symm.trans hpop'
    exact hle.trans hnow

/-- A packet waits for 50 ms and is then the sender's to pop. -/
def waitingPacketRun : List Label :=
  [.call .startWithIo] ++ List.replicate 2 (.run .ui {}) ++ State.delayedPacketRun
    ++ [.tick 50000000]

theorem Logged.delay_bounded_waitingPacketRun : ∃ (x : Logged) (entry : Entry)
    (heap : MinHeap Entry.key) (queue : DelayQueue),
    waitingPacketRun.foldlM step {} = some x ∧ x.state.queue.heap.pop? = some (entry, heap) ∧
    x.state.queue.popDue x.state.now = .ok (some entry.packet, queue) ∧
    entry.deadline = 50000000 ∧
    entry.deadline ≤ max (x.log.receivedAt entry.sequence + maxDelay) x.log.lastRelease ∧
    (x.state.status.draining = true ∨ x.log.receivedAt entry.sequence +
      (x.log.delayMs entry.sequence).toNat * 1000000 ≤ x.state.now) := by
  have hrun : ∃ (x : Logged) (entry : Entry) (heap : MinHeap Entry.key),
      waitingPacketRun.foldlM step {} = some x ∧ x.state.queue.heap.pop? = some (entry, heap) ∧
      entry.deadline = 50000000 ∧ x.state.now = 50000000 ∧
      x.log.released entry.sequence = false :=
    ⟨_, _, _, rfl, rfl, rfl, rfl, rfl⟩
  obtain ⟨x, entry, heap, hx, hpop, hdeadline, hnow, hreleased⟩ := hrun
  have hmem : entry ∈ x.state.queue.heap.entries :=
    (MinHeap.pop?_eq_some hpop).1 ▸ List.mem_cons_self
  obtain ⟨state, hstate, -⟩ := (Reachable.of_follow hx).state.queueOk.ordered.bounds entry hmem
  have hdue := DelayQueue.popDue_eq_of_pop hpop (hdeadline.trans hnow.symm).le hstate
  exact ⟨x, entry, heap, _, hx, hpop, hdue, hdeadline,
    (delay_bounded (.of_follow hx)).1 entry hmem,
    (delay_bounded (.of_follow hx)).2 entry heap _ hpop hdue hreleased⟩

end FlowBrake.Windows
