import FlowBrake.Windows.DelayQueue.Release
import FlowBrake.Windows.Engine.Script

/-! What the engine's operations do to the delay queue, and the times that they rely on. -/
namespace FlowBrake.Windows
open FlowBrake.Core Transition KeyOrder

def Stage.receivedAt : Stage → Instant
  | .aborted c | .refresh c | .elapsed c _ | .readPorts c _ | .refreshed c _ | .globalBlocks c =>
    c.receivedAt
  | .attribute p | .resolve p | .processBlocks p _ | .processLoss p _ | .globalLoss p _
  | .sampleLoss p _ _ | .chargeLen p _ => p.receivedAt
  | .limitGlobal a | .limitProcess a => a.receivedAt

/-- The packet that the operation is about was received by `now`. -/
def Op.Arrived (now : Instant) : Op → Prop
  | .stage st => st.receivedAt ≤ now
  | .check (.admitAborted a) | .check (.processDelay a) | .check (.globalDelay a)
  | .dispatch a _ => a.receivedAt ≤ now
  | _ => True

/-- The time at which the packet was received that an operation may put into the queue. -/
def Op.receivedAt : Op → List Instant
  | .stage st => [st.receivedAt]
  | .check (.admitAborted a) | .check (.processDelay a) | .check (.globalDelay a)
  | .dispatch a _ => [a.receivedAt]
  | _ => []

theorem Op.arrived_iff {now : Instant} {op : Op} :
    op.Arrived now ↔ ∀ r ∈ op.receivedAt, r ≤ now := by
  cases op
  case check c => cases c <;> simp [Op.Arrived, Op.receivedAt]
  all_goals simp [Op.Arrived, Op.receivedAt]

theorem Op.receivedAt_of_carried {ops : List Op} (h : carried ops = []) {op : Op} (hm : op ∈ ops) :
    op.receivedAt = [] := by
  have hnone := List.flatMap_eq_nil_iff.mp h op hm
  cases op
  case check c =>
    cases c
    case admitAborted | processDelay | globalDelay => cases hnone
    all_goals rfl
  case stage | dispatch => cases hnone
  all_goals rfl

theorem Op.Arrived.mono {now now' : Instant} {op : Op} (h : op.Arrived now) (hnow : now ≤ now') :
    op.Arrived now' := by
  rw [Op.arrived_iff] at h ⊢
  exact fun r hr => (h r hr).trans hnow

theorem Op.Arrived.of_carried {now : Instant} {ops : List Op} (h : carried ops = []) {op : Op}
    (hm : op ∈ ops) : op.Arrived now := by
  rw [Op.arrived_iff, Op.receivedAt_of_carried h hm]
  simp

namespace State

/-- The deadline that the receiver asks for. -/
def requestedDeadline (s : State) (a : Admission) (delayMs : UInt32) : Instant :=
  if s.status.draining then a.receivedAt else a.receivedAt + delayMs.toNat * 1000000

/-- What an operation may do to the queue. -/
inductive QueueStep (s : State) : Op → DelayQueue → Prop
  | keep (op : Op) : QueueStep s op s.queue
  | enqueue (a : Admission) (delayMs : UInt32) : a.isLoopback = false →
      s.queue.nextSequence + 1 < 2 ^ 64 →
      QueueStep s (.dispatch a delayMs)
        (s.queue.admitted a.pending (s.requestedDeadline a delayMs))
  | exhaust (a : Admission) (delayMs : UInt32) : 2 ^ 64 ≤ s.queue.nextSequence + 1 →
      QueueStep s (.dispatch a delayMs) (s.queue.charge a.pending (s.requestedDeadline a delayMs))
  | pop (entry : Entry) (heap : MinHeap Entry.key) (state : FlowState) :
      s.queue.heap.pop? = some (entry, heap) → entry.deadline ≤ s.now →
      s.queue.flows entry.packet.flow = some state →
      QueueStep s .senderLoop (s.queue.popped entry heap state)
  | finish (packet : PendingPacket) (queue : DelayQueue) : s.queue.finish packet = .ok queue →
      QueueStep s (.finish packet) queue
  | releaseAll (queue : DelayQueue) :
      s.queue.releaseMatching s.now (fun _ => true) = .ok queue → QueueStep s .releaseAll queue
  | releaseRevised (queue : DelayQueue) :
      s.queue.releaseMatching s.now s.policy.releases = .ok queue →
      QueueStep s .releaseRevised queue
  | discard : QueueStep s .discardPending {}

theorem exec_queueStep {s : State} (hr : s.Reachable) {t : Tid} {env : Env} {op : Op}
    {rest : List Op} {o : Outcome} (hops : s.ops t = op :: rest)
    (h : s.exec t env op = some o) : s.QueueStep op o.state.queue := by
  cases hon : op.onQueue with
  | false => exact (exec_queue hon h).1 ▸ .keep op
  | true =>
    have hall := hr.allowed hops
    cases op
    case dispatch a delayMs =>
      simp only [exec, dispatch, Option.some.injEq] at h
      split at h
      · next hheld =>
        simp only [Bool.and_eq_true, Bool.not_eq_true'] at hheld
        set deadline := if s.status.draining then a.receivedAt
          else a.receivedAt + delayMs.toNat * 1000000
        rcases s.queue.enqueue_cases a.pending deadline with he | he | ⟨hseq, he⟩ <;>
          simp only [he] at h <;> cases h
        · exact .keep _
        · exact .enqueue a delayMs hheld.1 (DelayQueue.lt_of_enqueue he)
        · exact .exhaust a delayMs hseq
      · cases h
        exact .keep _
    case senderLoop =>
      cases h
      rcases hr.queueOk.consistent.popDue s.now with
        he | ⟨entry, heap, state, hpop, hdue, hs, he, -⟩ <;> simp only [senderLoop, tryQueue, he]
      · split <;> exact .keep _
      · exact .pop entry heap state hpop hdue hs
    case finish packet =>
      have ht : t = .sender := by simpa [Op.allowed] using hall
      subst ht
      obtain ⟨queue, he, -⟩ :=
        (hr.queueOk.consistent.perm (List.perm_cons_erase (mem_inFlight hr.queueOk hops))).finish
      simp only [exec, tryQueue, he] at h
      cases h
      exact .finish packet queue he
    case releaseAll =>
      obtain ⟨queue, he, -⟩ := hr.queueOk.consistent.releaseMatching s.now fun _ => true
      simp only [exec, tryQueue, he] at h
      cases h
      exact .releaseAll queue he
    case releaseRevised =>
      obtain ⟨queue, he, -⟩ := hr.queueOk.consistent.releaseMatching s.now s.policy.releases
      simp only [exec, tryQueue, he] at h
      cases h
      exact .releaseRevised queue he
    case discardPending =>
      cases h
      exact .discard
    all_goals cases hon

/-- Time passes only at a tick. -/
theorem exec_now {s : State} {t : Tid} {env : Env} {op : Op} {o : Outcome}
    (h : s.exec t env op = some o) : o.state.now = s.now := by
  cases op
  all_goals
    simp only [exec, dispatch, senderLoop, ioSend, tryQueue] at h
    repeat' split at h
    all_goals cases h <;> rfl

/-- What the queue's operations keep, as time passes, holds of the queue of every reachable
state. -/
theorem Reachable.queue_invariant {P : DelayQueue → Instant → Prop} (hempty : ∀ now, P {} now)
    (hmono : ∀ queue now now', now ≤ now' → P queue now → P queue now')
    (hstep : ∀ (s : State) op queue, s.Reachable → P s.queue s.now → s.QueueStep op queue →
      P queue s.now)
    {s : State} (h : s.Reachable) : P s.queue s.now := by
  refine h.invariant (I := fun s => P s.queue s.now) (hempty 0) ?_
  intro s label s' hr hs hst
  cases hst with
  | tick elapsed => exact hmono _ _ _ (Nat.le_add_right _ _) hs
  | call hops hbegin =>
    rcases begin_eq_some hbegin with ⟨-, -, rfl⟩ | ⟨-, rfl⟩
    · exact hempty s.now
    · exact hs
  | next hops hexec =>
    have hnow := exec_now hexec
    have := hstep s _ _ hr hs (exec_queueStep hr hops hexec)
    rw [← hnow] at this
    exact this
  | panic hops hexec =>
    have hnow := exec_now hexec
    have := hstep s _ _ hr hs (exec_queueStep hr hops hexec)
    rw [← hnow] at this
    exact this

theorem Reachable.flightDue {s : State} (h : s.Reachable) : s.queue.FlightDue s.now := by
  refine h.queue_invariant (P := DelayQueue.FlightDue) ?_ (fun _ _ _ hnow hs => hs.mono hnow) ?_
  · intro now flow state hs
    cases hs
  intro s op queue hr hs hstep
  cases hstep with
  | keep => exact hs
  | enqueue a delayMs => exact hs.charge a.pending (s.requestedDeadline a delayMs)
  | exhaust a delayMs => exact hs.charge a.pending (s.requestedDeadline a delayMs)
  | pop entry heap state hpop hdue hstate => exact hs.popped hstate hdue
  | finish packet queue hq => exact hs.finish hq
  | releaseAll queue hq =>
    have hall : ∀ packet : PendingPacket, (fun _ => false) packet = false → true = true :=
      fun _ _ => rfl
    exact (DelayQueue.settled_of_releaseMatching hr.queueOk.consistent hr.queueOk.ordered hs hq
      hall).2.1
  | releaseRevised queue hq =>
    have hall : ∀ packet, (!s.policy.releases packet) = false → s.policy.releases packet = true :=
      fun _ h => by simpa using h
    exact (DelayQueue.settled_of_releaseMatching hr.queueOk.consistent hr.queueOk.ordered hs hq
      hall).2.1
  | discard =>
    intro flow state hs
    cases hs

theorem runStage_receivedAt (s : State) (env : Env) (st : Stage) :
    (∀ st', (s.runStage env st).1 = .continue st' → st'.receivedAt = st.receivedAt) ∧
      ∀ a, (s.runStage env st).1 = .admitted a → a.receivedAt = st.receivedAt := by
  cases st <;> simp only [runStage] <;> repeat' split
  all_goals
    constructor <;> intro x h <;> cases h <;> rfl

theorem check_receivedAt (s : State) (c : Check) :
    ∀ op ∈ s.check c, op.receivedAt ⊆ (Op.check c).receivedAt := by
  cases c <;> simp only [check]
  case apply command =>
    intro op hm
    rcases List.mem_append.mp hm with hm | hm
    · obtain ⟨edit, -, rfl⟩ := List.mem_map.mp hm
      exact List.nil_subset _
    · simp only [List.mem_cons, List.not_mem_nil, or_false] at hm
      rcases hm with rfl | rfl | rfl <;> exact List.nil_subset _
  all_goals repeat' split
  all_goals simp [Op.receivedAt, recordDrop, fail, drainQueue]

/-- Only `recv` has an operation deal with a packet that the one before it did not. -/
theorem exec_receivedAt {s s' : State} {t : Tid} {env : Env} {op : Op} {pushed : List Op}
    (h : s.exec t env op = some (.next s' pushed)) :
    ∀ op' ∈ pushed, ∀ r ∈ op'.receivedAt, r ∈ op.receivedAt ∨ op = .recv ∧ r = s.now := by
  cases op
  case check c =>
    cases h
    exact fun op' hm r hr => .inl (s.check_receivedAt c op' hm hr)
  case stage st =>
    obtain ⟨hcontinue, hadmitted⟩ := s.runStage_receivedAt env st
    simp only [exec] at h
    split at h
    all_goals
      next hv =>
        rw [hv] at hcontinue hadmitted
        cases h <;> simp_all [Op.receivedAt, send, recordDrop]
  case ioSend p =>
    simp only [exec, ioSend] at h
    split at h <;> cases h
    · obtain ⟨tallies, ht⟩ := recordBytes_eq_map p.pid p.direction p.chargeLen
      simp [ht, Op.receivedAt]
    · split <;> simp [Op.receivedAt, recordDrop, fail, drainQueue]
  all_goals
    simp only [exec, dispatch, senderLoop, tryQueue] at h
    repeat' split at h
    all_goals
      cases h <;> simp [Op.receivedAt, Stage.receivedAt, recordDrop, send, stop, drainQueue,
        discardPending, fail]

theorem exec_arrived {s s' : State} {t : Tid} {env : Env} {op : Op} {pushed : List Op}
    (hop : op.Arrived s.now) (h : s.exec t env op = some (.next s' pushed)) :
    ∀ op ∈ pushed, op.Arrived s.now := by
  intro op' hm
  rw [Op.arrived_iff] at hop ⊢
  intro r hr
  rcases exec_receivedAt h op' hm r hr with hr | ⟨-, rfl⟩
  · exact hop r hr
  · exact le_rfl

/-- A packet in a thread's hands was received before. -/
theorem Reachable.arrived {s : State} (h : s.Reachable) {t : Tid} {op : Op}
    (hm : op ∈ s.ops t) : op.Arrived s.now := by
  refine h.invariant (I := fun s => ∀ t, ∀ op ∈ s.ops t, op.Arrived s.now) (by simp) ?_ t op hm
  intro s label s' _ hs hstep t' op' hm
  have hother {t : Tid} {env : Env} {op : Op} {o : Outcome} (hexec : s.exec t env op = some o)
      (hm : op' ∈ o.state.ops t') : op'.Arrived o.state.now := by
    rw [exec_now hexec]
    rcases exec_ops hexec t' with he | ⟨-, -, he⟩ | ⟨-, -, he⟩ <;> rw [he] at hm
    · exact hs t' op' hm
    · exact .of_carried rfl hm
    · exact .of_carried rfl hm
  cases hstep with
  | tick elapsed => exact (hs t' op' hm).mono (Nat.le_add_right _ _)
  | @call call s' hops hbegin =>
    have hnow : s'.now = s.now := by
      rcases begin_eq_some hbegin with ⟨-, -, rfl⟩ | ⟨-, rfl⟩ <;> rfl
    rw [hnow]
    rw [begin_ops hbegin] at hm
    by_cases ht : t' = .ui
    · subst ht
      rw [Function.update_self] at hm
      exact .of_carried (by cases call <;> rfl) hm
    · rw [Function.update_of_ne ht] at hm
      exact hs t' op' hm
  | @next t env op rest pushed s₁ hops hexec =>
    by_cases ht : t' = t
    · subst ht
      rw [setOps_self] at hm
      have hnow : s₁.now = s.now := exec_now hexec
      change op'.Arrived s₁.now
      rw [hnow]
      rcases List.mem_append.mp hm with hm | hm
      · exact exec_arrived (hs t' op (by simp [hops])) hexec op' hm
      · exact hs t' op' (by simp [hops, hm])
    · rw [setOps_of_ne _ ht] at hm
      exact hother hexec hm
  | @panic t env op rest s₁ hops hexec =>
    by_cases ht : t' = t
    · subst ht
      rw [panicked_self] at hm
      exact .of_carried (carried_afterPanic s₁ t') hm
    · rw [panicked_of_ne _ ht] at hm
      exact hother hexec hm

theorem QueueStep.due {s : State} (hr : s.Reachable) {op : Op} {queue : DelayQueue}
    (hstep : s.QueueStep op queue) (hs : s.queue.Due s.now) (hdrain : s.status.draining)
    (hop : op.Arrived s.now) : queue.Due s.now := by
  have hrequested {a : Admission} (ha : a.receivedAt ≤ s.now) (delayMs : UInt32) :
      s.requestedDeadline a delayMs ≤ s.now := by
    rw [requestedDeadline, if_pos hdrain]
    exact ha
  cases hstep with
  | keep => exact hs
  | enqueue a delayMs => exact hs.admitted (hrequested hop delayMs)
  | exhaust a delayMs => exact hs.charge (hrequested hop delayMs)
  | pop entry heap state hpop hdue hstate => exact hs.popped hstate hpop
  | finish packet queue hq => exact hs.finish hq
  | releaseAll queue hq => exact .releaseMatching le_rfl hr.flightDue hq (by simp)
  | releaseRevised queue hq =>
    exact .releaseMatching le_rfl hr.flightDue hq fun entry hm _ => hs.entries entry hm
  | discard =>
    refine ⟨fun entry hm => ?_, fun flow state hs => ?_⟩
    · cases hm
    · cases hs

/-- Once the queue is draining and what it held was released, all in it is due. -/
theorem Reachable.due {s : State} (h : s.Reachable) : s.status.draining →
    (∃ t rest, s.ops t = .releaseAll :: rest) ∨ s.queue.Due s.now := by
  refine h.invariant (I := fun s => s.status.draining →
    (∃ t rest, s.ops t = .releaseAll :: rest) ∨ s.queue.Due s.now) (by simp) ?_
  intro s label s' hr hs hstep hdrain
  have hexec {t : Tid} {env : Env} {op : Op} {rest : List Op} {o : Outcome}
      (hops : s.ops t = op :: rest) (h : s.exec t env op = some o)
      (hdrain : s.status.draining) :
      (∃ t' rest', t' ≠ t ∧ o.state.ops t' = .releaseAll :: rest') ∨
        o.state.queue.Due o.state.now := by
    have hstep := exec_queueStep hr hops h
    rw [exec_now h]
    rcases hs hdrain with ⟨t', rest', hops'⟩ | hdue
    · by_cases ht : t' = t
      · subst ht
        cases hops.symm.trans hops'
        obtain ⟨queue, he, -⟩ := hr.queueOk.consistent.releaseMatching s.now fun _ => true
        simp only [exec, tryQueue, he] at h
        cases h
        exact .inr (.releaseMatching le_rfl hr.flightDue he (by simp))
      · exact .inl ⟨t', rest', ht, (exec_ops_of_ne hr hops (by simp [hops']) h).trans hops'⟩
    · exact .inr (hstep.due hr hdue hdrain (hr.arrived (t := t) (by simp [hops])))
  cases hstep with
  | tick elapsed => exact (hs hdrain).imp id fun hdue => hdue.mono (Nat.le_add_right _ _)
  | @call call s' hops hbegin =>
    rcases begin_eq_some hbegin with ⟨-, -, rfl⟩ | ⟨-, rfl⟩
    · cases hdrain
    · refine (hs hdrain).imp (fun hreleasing => ?_) id
      obtain ⟨t, rest, hops'⟩ := hreleasing
      refine ⟨t, rest, (setOps_of_ne _ ?_ _).trans hops'⟩
      rintro rfl
      cases hops.symm.trans hops'
  | @next t env op rest pushed s₁ hops hnext =>
    by_cases hop : op = .note .draining
    · subst hop
      cases hnext
      have hhead := (hops ▸ hr.script t).1.2.2
      cases rest with
      | nil => cases hhead
      | cons op rest =>
        cases Option.some.inj hhead
        exact .inl ⟨t, rest, setOps_self ..⟩
    · have hdrain' : s.status.draining :=
        ((exec_flags hnext).2.1.resolve_right hop).symm.trans hdrain
      refine (hexec hops hnext hdrain').imp (fun hreleasing => ?_) id
      obtain ⟨t', rest', ht, hops'⟩ := hreleasing
      exact ⟨t', rest', (setOps_of_ne _ ht _).trans hops'⟩
  | @panic t env op rest s₁ hops hpanic =>
    have hop : op ≠ .note .draining := by
      rintro rfl
      cases hpanic
    have hdrain' : s.status.draining :=
      ((exec_flags hpanic).2.1.resolve_right hop).symm.trans hdrain
    refine (hexec hops hpanic hdrain').imp (fun hreleasing => ?_) id
    obtain ⟨t', rest', ht, hops'⟩ := hreleasing
    exact ⟨t', rest', (panicked_of_ne _ ht).trans hops'⟩

end State

end FlowBrake.Windows
