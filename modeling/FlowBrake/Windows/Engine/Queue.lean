import FlowBrake.Windows.DelayQueue.Order
import FlowBrake.Windows.Engine.Locks

/-! The engine uses its delay queue as it must: each popped packet is finished once, so the
queue stays consistent and ordered and its operations never panic. -/
namespace FlowBrake.Windows
open FlowBrake.Core Transition

/-- The operations on the queue itself. -/
def Op.onQueue : Op → Bool
  | .dispatch _ _ | .senderLoop | .finish _ | .releaseAll | .releaseRevised | .discardPending =>
    true
  | _ => false

namespace State

/-- The queue accounts for the packets in flight, among them all that the sender has still to
finish. -/
structure QueueOk (s : State) : Prop where
  consistent : s.queue.Consistent s.inFlight s.lost
  ordered : s.queue.Ordered
  finishing : (finishes (s.ops .sender)).Subperm s.inFlight

theorem exec_queue {s : State} {t : Tid} {env : Env} {op : Op} {o : Outcome}
    (hop : op.onQueue = false) (h : s.exec t env op = some o) :
    o.state.queue = s.queue ∧ o.state.inFlight = s.inFlight ∧ o.state.lost = s.lost := by
  cases op
  case dispatch | senderLoop | finish | releaseAll | releaseRevised | discardPending =>
    cases hop
  all_goals
    simp only [exec, ioSend] at h
    repeat' split at h
    all_goals cases h <;> exact ⟨rfl, rfl, rfl⟩

theorem check_finishes (s : State) (c : Check) : finishes (s.check c) = [] := by
  cases c <;> simp only [check]
  case apply command => simp [finishes]
  all_goals repeat' split
  all_goals rfl

/-- Only `senderLoop` puts a packet up to be finished. -/
theorem exec_finishes {s s' : State} {t : Tid} {env : Env} {op : Op} {pushed : List Op}
    (hop : op ≠ .senderLoop) (h : s.exec t env op = some (.next s' pushed)) :
    finishes pushed = [] := by
  cases op
  case senderLoop => exact absurd rfl hop
  case check c =>
    cases h
    exact check_finishes s c
  case ioSend p =>
    simp only [exec, ioSend] at h
    split at h <;> cases h
    · obtain ⟨tallies, ht⟩ := recordBytes_eq_map p.pid p.direction p.chargeLen
      exact ht ▸ finishes_tallies tallies
    · split <;> rfl
  all_goals
    simp only [exec, dispatch, tryQueue] at h
    repeat' split at h
    all_goals cases h <;> rfl

theorem releaseAll_next {s : State} (hq : s.QueueOk) (t : Tid) (env : Env) :
    ∃ queue, s.exec t env .releaseAll = some (.next { s with queue } []) ∧
      queue.Consistent s.inFlight s.lost ∧ queue.Ordered ∧ queue.inOrder = s.queue.inOrder := by
  obtain ⟨queue, he, hc, ho, horder, -⟩ :=
    DelayQueue.releaseMatching_ordered hq.consistent hq.ordered s.now fun _ => true
  exact ⟨queue, by simp [exec, tryQueue, he], hc, ho, horder⟩

theorem releaseRevised_next {s : State} (hq : s.QueueOk) (t : Tid) (env : Env) :
    ∃ queue, s.exec t env .releaseRevised = some (.next { s with queue } []) ∧
      queue.Consistent s.inFlight s.lost ∧ queue.Ordered ∧ queue.inOrder = s.queue.inOrder := by
  obtain ⟨queue, he, hc, ho, horder, -⟩ :=
    DelayQueue.releaseMatching_ordered hq.consistent hq.ordered s.now s.policy.releases
  exact ⟨queue, by simp [exec, tryQueue, he], hc, ho, horder⟩

theorem finish_next {s : State} (hq : s.QueueOk) {packet : PendingPacket}
    (hp : packet ∈ s.inFlight) (t : Tid) (env : Env) :
    ∃ queue, s.exec t env (.finish packet) =
        some (.next { s with queue, inFlight := s.inFlight.erase packet } []) ∧
      queue.Consistent (s.inFlight.erase packet) s.lost ∧ queue.Ordered ∧
      queue.inOrder = s.queue.inOrder := by
  obtain ⟨queue, he, hc⟩ := (hq.consistent.perm (List.perm_cons_erase hp)).finish
  refine ⟨queue, by simp [exec, tryQueue, he], hc, hq.ordered.finish he hc, ?_⟩
  rw [DelayQueue.inOrder, DelayQueue.inOrder, (DelayQueue.finish_eq_ok he).1]

/-- The sender pops the oldest packet of some flow, or finds none due. -/
theorem senderLoop_next {s : State} (hq : s.QueueOk) :
    (∃ op, s.senderLoop = .next s [op] ∧ (op = .unlockQueue ∨ ∃ deadline, op = .park deadline)) ∨
      ∃ packet queue, s.senderLoop = .next { s with queue, inFlight := packet :: s.inFlight }
          ([.unlockQueue] ++ send packet.toOutgoing ++ [.lockQueue, .finish packet, .senderLoop]) ∧
        queue.Consistent (packet :: s.inFlight) s.lost ∧ queue.Ordered ∧
        queue.usage = s.queue.usage ∧
        ∀ flow, s.queue.waiting flow =
          (if packet.flow = flow then [packet] else []) ++ queue.waiting flow := by
  rcases hq.consistent.popDue s.now with he | ⟨entry, heap, state, hpop, -, hs, he, hc⟩
  · left
    simp only [senderLoop, tryQueue, he]
    split
    · exact ⟨_, rfl, .inl rfl⟩
    · exact ⟨_, rfl, .inr ⟨_, rfl⟩⟩
  · exact .inr ⟨entry.packet, _, by simp only [senderLoop, tryQueue, he], hc,
      hq.ordered.popped hpop hs, rfl, hq.ordered.waiting_popped hpop _⟩

/-- The receiver sends a packet itself, or puts it last in the queue, or drops it there. -/
theorem dispatch_cases {s : State} (hq : s.QueueOk) (a : Admission) (delayMs : UInt32) :
    (s.dispatch a delayMs = .next s ([.unlockQueue, .unlockGate] ++ send a.outgoing) ∧
        (a.isLoopback = false → s.queue.flows a.packet.flowKey = none)) ∨
      (s.dispatch a delayMs = .next s (recordDrop .queue ++ [.unlockQueue, .unlockGate])) ∨
      a.isLoopback = false ∧ ∃ queue,
        (s.dispatch a delayMs = .next { s with queue }
            [.tally .delayed, .note .notify, .unlockQueue, .unlockGate] ∧
          queue.Consistent s.inFlight s.lost ∧ queue.Ordered ∧
          queue.inOrder = s.queue.inOrder ++ [a.pending] ∧
          queue.usage.packets = s.queue.usage.packets + 1) ∨
        (s.dispatch a delayMs = .panic { s with queue, lost := a.pending :: s.lost } ∧
          queue.Consistent s.inFlight (a.pending :: s.lost) ∧ queue.Ordered ∧
          queue.inOrder = s.queue.inOrder) := by
  unfold dispatch
  split
  · next h =>
    simp only [Bool.and_eq_true, Bool.not_eq_true'] at h
    set deadline := if s.status.draining then a.receivedAt
      else a.receivedAt + delayMs.toNat * 1000000
    rcases s.queue.enqueue_cases a.pending deadline with he | he | ⟨-, he⟩ <;> simp only [he]
    · exact .inr (.inl trivial)
    · exact .inr (.inr ⟨h.1, _, .inl ⟨rfl, hq.consistent.admitted _ _, hq.ordered.admitted _ _,
        hq.ordered.inOrder_admitted _ _, rfl⟩⟩)
    · exact .inr (.inr ⟨h.1, _, .inr ⟨rfl, hq.consistent.charge_lost _ _,
        hq.ordered.charge _ _, rfl⟩⟩)
  · next h =>
    refine .inl ⟨rfl, fun hl => ?_⟩
    simp only [hl, Bool.not_false, Bool.true_and, Bool.or_eq_true, not_or, Bool.not_eq_true] at h
    simpa [DelayQueue.hasFlow] using h.2

theorem mem_inFlight {s : State} (hq : s.QueueOk) {packet : PendingPacket} {rest : List Op}
    (hops : s.ops .sender = .finish packet :: rest) : packet ∈ s.inFlight :=
  hq.finishing.subset (by simp [hops, finishes])

/-- Every operation keeps the queue consistent and ordered. -/
theorem exec_consistent {s : State} (hq : s.QueueOk) {t : Tid} {env : Env} {op : Op}
    {rest : List Op} {o : Outcome} (hops : s.ops t = op :: rest) (hallowed : op.allowed t)
    (h : s.exec t env op = some o) :
    o.state.queue.Consistent o.state.inFlight o.state.lost ∧ o.state.queue.Ordered := by
  cases hon : op.onQueue with
  | false =>
    obtain ⟨hqueue, hfl, hlost⟩ := exec_queue hon h
    rw [hqueue, hfl, hlost]
    exact ⟨hq.consistent, hq.ordered⟩
  | true =>
    cases op
    case dispatch a delayMs =>
      cases h
      rcases dispatch_cases hq a delayMs with
        ⟨he, -⟩ | he | ⟨-, queue, ⟨he, hc, ho, -⟩ | ⟨he, hc, ho, -⟩⟩ <;> rw [he]
      exacts [⟨hq.consistent, hq.ordered⟩, ⟨hq.consistent, hq.ordered⟩, ⟨hc, ho⟩, ⟨hc, ho⟩]
    case senderLoop =>
      cases h
      rcases senderLoop_next hq with ⟨pushed, he, -⟩ | ⟨packet, queue, he, hc, ho, -⟩ <;> rw [he]
      exacts [⟨hq.consistent, hq.ordered⟩, ⟨hc, ho⟩]
    case finish packet =>
      have ht : t = .sender := by simpa [Op.allowed] using hallowed
      subst ht
      obtain ⟨queue, he, hc, ho, -⟩ := finish_next hq (mem_inFlight hq hops) .sender env
      cases he.symm.trans h
      exact ⟨hc, ho⟩
    case releaseAll =>
      obtain ⟨queue, he, hc, ho, -⟩ := releaseAll_next hq t env
      cases he.symm.trans h
      exact ⟨hc, ho⟩
    case releaseRevised =>
      obtain ⟨queue, he, hc, ho, -⟩ := releaseRevised_next hq t env
      cases he.symm.trans h
      exact ⟨hc, ho⟩
    case discardPending =>
      cases h
      exact ⟨.withLimits .., .withLimits ..⟩
    all_goals cases hon

theorem exec_inFlight {s : State} {t : Tid} {env : Env} {op : Op} {o : Outcome}
    (h : s.exec t env op = some o) : o.state.inFlight = s.inFlight ∨
      op = .senderLoop ∨ op = .discardPending ∨ ∃ packet, op = .finish packet := by
  cases op
  case senderLoop | finish | discardPending => simp
  all_goals
    left
    simp only [exec, dispatch, ioSend, tryQueue] at h
    repeat' split at h
    all_goals cases h <;> rfl

/-- What another thread does leaves the packets in flight, unless the sender has ended. -/
theorem exec_inFlight_other {s : State} (hr : s.Reachable) {t : Tid} {env : Env} {op : Op}
    {rest : List Op} {o : Outcome} (hops : s.ops t = op :: rest) (ht : t ≠ .sender)
    (h : s.exec t env op = some o) : o.state.inFlight = s.inFlight ∨ s.ops .sender = [] := by
  have hall := hr.allowed hops
  rcases exec_inFlight h with hfl | rfl | rfl | ⟨packet, rfl⟩
  · exact .inl hfl
  · exact absurd (by simpa [Op.allowed] using hall) ht
  · have hui : t = .ui := by cases t <;> simp_all [Op.allowed]
    subst hui
    exact .inr (hr.handles.sender (hr.handles.joined .discardPending (by simp [hops])).2)
  · exact absurd (by simpa [Op.allowed] using hall) ht

/-- What another thread does leaves the sender's packets in flight. -/
theorem exec_finishing {s : State} (hr : s.Reachable) (hq : s.QueueOk) {t : Tid} {env : Env}
    {op : Op} {rest : List Op} {o : Outcome} (hops : s.ops t = op :: rest) (ht : t ≠ .sender)
    (h : s.exec t env op = some o) :
    (finishes (o.state.ops .sender)).Subperm o.state.inFlight := by
  rcases exec_ops h .sender with he | ⟨-, -, he⟩ | ⟨-, ht', -⟩
  · rw [he]
    rcases exec_inFlight_other hr hops ht h with hfl | hidle
    · exact hfl ▸ hq.finishing
    · simp [hidle, finishes]
  · simp [he, runWorker, finishes]
  · cases ht'

theorem next_finishing {s s' : State} (hq : s.QueueOk) {env : Env} {op : Op}
    {rest pushed : List Op} (hops : s.ops .sender = op :: rest) (hshape : Shape (op :: rest))
    (h : s.exec .sender env op = some (.next s' pushed)) :
    (finishes (pushed ++ rest)).Subperm s'.inFlight := by
  obtain ⟨hfinal, -, -, hdiscard, -⟩ := hshape
  have hrest : (finishes (op :: rest)).Subperm s.inFlight := hops ▸ hq.finishing
  cases op
  case senderLoop =>
    rw [hfinal rfl, List.append_nil]
    simp only [exec, Option.some.injEq] at h
    rcases senderLoop_next hq with ⟨op, he, hop⟩ | ⟨packet, queue, he, -⟩ <;>
      cases he.symm.trans h
    · rcases hop with rfl | ⟨deadline, rfl⟩ <;> exact List.nil_subperm
    · exact List.singleton_subperm_iff.mpr List.mem_cons_self
  case finish packet =>
    obtain ⟨queue, he, -⟩ := finish_next hq (mem_inFlight hq hops) .sender env
    cases he.symm.trans h
    have hperm : (packet :: finishes rest).Subperm s.inFlight := hrest
    simpa using hperm.erase packet
  case discardPending =>
    cases h
    simp [hdiscard rfl]
  all_goals
    rw [finishes_append, exec_finishes (by simp) h, List.nil_append]
    have hfl : s'.inFlight = s.inFlight := (exec_inFlight h).resolve_right (by simp)
    rw [hfl]
    exact hrest

theorem Reachable.queueOk {s : State} (h : s.Reachable) : s.QueueOk := by
  refine h.invariant (I := QueueOk) ⟨.withLimits .., .withLimits .., .refl _⟩ ?_
  intro s label s' hr hq hstep
  cases hstep with
  | tick elapsed => exact ⟨hq.consistent, hq.ordered, hq.finishing⟩
  | @call call s' hops hbegin =>
    rcases begin_eq_some hbegin with ⟨-, hactive, rfl⟩ | ⟨-, rfl⟩
    · refine ⟨.withLimits .., .withLimits .., ?_⟩
      have hidle := hr.handles.sender (hr.handles.stopped hactive).2
      rw [setOps_of_ne _ (by decide)]
      simp [startWithIo, hidle, finishes]
    · refine ⟨hq.consistent, hq.ordered, ?_⟩
      rw [setOps_of_ne _ (by decide)]
      exact hq.finishing
  | @next t env op rest pushed s₁ hops hexec =>
    obtain ⟨hall, hshape⟩ := hops ▸ hr.shape t
    simp only [List.all_cons, Bool.and_eq_true] at hall
    obtain ⟨hc, ho⟩ := exec_consistent hq hops hall.1 hexec
    refine ⟨hc, ho, ?_⟩
    by_cases ht : t = .sender
    · subst ht
      rw [setOps_self]
      exact (next_finishing hq hops hshape hexec : (finishes (pushed ++ rest)).Subperm s₁.inFlight)
    · rw [setOps_of_ne _ (Ne.symm ht)]
      exact exec_finishing hr hq hops ht hexec
  | @panic t env op rest s₁ hops hexec =>
    obtain ⟨hall, hshape⟩ := hops ▸ hr.shape t
    simp only [List.all_cons, Bool.and_eq_true] at hall
    obtain ⟨hc, ho⟩ := exec_consistent hq hops hall.1 hexec
    refine ⟨hc, ho, ?_⟩
    by_cases ht : t = .sender
    · subst ht
      rw [panicked_self]
      have hnil : finishes (s₁.unwind .sender ++ afterPanic .sender) = [] := by
        unfold unwind
        split <;> split <;> rfl
      simp [hnil]
    · rw [panicked_of_ne _ (Ne.symm ht)]
      exact exec_finishing hr hq hops ht hexec

/-- The only panics are those of `io.send`, of the header parser and of an exhausted sequence;
the last two are the receiver's. -/
theorem panic_cases {s s' : State} (hr : s.Reachable) {t : Tid} {env : Env} {op : Op}
    {rest : List Op} (hops : s.ops t = op :: rest) (h : s.exec t env op = some (.panic s')) :
    (∃ p, op = .ioSend p ∧ s' = { s with sent := s.sent ++ [p] }) ∨ t = .receiver := by
  have hq := hr.queueOk
  have hall := hr.allowed hops
  cases op
  case ioSend p =>
    simp only [exec, ioSend] at h
    split at h <;> cases h
    exact .inl ⟨p, rfl, rfl⟩
  case stage | dispatch => exact .inr (by simpa [Op.allowed] using hall)
  case senderLoop =>
    simp only [exec, Option.some.injEq] at h
    rcases senderLoop_next hq with ⟨_, he, -⟩ | ⟨_, _, he, -⟩ <;> cases he.symm.trans h
  case finish packet =>
    have ht : t = .sender := by simpa [Op.allowed] using hall
    subst ht
    obtain ⟨_, he, -⟩ := finish_next hq (mem_inFlight hq hops) .sender env
    cases he.symm.trans h
  case releaseAll =>
    obtain ⟨_, he, -⟩ := releaseAll_next hq t env
    cases he.symm.trans h
  case releaseRevised =>
    obtain ⟨_, he, -⟩ := releaseRevised_next hq t env
    cases he.symm.trans h
  all_goals
    simp only [exec] at h
    repeat' split at h
    all_goals cases h

theorem panic_ne_ui {s s' : State} (hr : s.Reachable) {t : Tid} {env : Env} {op : Op}
    {rest : List Op} (hops : s.ops t = op :: rest) (h : s.exec t env op = some (.panic s')) :
    t ≠ .ui := by
  rintro rfl
  rcases panic_cases hr hops h with ⟨p, rfl, -⟩ | ht
  · have hall := (hr.shape .ui).1
    simp [hops, Op.allowed] at hall
  · cases ht

end State

end FlowBrake.Windows
