import FlowBrake.Lib.KeyedFifo
import FlowBrake.Windows.DelayQueue.Order

/-! Every sequence of queue operations: the accounts hold, nothing fails, and the queue serves
each flow as a first-in first-out queue. -/
namespace FlowBrake.Windows
open FlowBrake.Core KeyOrder Transition

/-- An operation on the queue. `finish i` is for the `i`-th of the packets in flight. -/
inductive QueueOp
  | enqueue (packet : PendingPacket) (deadline : Instant)
  | popDue (now : Instant)
  | finish (i : ℕ)
  | releaseMatching (now : Instant) (predicate : PendingPacket → Bool)

/-- A queue with the packets popped and not yet finished, latest first, and the history of what
it accepted and returned. -/
structure Session where
  queue : DelayQueue
  inFlight : List PendingPacket := []
  history : List (KeyedFifo.Event PendingPacket) := []

namespace Session

def start (bytes packets pidBytes pidPackets : ℕ) : Session where
  queue := .withLimits bytes packets pidBytes pidPackets

/-- A packet leaves `inFlight` when it is finished, so none is finished twice. -/
def step (s : Session) : QueueOp → Except Panic Session
  | .enqueue packet deadline => do
    let (accepted, queue) ← s.queue.enqueue packet deadline
    return { s with
      queue
      history := if accepted then s.history ++ [.accept packet] else s.history }
  | .popDue now => do
    let (popped, queue) ← s.queue.popDue now
    match popped with
    | none => return { s with queue }
    | some packet => return {
        queue
        inFlight := packet :: s.inFlight
        history := s.history ++ [.deliver packet] }
  | .finish i =>
    match s.inFlight[i]? with
    | none => .ok s
    | some packet => do
      let queue ← s.queue.finish packet
      return { s with queue, inFlight := s.inFlight.eraseIdx i }
  | .releaseMatching now predicate => do
    let queue ← s.queue.releaseMatching now predicate
    return { s with queue }

def run (s : Session) : List QueueOp → Except Panic Session
  | [] => .ok s
  | op :: ops => do
    let s ← s.step op
    s.run ops

structure Valid (s : Session) : Prop where
  consistent : s.queue.Consistent s.inFlight []
  ordered : s.queue.Ordered

/-- What `s'` is to `s` after at most `n` operations: valid, and reached by steps of the
per-flow queues. -/
structure Follows (s s' : Session) (n : ℕ) : Prop where
  valid : s'.Valid
  nextSequence_le : s'.queue.nextSequence ≤ s.queue.nextSequence + n
  fifo : ∃ events, s'.history = s.history ++ events ∧
    Run (KeyedFifo.Step PendingPacket.flow) s.queue.waiting events s'.queue.waiting

theorem Follows.refl {s : Session} (h : s.Valid) : s.Follows s 0 :=
  ⟨h, le_rfl, [], by simp, .nil _⟩

theorem Follows.trans {s s' s'' : Session} {m n : ℕ} (h : s.Follows s' m) (h' : s'.Follows s'' n) :
    s.Follows s'' (m + n) := by
  obtain ⟨es, hes, hrun⟩ := h.fifo
  obtain ⟨es', hes', hrun'⟩ := h'.fifo
  refine ⟨h'.valid, ?_, es ++ es', by rw [hes', hes, List.append_assoc], hrun.append hrun'⟩
  have := h.nextSequence_le
  have := h'.nextSequence_le
  omega

theorem waiting_admitted {queue : DelayQueue} (h : queue.Ordered) (packet : PendingPacket)
    (deadline : Instant) :
    (queue.admitted packet deadline).waiting = Function.update queue.waiting packet.flow
      (queue.waiting packet.flow ++ [packet]) := by
  funext flow
  by_cases hf : flow = packet.flow
  · subst hf
    simp [DelayQueue.waiting, h.inOrder_admitted]
  · simp [DelayQueue.waiting, h.inOrder_admitted, Function.update_of_ne hf, Ne.symm hf]

theorem waiting_popped {queue : DelayQueue} (h : queue.Ordered) {entry : Entry}
    {heap : MinHeap Entry.key} {state : FlowState} (hpop : queue.heap.pop? = some (entry, heap)) :
    (queue.popped entry heap state).waiting = Function.update queue.waiting entry.packet.flow
      ((queue.popped entry heap state).waiting entry.packet.flow) := by
  funext flow
  by_cases hf : flow = entry.packet.flow
  · rw [hf, Function.update_self]
  · rw [Function.update_of_ne hf, h.waiting_popped hpop state flow]
    simp [Ne.symm hf]

/-- Each operation succeeds and is a step of the per-flow queues, unless it needs the
2⁶⁴-th sequence number. -/
theorem step_follows {s : Session} (h : s.Valid) (op : QueueOp) :
    (∃ s', s.step op = .ok s' ∧ s.Follows s' 1) ∨
      2 ^ 64 ≤ s.queue.nextSequence + 1 ∧
        ∃ left, s.step op = .error (.sequenceExhausted left) := by
  cases op with
  | enqueue packet deadline =>
    rcases s.queue.enqueue_cases packet deadline with he | he | ⟨hn, he⟩
    · refine .inl ⟨s, by simp [step, he, pure, Except.pure], ?_⟩
      exact ⟨h, Nat.le_succ _, [], by simp, .nil _⟩
    · refine .inl ⟨_, by simp only [step, he, ok_bind]; rfl, ⟨?_, le_rfl, ?_⟩⟩
      · exact ⟨h.consistent.admitted packet deadline, h.ordered.admitted packet deadline⟩
      · refine ⟨[.accept packet], rfl, ?_⟩
        rw [waiting_admitted h.ordered]
        exact .single (.accept _ packet)
    · exact .inr ⟨hn, _, by simp only [step, he]; rfl⟩
  | popDue now =>
    rcases h.consistent.popDue now with he | ⟨entry, heap, state, hpop, -, hs, he, hc⟩
    · refine .inl ⟨s, by simp [step, he, pure, Except.pure], ?_⟩
      exact ⟨h, Nat.le_succ _, [], by simp, .nil _⟩
    · refine .inl ⟨⟨s.queue.popped entry heap state, entry.packet :: s.inFlight,
        s.history ++ [.deliver entry.packet]⟩, by simp only [step, he, ok_bind]; rfl,
        ⟨?_, Nat.le_succ _, ?_⟩⟩
      · exact ⟨hc, h.ordered.popped hpop hs⟩
      · refine ⟨[.deliver entry.packet], rfl, ?_⟩
        rw [waiting_popped h.ordered hpop]
        refine .single (.deliver _ _ _ ?_)
        simpa using h.ordered.waiting_popped hpop _ entry.packet.flow
  | finish i =>
    cases hi : s.inFlight[i]? with
    | none =>
      exact .inl ⟨s, by simp [step, hi], h, Nat.le_succ _, [], by simp, .nil _⟩
    | some packet =>
      obtain ⟨hlt, hget⟩ := List.getElem?_eq_some_iff.mp hi
      have hperm : s.inFlight.Perm (packet :: s.inFlight.eraseIdx i) :=
        hget ▸ (List.getElem_cons_eraseIdx_perm hlt).symm
      obtain ⟨queue, hq, hc⟩ := (h.consistent.perm hperm).finish
      obtain ⟨hheap, hnext, -⟩ := DelayQueue.finish_eq_ok hq
      refine .inl ⟨_, by simp only [step, hi, hq, ok_bind]; rfl, ⟨?_, ?_, [], by simp, ?_⟩⟩
      · exact ⟨hc, h.ordered.finish hq hc⟩
      · simp [hnext]
      · have hw : queue.waiting = s.queue.waiting := by
          funext flow
          simp [DelayQueue.waiting, DelayQueue.inOrder, hheap]
        exact hw ▸ .nil _
  | releaseMatching now predicate =>
    obtain ⟨queue, hq, hc, ho, horder, hnext⟩ :=
      DelayQueue.releaseMatching_ordered h.consistent h.ordered now predicate
    refine .inl ⟨_, by simp only [step, hq, ok_bind]; rfl, ⟨⟨hc, ho⟩, ?_, [], by simp, ?_⟩⟩
    · simp [hnext]
    · have hw : queue.waiting = s.queue.waiting := by
        funext flow
        simp [DelayQueue.waiting, horder]
      exact hw ▸ .nil _

theorem run_follows {s : Session} (h : s.Valid) (ops : List QueueOp) :
    (∃ s', s.run ops = .ok s' ∧ s.Follows s' ops.length) ∨
      2 ^ 64 ≤ s.queue.nextSequence + ops.length ∧
        ∃ left, s.run ops = .error (.sequenceExhausted left) := by
  induction ops generalizing s with
  | nil => exact .inl ⟨s, rfl, .refl h⟩
  | cons op ops ih =>
    rcases step_follows h op with ⟨s', hs', hf⟩ | ⟨hn, left, hs'⟩
    · have hrun : s.run (op :: ops) = s'.run ops := by simp only [run, hs', ok_bind]
      rw [hrun, List.length_cons]
      rcases ih hf.valid with ⟨s'', hs'', hf'⟩ | ⟨hn, left, hs''⟩
      · exact .inl ⟨s'', hs'', Nat.add_comm .. ▸ hf.trans hf'⟩
      · have := hf.nextSequence_le
        exact .inr ⟨by omega, left, hs''⟩
    · refine .inr ⟨?_, left, by simp only [run, hs']; rfl⟩
      rw [List.length_cons]
      omega

theorem start_valid (bytes packets pidBytes pidPackets : ℕ) :
    (start bytes packets pidBytes pidPackets).Valid :=
  ⟨.withLimits .., .withLimits ..⟩

/-- Whatever operations are run, the counters agree with the packets held, and no map entry is
missing and no counter underflows: only the 2⁶⁴-th sequence number can fail. -/
theorem run_accounts (bytes packets pidBytes pidPackets : ℕ) (ops : List QueueOp) :
    (∃ s, (start bytes packets pidBytes pidPackets).run ops = .ok s ∧
        Accounts s.queue (s.queue.queued ++ s.inFlight) s.inFlight) ∨
      2 ^ 64 ≤ ops.length ∧ ∃ left,
        (start bytes packets pidBytes pidPackets).run ops = .error (.sequenceExhausted left) := by
  rcases run_follows (start_valid bytes packets pidBytes pidPackets) ops with
    ⟨s, hs, hf⟩ | ⟨hn, hs⟩
  · exact .inl ⟨s, hs, by simpa [DelayQueue.Consistent] using hf.valid.consistent⟩
  · exact .inr ⟨by simpa [start] using hn, hs⟩

/-- The packets of a flow are returned in the order in which they were accepted, and those not
yet returned wait in that order. -/
theorem run_fifo (bytes packets pidBytes pidPackets : ℕ) (ops : List QueueOp) :
    (∃ s, (start bytes packets pidBytes pidPackets).run ops = .ok s ∧ s.queue.Ordered ∧
        ∀ flow, KeyedFifo.accepted PendingPacket.flow flow s.history =
          KeyedFifo.delivered PendingPacket.flow flow s.history ++ s.queue.waiting flow) ∨
      2 ^ 64 ≤ ops.length ∧ ∃ left,
        (start bytes packets pidBytes pidPackets).run ops = .error (.sequenceExhausted left) := by
  rcases run_follows (start_valid bytes packets pidBytes pidPackets) ops with
    ⟨s, hs, hf⟩ | ⟨hn, hs⟩
  · obtain ⟨events, hev, hrun⟩ := hf.fifo
    refine .inl ⟨s, hs, hf.valid.ordered, fun flow => ?_⟩
    rw [show s.history = events from hev]
    exact KeyedFifo.conserves hrun flow
  · exact .inr ⟨by simpa [start] using hn, hs⟩

end Session

end FlowBrake.Windows
