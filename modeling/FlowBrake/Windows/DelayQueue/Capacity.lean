import FlowBrake.Windows.DelayQueue.Session

/-! The queue takes a packet exactly if all it would then hold is within its four limits. -/
namespace FlowBrake.Windows
open FlowBrake.Core KeyOrder

/-- The limits of a queue: in all, and of each process. -/
structure Limits where
  bytes : ℕ
  packets : ℕ
  pidBytes : ℕ
  pidPackets : ℕ

namespace Limits

/-- What the packets of one process and of all add up to is within the limits. -/
structure Allow (limits : Limits) (pid : Option UInt32) (held : List PendingPacket) : Prop where
  packets : held.length ≤ limits.packets
  bytes : byteSum held ≤ limits.bytes
  pidPackets : pidCount pid held ≤ limits.pidPackets
  pidBytes : Windows.pidBytes pid held ≤ limits.pidBytes

variable {limits : Limits} {pid : Option UInt32} {held held' : List PendingPacket}

theorem Allow.nil (limits : Limits) (pid : Option UInt32) : limits.Allow pid [] := by
  constructor <;> simp [byteSum, pidCount, Windows.pidBytes]

theorem Allow.perm (h : limits.Allow pid held) (hp : held.Perm held') : limits.Allow pid held' where
  packets := hp.length_eq ▸ h.packets
  bytes := ((hp.map (·.bytes.length)).sum_eq).symm.trans_le h.bytes
  pidPackets := (hp.countP_eq _).symm.trans_le h.pidPackets
  pidBytes := (((hp.filter _).map _).sum_eq).symm.trans_le h.pidBytes

/-- Holding one packet less is within the limits as well. -/
theorem Allow.of_cons {packet : PendingPacket} (h : limits.Allow pid (packet :: held)) :
    limits.Allow pid held where
  packets := (Nat.le_succ _).trans h.packets
  bytes := (Nat.le_add_left _ _).trans (byteSum_cons packet held ▸ h.bytes)
  pidPackets := (Nat.le_add_right _ _).trans (pidCount_cons packet held pid ▸ h.pidPackets)
  pidBytes := (Nat.le_add_right _ _).trans (pidBytes_cons packet held pid ▸ h.pidBytes)

/-- A packet adds nothing to what another process holds. -/
theorem Allow.cons {packet : PendingPacket} (h : limits.Allow packet.pid (packet :: held))
    (hpid : limits.Allow pid held) : limits.Allow pid (packet :: held) := by
  by_cases hp : packet.pid = pid
  · exact hp ▸ h
  · refine ⟨h.packets, h.bytes, ?_, ?_⟩
    · simpa [hp] using hpid.pidPackets
    · simpa [hp] using hpid.pidBytes

end Limits

namespace DelayQueue

def capacity (queue : DelayQueue) : Limits where
  bytes := queue.maxBytes
  packets := queue.maxPackets
  pidBytes := queue.maxPidBytes
  pidPackets := queue.maxPidPackets

variable {queue queue' : DelayQueue} {held inFlight : List PendingPacket} {packet : PendingPacket}

/-- The four comparisons are those of four sums with the limits, as the sums are within them
before. -/
theorem rejects_eq_false_iff (h : Accounts queue held inFlight)
    (hw : queue.capacity.Allow packet.pid held) :
    queue.rejects packet = false ↔ queue.capacity.Allow packet.pid (packet :: held) := by
  have hpackets := hw.packets
  have hbytes := hw.bytes
  have hpidPackets := hw.pidPackets
  have hpidBytes := hw.pidBytes
  simp only [rejects, h.pid_getD, h.packets, h.bytes, Bool.or_eq_false_iff, decide_eq_false_iff_not,
    ge_iff_le, gt_iff_lt, not_le, not_lt]
  simp only [capacity] at hpackets hbytes hpidPackets hpidBytes ⊢
  constructor
  · intro hfits
    obtain ⟨⟨⟨hfp, hfb⟩, hfpp⟩, hfpb⟩ := hfits
    constructor <;>
      simp only [List.length_cons, byteSum_cons, pidCount_cons, pidBytes_cons, if_true] <;> omega
  · intro hfits
    obtain ⟨hfp, hfb, hfpp, hfpb⟩ := hfits
    simp only [List.length_cons, byteSum_cons, pidCount_cons, pidBytes_cons,
      if_true] at hfp hfb hfpp hfpb
    refine ⟨⟨⟨?_, ?_⟩, ?_⟩, ?_⟩ <;> omega

theorem capacity_of_finish (h : queue.finish packet = .ok queue') :
    queue'.capacity = queue.capacity := by
  simp only [finish, bind_eq_ok] at h
  obtain ⟨_, _, _, _, _, _, _, _, _, _, _, _, _, _, _, _, hq⟩ := h
  cases hq
  rfl

theorem capacity_of_releaseMatching {now : Instant} {predicate : PendingPacket → Bool}
    (h : queue.releaseMatching now predicate = .ok queue') : queue'.capacity = queue.capacity := by
  obtain ⟨flows, entries, -, rfl⟩ := releaseMatching_eq_ok.mp h
  rfl

end DelayQueue

namespace Session

/-- The packets that are queued or in flight. -/
def held (s : Session) : List PendingPacket := s.queue.queued ++ s.inFlight

/-- The queue has these limits, and what it holds is within them, whatever the process. -/
structure Bounded (s : Session) (limits : Limits) : Prop where
  valid : s.Valid
  capacity_eq : s.queue.capacity = limits
  allow : ∀ pid, limits.Allow pid s.held

variable {s s' : Session} {limits : Limits}

theorem Valid.accounts (h : s.Valid) : Accounts s.queue s.held s.inFlight := by
  simpa [DelayQueue.Consistent, held] using h.consistent

/-- What `enqueue` answers. -/
theorem Bounded.enqueue (h : s.Bounded limits) (packet : PendingPacket) (deadline : Instant) :
    (limits.Allow packet.pid (packet :: s.held) ∧
        (s.queue.enqueue packet deadline = .ok (true, s.queue.admitted packet deadline) ∨
          2 ^ 64 ≤ s.queue.nextSequence + 1 ∧ s.queue.enqueue packet deadline =
            .error (.sequenceExhausted (s.queue.charge packet deadline)))) ∨
      ¬ limits.Allow packet.pid (packet :: s.held) ∧
        s.queue.enqueue packet deadline = .ok (false, s.queue) := by
  have hfits := DelayQueue.rejects_eq_false_iff h.valid.accounts
    (h.capacity_eq.symm ▸ h.allow packet.pid)
  rw [h.capacity_eq] at hfits
  by_cases hallow : limits.Allow packet.pid (packet :: s.held)
  · refine .inl ⟨hallow, ?_⟩
    rw [DelayQueue.enqueue, hfits.mpr hallow, if_neg Bool.false_ne_true]
    by_cases hseq : s.queue.nextSequence + 1 < 2 ^ 64
    · exact .inl (if_pos hseq)
    · exact .inr ⟨Nat.not_lt.mp hseq, if_neg hseq⟩
  · refine .inr ⟨hallow, ?_⟩
    rw [DelayQueue.enqueue, if_pos (Bool.eq_true_of_not_eq_false (mt hfits.mp hallow))]

theorem start_bounded (bytes packets pidBytes pidPackets : ℕ) :
    (start bytes packets pidBytes pidPackets).Bounded ⟨bytes, packets, pidBytes, pidPackets⟩ where
  valid := start_valid bytes packets pidBytes pidPackets
  capacity_eq := rfl
  allow pid := .nil _ pid

/-- An operation takes a packet within the limits only. -/
theorem Bounded.step (h : s.Bounded limits) {op : QueueOp} (hs : s.step op = .ok s') :
    s'.Bounded limits := by
  have hvalid : s'.Valid := by
    rcases step_follows h.valid op with ⟨s₁, hs₁, hf⟩ | ⟨-, left, hs₁⟩
    · cases hs.symm.trans hs₁
      exact hf.valid
    · cases hs.symm.trans hs₁
  cases op with
  | enqueue packet deadline =>
    rcases h.enqueue packet deadline with ⟨hallow, he | ⟨-, he⟩⟩ | ⟨-, he⟩ <;>
      simp only [Session.step, he, ok_bind] at hs <;> cases hs
    · have hqueued : ((s.queue.admitted packet deadline).queued).Perm (packet :: s.queue.queued) :=
        (MinHeap.push_perm _ _).map _
      refine ⟨hvalid, h.capacity_eq, fun pid => (hallow.cons (h.allow pid)).perm ?_⟩
      exact (hqueued.append_right s.inFlight).symm
    · exact h
  | popDue now =>
    rcases h.valid.consistent.popDue now with he | ⟨entry, heap, state, hpop, -, -, he, -⟩ <;>
      simp only [Session.step, he, ok_bind] at hs <;> cases hs
    · exact h
    · refine ⟨hvalid, h.capacity_eq, fun pid => (h.allow pid).perm ?_⟩
      have hentries := (MinHeap.pop?_eq_some hpop).1
      simp only [held, DelayQueue.queued, DelayQueue.popped, hentries, List.map_cons]
      exact List.perm_middle.symm
  | finish i =>
    cases hi : s.inFlight[i]? with
    | none =>
      simp only [Session.step, hi] at hs
      cases hs
      exact h
    | some packet =>
      simp only [Session.step, hi, bind_eq_ok] at hs
      obtain ⟨queue, hq, hs⟩ := hs
      cases hs
      refine ⟨hvalid, (DelayQueue.capacity_of_finish hq).trans h.capacity_eq, fun pid => ?_⟩
      obtain ⟨hlt, hget⟩ := List.getElem?_eq_some_iff.mp hi
      have hperm : s.held.Perm (packet :: (s.queue.queued ++ s.inFlight.eraseIdx i)) :=
        ((hget ▸ (List.getElem_cons_eraseIdx_perm hlt).symm).append_left _).trans
          List.perm_middle
      simpa [held, DelayQueue.queued, (DelayQueue.finish_eq_ok hq).1] using
        ((h.allow pid).perm hperm).of_cons
  | releaseMatching now predicate =>
    obtain ⟨queue, hq, -, -, horder, -⟩ := DelayQueue.releaseMatching_ordered h.valid.consistent
      h.valid.ordered now predicate
    simp only [Session.step, hq, ok_bind] at hs
    cases hs
    refine ⟨hvalid, (DelayQueue.capacity_of_releaseMatching hq).trans h.capacity_eq, fun pid => ?_⟩
    have hperm : s.queue.queued.Perm queue.queued :=
      s.queue.inOrder_perm.symm.trans (horder ▸ queue.inOrder_perm)
    exact (h.allow pid).perm (hperm.append_right _)

theorem Bounded.run (h : s.Bounded limits) {ops : List QueueOp} (hs : s.run ops = .ok s') :
    s'.Bounded limits := by
  induction ops generalizing s with
  | nil =>
    cases hs
    exact h
  | cons op ops ih =>
    simp only [Session.run, bind_eq_ok] at hs
    obtain ⟨s₁, hs₁, hs⟩ := hs
    exact ih (h.step hs₁) hs

/-- Whatever operations are run, all that is queued or in flight is within the limits, and a packet
is taken exactly if it is so with it; a packet that is not taken changes nothing. Only the
2⁶⁴-th sequence number can fail. -/
theorem run_capacity (bytes packets pidBytes pidPackets : ℕ) (ops : List QueueOp) :
    (∃ s, (start bytes packets pidBytes pidPackets).run ops = .ok s ∧
        (∀ pid, (Limits.mk bytes packets pidBytes pidPackets).Allow pid s.held) ∧
        ∀ packet deadline,
          (∃ taken queue, s.queue.enqueue packet deadline = .ok (taken, queue) ∧
            (taken ↔ (Limits.mk bytes packets pidBytes pidPackets).Allow packet.pid
              (packet :: s.held)) ∧
            (taken = false → queue = s.queue)) ∨
          2 ^ 64 ≤ ops.length + 1 ∧ ∃ left,
            s.queue.enqueue packet deadline = .error (.sequenceExhausted left)) ∨
      2 ^ 64 ≤ ops.length ∧ ∃ left,
        (start bytes packets pidBytes pidPackets).run ops = .error (.sequenceExhausted left) := by
  rcases run_follows (start_valid bytes packets pidBytes pidPackets) ops with
    ⟨s, hs, hf⟩ | ⟨hn, hs⟩
  · have hbounded := (start_bounded bytes packets pidBytes pidPackets).run hs
    refine .inl ⟨s, hs, hbounded.allow, fun packet deadline => ?_⟩
    rcases hbounded.enqueue packet deadline with ⟨hallow, he | ⟨hseq, he⟩⟩ | ⟨hnot, he⟩
    · exact .inl ⟨true, _, he, by simpa using hallow, by simp⟩
    · have hle : s.queue.nextSequence ≤ ops.length := by simpa [start] using hf.nextSequence_le
      exact .inr ⟨by omega, _, he⟩
    · exact .inl ⟨false, _, he, by simpa using hnot, fun _ => rfl⟩
  · exact .inr ⟨by simpa [start] using hn, hs⟩

end Session

end FlowBrake.Windows
