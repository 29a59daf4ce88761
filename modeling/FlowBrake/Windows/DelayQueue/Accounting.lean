import Mathlib.Algebra.BigOperators.Group.List.Basic
import FlowBrake.Windows.DelayQueue

/-! The queue's counters agree with the packets it holds, queued or in flight, over every
sequence of operations that finishes each popped packet once. -/
namespace FlowBrake.Windows
open FlowBrake.Core KeyOrder

def flowCount (flow : FlowKey) (packets : List PendingPacket) : ℕ :=
  packets.countP (fun packet => packet.flow = flow)

def pidCount (pid : Option UInt32) (packets : List PendingPacket) : ℕ :=
  packets.countP (fun packet => packet.pid = pid)

def byteSum (packets : List PendingPacket) : ℕ :=
  (packets.map (fun packet => packet.bytes.length)).sum

def pidBytes (pid : Option UInt32) (packets : List PendingPacket) : ℕ :=
  byteSum (packets.filter (fun packet => packet.pid = pid))

section Tallies
variable (packet : PendingPacket) (packets : List PendingPacket)

@[simp] theorem flowCount_cons (flow : FlowKey) :
    flowCount flow (packet :: packets) =
      flowCount flow packets + if packet.flow = flow then 1 else 0 := by
  simp [flowCount, List.countP_cons]

@[simp] theorem pidCount_cons (pid : Option UInt32) :
    pidCount pid (packet :: packets) =
      pidCount pid packets + if packet.pid = pid then 1 else 0 := by
  simp [pidCount, List.countP_cons]

@[simp] theorem byteSum_cons :
    byteSum (packet :: packets) = packet.bytes.length + byteSum packets := by
  simp [byteSum]

@[simp] theorem pidBytes_cons (pid : Option UInt32) :
    pidBytes pid (packet :: packets) =
      pidBytes pid packets + if packet.pid = pid then packet.bytes.length else 0 := by
  by_cases h : packet.pid = pid <;> simp [pidBytes, h, Nat.add_comm]

end Tallies

/-- The counters of `queue` are those of the packets `held`, of which `inFlight` are popped
and not yet finished. -/
structure Accounts (queue : DelayQueue) (held inFlight : List PendingPacket) : Prop where
  packets : queue.usage.packets = held.length
  bytes : queue.usage.bytes = byteSum held
  pid_entry : ∀ pid, (queue.pids pid).isSome ↔ 0 < pidCount pid held
  pid_usage : ∀ pid usage, queue.pids pid = some usage →
    usage.packets = pidCount pid held ∧ usage.bytes = pidBytes pid held
  flow_entry : ∀ flow, (queue.flows flow).isSome ↔ 0 < flowCount flow held
  flow_state : ∀ flow state, queue.flows flow = some state →
    state.packets = flowCount flow held ∧ state.inFlight = flowCount flow inFlight

namespace Accounts

variable {queue : DelayQueue} {held held' inFlight inFlight' : List PendingPacket}

theorem perm (h : Accounts queue held inFlight) (hp : held.Perm held')
    (hi : inFlight.Perm inFlight') : Accounts queue held' inFlight' where
  packets := h.packets.trans hp.length_eq
  bytes := h.bytes.trans (hp.map _).sum_eq
  pid_entry pid := by
    rw [h.pid_entry, pidCount, pidCount, hp.countP_eq]
  pid_usage pid usage hu := by
    obtain ⟨hn, hb⟩ := h.pid_usage pid usage hu
    exact ⟨hn.trans (hp.countP_eq _), hb.trans ((hp.filter _).map _).sum_eq⟩
  flow_entry flow := by
    rw [h.flow_entry, flowCount, flowCount, hp.countP_eq]
  flow_state flow state hs := by
    obtain ⟨hn, hf⟩ := h.flow_state flow state hs
    exact ⟨hn.trans (hp.countP_eq _), hf.trans (hi.countP_eq _)⟩

theorem empty (bytes packets pidBytes pidPackets : ℕ) :
    Accounts (.withLimits bytes packets pidBytes pidPackets) [] [] := by
  constructor <;> simp [DelayQueue.withLimits, byteSum, pidCount, flowCount]

theorem flow_isSome (h : Accounts queue held inFlight) {packet : PendingPacket}
    (hm : packet ∈ held) : ∃ state, queue.flows packet.flow = some state := by
  refine Option.isSome_iff_exists.mp ((h.flow_entry packet.flow).mpr ?_)
  exact List.countP_pos_iff.mpr ⟨packet, hm, by simp⟩

theorem pid_isSome (h : Accounts queue held inFlight) {packet : PendingPacket}
    (hm : packet ∈ held) : ∃ usage, queue.pids packet.pid = some usage := by
  refine Option.isSome_iff_exists.mp ((h.pid_entry packet.pid).mpr ?_)
  exact List.countP_pos_iff.mpr ⟨packet, hm, by simp⟩

/-- A missing pid entry reads as zero usage, which is what the pid then holds. -/
theorem pid_getD (h : Accounts queue held inFlight) (pid : Option UInt32) :
    (queue.pids pid).getD {} = { packets := pidCount pid held, bytes := pidBytes pid held } := by
  cases hu : queue.pids pid with
  | some usage =>
    obtain ⟨hn, hb⟩ := h.pid_usage pid usage hu
    simp [← hn, ← hb]
  | none =>
    have hz : pidCount pid held = 0 := by
      have := h.pid_entry pid
      simp only [hu, Option.isSome_none, Bool.false_eq_true, false_iff] at this
      omega
    have he : held.filter (fun packet => packet.pid = pid) = [] := by
      rw [List.filter_eq_nil_iff]
      exact List.countP_eq_zero.mp hz
    simp [hz, pidBytes, he, byteSum]

theorem flow_getD (h : Accounts queue held inFlight) (hsub : ∀ p ∈ inFlight, p ∈ held)
    (flow : FlowKey) :
    ((queue.flows flow).getD {}).packets = flowCount flow held ∧
      ((queue.flows flow).getD {}).inFlight = flowCount flow inFlight := by
  cases hs : queue.flows flow with
  | some state => exact h.flow_state flow state hs
  | none =>
    have hz : flowCount flow held = 0 := by
      have := h.flow_entry flow
      simp only [hs, Option.isSome_none, Bool.false_eq_true, false_iff] at this
      omega
    have hi : flowCount flow inFlight = 0 :=
      List.countP_eq_zero.mpr fun p hp => List.countP_eq_zero.mp hz p (hsub p hp)
    simp [hz, hi]

theorem charge (h : Accounts queue held inFlight) (hsub : ∀ p ∈ inFlight, p ∈ held)
    (packet : PendingPacket) (deadline : Instant) :
    Accounts (queue.charge packet deadline) (packet :: held) inFlight := by
  have hpid := h.pid_getD packet.pid
  obtain ⟨hflow, hfl⟩ := h.flow_getD hsub packet.flow
  constructor
  · simp [DelayQueue.charge, h.packets]
  · simp [DelayQueue.charge, h.bytes, Nat.add_comm]
  · intro pid
    by_cases hp : packet.pid = pid
    · simp [DelayQueue.charge, ← hp]
    · simp [DelayQueue.charge, Function.update_of_ne (Ne.symm hp), h.pid_entry, hp]
  · intro pid usage hu
    by_cases hp : packet.pid = pid
    · subst hp
      simp only [DelayQueue.charge, Function.update_self, Option.some.injEq, hpid] at hu
      simp [← hu]
    · simp only [DelayQueue.charge, Function.update_of_ne (Ne.symm hp)] at hu
      simpa [hp] using h.pid_usage pid usage hu
  · intro flow
    by_cases hp : packet.flow = flow
    · simp [DelayQueue.charge, ← hp]
    · simp [DelayQueue.charge, Function.update_of_ne (Ne.symm hp), h.flow_entry, hp]
  · intro flow state hs
    by_cases hp : packet.flow = flow
    · subst hp
      simp only [DelayQueue.charge, Function.update_self, Option.some.injEq] at hs
      simp [← hs, hflow, hfl]
    · simp only [DelayQueue.charge, Function.update_of_ne (Ne.symm hp)] at hs
      simpa [hp] using h.flow_state flow state hs

/-- Finishing an in-flight packet succeeds and takes it off the books. -/
theorem finish {packet : PendingPacket}
    (h : Accounts queue (packet :: held) (packet :: inFlight)) :
    ∃ queue', queue.finish packet = .ok queue' ∧ Accounts queue' held inFlight ∧
      queue'.heap = queue.heap ∧ queue'.nextSequence = queue.nextSequence := by
  obtain ⟨usage, hu⟩ := h.pid_isSome List.mem_cons_self
  obtain ⟨state, hs⟩ := h.flow_isSome List.mem_cons_self
  obtain ⟨hun, hub⟩ := h.pid_usage _ _ hu
  obtain ⟨hsn, hsf⟩ := h.flow_state _ _ hs
  have hn := h.packets
  have hb := h.bytes
  simp only [pidCount_cons, pidBytes_cons, flowCount_cons, byteSum_cons, List.length_cons,
    if_true] at hun hub hsn hsf hn hb
  refine ⟨{ queue with
    usage := ⟨held.length, byteSum held⟩
    pids := Function.update queue.pids packet.pid
      (if pidCount packet.pid held = 0 then none
        else some ⟨pidCount packet.pid held, pidBytes packet.pid held⟩)
    flows := Function.update queue.flows packet.flow
      (if flowCount packet.flow held = 0 then none
        else some { state with
          packets := flowCount packet.flow held
          inFlight := flowCount packet.flow inFlight
          inFlightTail :=
            if flowCount packet.flow inFlight = 0 then none else state.inFlightTail }) },
    ?_, ?_, rfl, rfl⟩
  · simp [DelayQueue.finish, hu, hs, hn, hb, hun, hub, hsn, hsf]
  · exact {
      packets := rfl
      bytes := rfl
      pid_entry := by
        intro pid
        by_cases hp : packet.pid = pid
        · subst hp
          by_cases hz : pidCount packet.pid held = 0 <;> simp [hz]
          omega
        · simpa [Function.update_of_ne (Ne.symm hp), hp] using h.pid_entry pid
      pid_usage := by
        intro pid usage' hu'
        by_cases hp : packet.pid = pid
        · subst hp
          by_cases hz : pidCount packet.pid held = 0
          · simp [hz] at hu'
          · simp only [Function.update_self, hz, if_false, Option.some.injEq] at hu'
            simp [← hu']
        · simp only [Function.update_of_ne (Ne.symm hp)] at hu'
          simpa [hp] using h.pid_usage pid usage' hu'
      flow_entry := by
        intro flow
        by_cases hp : packet.flow = flow
        · subst hp
          by_cases hz : flowCount packet.flow held = 0 <;> simp [hz]
          omega
        · simpa [Function.update_of_ne (Ne.symm hp), hp] using h.flow_entry flow
      flow_state := by
        intro flow state' hs'
        by_cases hp : packet.flow = flow
        · subst hp
          by_cases hz : flowCount packet.flow held = 0
          · simp [hz] at hs'
          · simp only [Function.update_self, hz, if_false, Option.some.injEq] at hs'
            simp [← hs']
        · simp only [Function.update_of_ne (Ne.symm hp)] at hs'
          simpa [hp] using h.flow_state flow state' hs' }

/-- Popping moves a packet from the queued to the in-flight ones. -/
theorem popped (h : Accounts queue held inFlight) {entry : Entry} {heap : MinHeap Entry.key}
    {state : FlowState} (hs : queue.flows entry.packet.flow = some state) :
    Accounts (queue.popped entry heap state) held (entry.packet :: inFlight) where
  packets := h.packets
  bytes := h.bytes
  pid_entry := h.pid_entry
  pid_usage := h.pid_usage
  flow_entry flow := by
    by_cases hp : entry.packet.flow = flow
    · subst hp
      simpa [DelayQueue.popped, hs] using h.flow_entry entry.packet.flow
    · simpa [DelayQueue.popped, Function.update_of_ne (Ne.symm hp)] using h.flow_entry flow
  flow_state flow state' hs' := by
    by_cases hp : entry.packet.flow = flow
    · subst hp
      obtain ⟨hn, hf⟩ := h.flow_state _ _ hs
      simp only [DelayQueue.popped, Function.update_self, Option.some.injEq] at hs'
      simp [← hs', hn, hf]
    · simp only [DelayQueue.popped, Function.update_of_ne (Ne.symm hp)] at hs'
      simpa [hp] using h.flow_state flow state' hs'

/-- The accounts see only the counts of a flow's state. -/
theorem congr_flows (h : Accounts queue held inFlight) {queue' : DelayQueue}
    (husage : queue'.usage = queue.usage) (hpids : queue'.pids = queue.pids)
    (hflows : ∀ flow, (queue'.flows flow).map FlowState.counts =
      (queue.flows flow).map FlowState.counts) : Accounts queue' held inFlight where
  packets := husage ▸ h.packets
  bytes := husage ▸ h.bytes
  pid_entry := hpids ▸ h.pid_entry
  pid_usage := hpids ▸ h.pid_usage
  flow_entry flow := by
    rw [← h.flow_entry flow, ← Option.isSome_map (f := FlowState.counts), hflows,
      Option.isSome_map]
  flow_state flow state' hs' := by
    have hc := hflows flow
    rw [hs', Option.map_some] at hc
    obtain ⟨state, hs, hcounts⟩ := Option.map_eq_some_iff.mp hc.symm
    obtain ⟨hn, hf⟩ := h.flow_state flow state hs
    simp only [FlowState.counts, Prod.mk.injEq] at hcounts
    exact ⟨hcounts.1 ▸ hn, hcounts.2.1 ▸ hf⟩

end Accounts

theorem DelayQueue.releaseEntries_eq_ok (now : Instant) (predicate : PendingPacket → Bool)
    (entries : List Entry) (flows : FlowKey → Option FlowState)
    (h : ∀ entry ∈ entries, (flows entry.packet.flow).isSome) :
    ∃ flows' entries', releaseEntries now predicate flows entries = .ok (flows', entries') ∧
      entries'.map (·.packet) = entries.map (·.packet) ∧
      entries'.map (·.sequence) = entries.map (·.sequence) ∧
      ∀ flow, (flows' flow).map FlowState.counts = (flows flow).map FlowState.counts := by
  induction entries generalizing flows with
  | nil => exact ⟨flows, [], rfl, rfl, rfl, fun _ => rfl⟩
  | cons entry rest ih =>
    obtain ⟨state, hs⟩ := Option.isSome_iff_exists.mp (h entry List.mem_cons_self)
    set deadline := clampToTail state.tail (if predicate entry.packet then now else entry.deadline)
    obtain ⟨flows', rest', he, hp, hq, hc⟩ := ih
      (Function.update flows entry.packet.flow (some { state with tail := some deadline })) (by
        intro other ho
        by_cases hk : other.packet.flow = entry.packet.flow
        · simp [hk]
        · simpa [Function.update_of_ne hk] using h other (List.mem_cons_of_mem _ ho))
    refine ⟨flows', { entry with deadline } :: rest', ?_, by simp [hp], by simp [hq], ?_⟩
    · simp only [releaseEntries, hs, unwrap_some, ok_bind]
      rw [he]
      rfl
    · intro flow
      rw [hc]
      by_cases hk : flow = entry.packet.flow
      · simp [hk, hs, FlowState.counts]
      · rw [Function.update_of_ne hk]

/-- The counters of `queue` are those of its queued packets, the ones in flight, and the ones
`lost` to an exhausted sequence after they were charged. -/
def DelayQueue.Consistent (queue : DelayQueue) (inFlight lost : List PendingPacket) : Prop :=
  Accounts queue (queue.queued ++ (inFlight ++ lost)) inFlight

namespace DelayQueue.Consistent

variable {queue : DelayQueue} {inFlight inFlight' lost : List PendingPacket}

theorem withLimits (bytes packets pidBytes pidPackets : ℕ) :
    (DelayQueue.withLimits bytes packets pidBytes pidPackets).Consistent [] [] :=
  .empty bytes packets pidBytes pidPackets

theorem perm (h : queue.Consistent inFlight lost) (hp : inFlight.Perm inFlight') :
    queue.Consistent inFlight' lost :=
  Accounts.perm h ((hp.append_right lost).append_left _) hp

theorem charge (h : queue.Consistent inFlight lost) (packet : PendingPacket)
    (deadline : Instant) :
    Accounts (queue.charge packet deadline) (packet :: (queue.queued ++ (inFlight ++ lost)))
      inFlight :=
  Accounts.charge h (fun p hp => by simp [hp]) packet deadline

/-- The queue an exhausted sequence leaves behind. -/
theorem charge_lost (h : queue.Consistent inFlight lost) (packet : PendingPacket)
    (deadline : Instant) : (queue.charge packet deadline).Consistent inFlight (packet :: lost) := by
  refine (h.charge packet deadline).perm ?_ (.refl _)
  have hp : (packet :: (queue.queued ++ inFlight ++ lost)).Perm
      (queue.queued ++ inFlight ++ packet :: lost) := List.perm_middle.symm
  simp only [List.append_assoc] at hp
  exact hp

theorem admitted (h : queue.Consistent inFlight lost) (packet : PendingPacket)
    (deadline : Instant) : (queue.admitted packet deadline).Consistent inFlight lost := by
  have hperm : ((queue.admitted packet deadline).queued).Perm (packet :: queue.queued) :=
    (MinHeap.push_perm _ _).map _
  exact ((h.charge packet deadline).perm (hperm.symm.append_right _) (.refl _)).congr_flows
    rfl rfl fun _ => rfl

/-- An entry's flow is in the map, so `popDue` does not fail. -/
theorem popDue (h : queue.Consistent inFlight lost) (now : Instant) :
    queue.popDue now = .ok (none, queue) ∨
      ∃ entry heap state, queue.heap.pop? = some (entry, heap) ∧ entry.deadline ≤ now ∧
        queue.flows entry.packet.flow = some state ∧
        queue.popDue now = .ok (some entry.packet, queue.popped entry heap state) ∧
        (queue.popped entry heap state).Consistent (entry.packet :: inFlight) lost := by
  rcases queue.popDue_cases now with hnone | ⟨entry, heap, hpop, hd, heq⟩
  · exact .inl hnone
  · obtain ⟨hentries, -⟩ := MinHeap.pop?_eq_some hpop
    have hm : entry.packet ∈ queue.queued ++ (inFlight ++ lost) := by simp [queued, hentries]
    obtain ⟨state, hs⟩ := h.flow_isSome hm
    refine .inr ⟨entry, heap, state, hpop, hd, hs, by simp [heq, hs], ?_⟩
    refine (Accounts.popped h hs).perm ?_ (.refl _)
    have hq : queue.queued = entry.packet :: (queue.popped entry heap state).queued := by
      simp [queued, hentries, DelayQueue.popped]
    rw [hq]
    exact List.perm_middle.symm

theorem finish {packet : PendingPacket} (h : queue.Consistent (packet :: inFlight) lost) :
    ∃ queue', queue.finish packet = .ok queue' ∧ queue'.Consistent inFlight lost := by
  obtain ⟨queue', hq, hacc, hheap, -⟩ := Accounts.finish
    (Accounts.perm h List.perm_middle (.refl _))
  refine ⟨queue', hq, ?_⟩
  simpa [Consistent, queued, hheap] using hacc

/-- Every queued packet's flow is in the map, so rebuilding the deadlines does not fail. -/
theorem releaseEntries (h : queue.Consistent inFlight lost) (now : Instant)
    (predicate : PendingPacket → Bool) :
    ∃ flows entries, DelayQueue.releaseEntries now predicate (resetTails queue.flows)
        (sortBy Entry.sequence queue.heap.entries) = .ok (flows, entries) ∧
      entries.map (·.packet) = queue.inOrder ∧
      entries.map (·.sequence) = (sortBy Entry.sequence queue.heap.entries).map (·.sequence) ∧
      ∀ flow, (flows flow).map FlowState.counts = (queue.flows flow).map FlowState.counts := by
  obtain ⟨flows, entries, he, hp, hs, hc⟩ := releaseEntries_eq_ok now predicate
    (sortBy Entry.sequence queue.heap.entries) (resetTails queue.flows) (by
      intro entry hm
      have hm : entry.packet ∈ queue.queued ++ (inFlight ++ lost) :=
        List.mem_append_left _ (List.mem_map_of_mem ((mem_sortBy _ _ _).mp hm))
      obtain ⟨state, hs⟩ := h.flow_isSome hm
      simp [resetTails, hs])
  refine ⟨flows, entries, he, hp, hs, fun flow => (hc flow).trans ?_⟩
  cases hs : queue.flows flow <;> simp [resetTails, hs, FlowState.counts]

theorem releaseMatching (h : queue.Consistent inFlight lost) (now : Instant)
    (predicate : PendingPacket → Bool) :
    ∃ queue', queue.releaseMatching now predicate = .ok queue' ∧
      queue'.Consistent inFlight lost := by
  obtain ⟨flows, entries, he, hp, -, hc⟩ := h.releaseEntries now predicate
  refine ⟨_, releaseMatching_eq_ok.mpr ⟨flows, entries, he, rfl⟩, ?_⟩
  have hperm : (({ queue with flows, heap := .ofList entries } : DelayQueue).queued).Perm
      queue.queued := by
    refine ((MinHeap.ofList_perm entries).map _).trans ?_
    rw [hp]
    exact queue.inOrder_perm
  exact (Accounts.perm h (hperm.symm.append_right _) (.refl _)).congr_flows rfl rfl hc

theorem usage_packets (h : queue.Consistent inFlight lost) :
    queue.usage.packets = queue.inOrder.length + inFlight.length + lost.length := by
  have := h.packets
  rw [List.length_append, List.length_append, ← queue.inOrder_perm.length_eq] at this
  omega

/-- A flow without an entry has no packet waiting or in flight. -/
theorem not_mem_of_flows_eq_none (h : queue.Consistent inFlight lost) {packet : PendingPacket}
    (hf : queue.flows packet.flow = none) : packet ∉ queue.queued ∧ packet ∉ inFlight := by
  have hm : packet ∉ queue.queued ++ (inFlight ++ lost) := by
    intro hm
    obtain ⟨state, hs⟩ := h.flow_isSome hm
    simp [hf] at hs
  simp only [List.mem_append, not_or] at hm
  exact ⟨hm.1, hm.2.1⟩

end DelayQueue.Consistent

end FlowBrake.Windows
