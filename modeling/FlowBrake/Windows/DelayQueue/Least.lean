import Mathlib.Order.Bounds.Basic
import FlowBrake.Windows.DelayQueue.Session

/-! A release gives each packet the least deadline that keeps its flow in order. -/
namespace FlowBrake.Windows
open FlowBrake.Core KeyOrder

namespace DelayQueue

/-- The deadline that a release asks for. -/
def requested (now : Instant) (predicate : PendingPacket → Bool) (entry : Entry) : Instant :=
  if predicate entry.packet then now else entry.deadline

/-- What an entry has to wait for: what is asked for it and for the packets of its flow that were
captured before it, and the flow's tail. -/
def waitsFor (now : Instant) (predicate : PendingPacket → Bool)
    (flows : FlowKey → Option FlowState) (entries : List Entry) (entry : Entry) : Set Instant :=
  {t | (∃ other ∈ entries, other.packet.flow = entry.packet.flow ∧
      other.sequence ≤ entry.sequence ∧ t = requested now predicate other) ∨
    ∃ state, flows entry.packet.flow = some state ∧ t ∈ state.tail}

theorem isGreatest_clampToTail (tail : Option Instant) (deadline : Instant) :
    IsGreatest {t | t = deadline ∨ t ∈ tail} (clampToTail tail deadline) := by
  cases tail with
  | none => exact ⟨.inl rfl, fun t ht => ht.elim le_of_eq fun h => by cases h⟩
  | some tail =>
    refine ⟨?_, fun t ht => ?_⟩
    · rcases max_choice tail deadline with h | h
      · exact .inr (congrArg some h.symm)
      · exact .inl h
    · rcases ht with rfl | ht
      · exact le_max_right _ _
      · cases ht
        exact le_max_left _ _

/-- The loop keeps the entries in their places and gives each the latest time that it has to wait
for. -/
theorem releaseEntries_isGreatest {now : Instant} {predicate : PendingPacket → Bool}
    {entries entries' : List Entry} {flows flows' : FlowKey → Option FlowState}
    (h : releaseEntries now predicate flows entries = .ok (flows', entries'))
    (hseq : entries.Pairwise fun a b => a.sequence < b.sequence) :
    entries'.map (fun e => (e.packet, e.sequence)) = entries.map (fun e => (e.packet, e.sequence)) ∧
      ∀ entry ∈ entries',
        IsGreatest (waitsFor now predicate flows entries entry) entry.deadline := by
  induction entries generalizing flows flows' entries' with
  | nil =>
    cases h
    exact ⟨rfl, by simp⟩
  | cons entry rest ih =>
    simp only [releaseEntries, bind_eq_ok, Prod.exists] at h
    obtain ⟨state, hstate, flows₁, rest', hrest, hq⟩ := h
    cases hq
    have hstate : flows entry.packet.flow = some state := eq_some_of_unwrap hstate
    obtain ⟨hfirst, hseq⟩ := List.pairwise_cons.mp hseq
    obtain ⟨hplaces, hlater⟩ := ih hrest hseq
    set deadline := clampToTail state.tail (if predicate entry.packet then now else entry.deadline)
      with hdeadline
    have hclamp : IsGreatest {t | t = requested now predicate entry ∨ t ∈ state.tail} deadline :=
      isGreatest_clampToTail _ _
    set after : FlowState := { state with tail := some deadline } with hafter
    have hself {flow : FlowKey} (hf : flow = entry.packet.flow) :
        Function.update flows entry.packet.flow (some after) flow = some after := by
      rw [hf, Function.update_self]
    have hother {flow : FlowKey} (hf : flow ≠ entry.packet.flow) :
        Function.update flows entry.packet.flow (some after) flow = flows flow :=
      Function.update_of_ne hf ..
    refine ⟨by rw [List.map_cons, List.map_cons, hplaces], fun e he => ?_⟩
    rcases List.mem_cons.mp he with rfl | he
    · refine ⟨?_, fun t ht => hclamp.2 ?_⟩
      · rcases hclamp.1 with ht | ht
        · exact .inl ⟨entry, List.mem_cons_self, rfl, le_rfl, ht⟩
        · exact .inr ⟨state, hstate, ht⟩
      · rcases ht with ⟨other, hm, -, hle, ht⟩ | ⟨state', hs, ht⟩
        · rcases List.mem_cons.mp hm with rfl | hm
          · exact .inl ht
          · exact absurd (hfirst other hm) (not_lt.mpr hle)
        · cases hstate.symm.trans hs
          exact .inr ht
    · have hlt : entry.sequence < e.sequence := by
        have hm : (e.packet, e.sequence) ∈ rest.map fun e => (e.packet, e.sequence) :=
          hplaces ▸ List.mem_map_of_mem he
        obtain ⟨old, hold, heq⟩ := List.mem_map.mp hm
        exact (Prod.mk.inj heq).2 ▸ hfirst old hold
      obtain ⟨hmem, hupper⟩ := hlater e he
      by_cases hf : e.packet.flow = entry.packet.flow
      · -- The entry's deadline is the tail that the later ones of its flow start from.
        rw [← hf] at hstate
        have htail : deadline ≤ e.deadline := hupper (.inr ⟨after, hself hf, rfl⟩)
        refine ⟨?_, fun t ht => ?_⟩
        · rcases hmem with ⟨other, hm, hwaits⟩ | ⟨state', hs, ht⟩
          · exact .inl ⟨other, List.mem_cons_of_mem _ hm, hwaits⟩
          · cases (hself hf).symm.trans hs
            have ht : deadline = e.deadline := Option.some.inj ht
            rw [← ht]
            rcases hclamp.1 with ht | ht
            · exact .inl ⟨entry, List.mem_cons_self, hf.symm, hlt.le, ht⟩
            · exact .inr ⟨state, hstate, ht⟩
        · rcases ht with ⟨other, hm, hwaits⟩ | ⟨state', hs, ht⟩
          · rcases List.mem_cons.mp hm with rfl | hm
            · exact (hclamp.2 (.inl hwaits.2.2)).trans htail
            · exact hupper (.inl ⟨other, hm, hwaits⟩)
          · cases hstate.symm.trans hs
            exact (hclamp.2 (.inr ht)).trans htail
      · refine ⟨?_, fun t ht => ?_⟩
        · rcases hmem with ⟨other, hm, hwaits⟩ | ⟨state', hs, ht⟩
          · exact .inl ⟨other, List.mem_cons_of_mem _ hm, hwaits⟩
          · exact .inr ⟨state', hother hf ▸ hs, ht⟩
        · rcases ht with ⟨other, hm, hflow, hwaits⟩ | ⟨state', hs, ht⟩
          · rcases List.mem_cons.mp hm with rfl | hm
            · exact absurd hflow.symm hf
            · exact hupper (.inl ⟨other, hm, hflow, hwaits⟩)
          · exact hupper (.inr ⟨state', (hother hf).trans hs, ht⟩)

/-- A flow has a tail in flight exactly while it has packets in flight. -/
def FlightTails (queue : DelayQueue) : Prop :=
  ∀ flow state, queue.flows flow = some state → (state.inFlightTail = none ↔ state.inFlight = 0)

namespace FlightTails

variable {queue queue' : DelayQueue}

theorem withLimits (bytes packets pidBytes pidPackets : ℕ) :
    (DelayQueue.withLimits bytes packets pidBytes pidPackets).FlightTails := by
  intro flow state hs
  cases hs

theorem charge (h : queue.FlightTails) (packet : PendingPacket) (deadline : Instant) :
    (queue.charge packet deadline).FlightTails := by
  intro flow state hs
  by_cases hf : flow = packet.flow
  · subst hf
    simp only [DelayQueue.charge, Function.update_self, Option.some.injEq] at hs
    subst hs
    cases hold : queue.flows packet.flow with
    | none => simp
    | some old => simpa using h _ old hold
  · simp only [DelayQueue.charge, Function.update_of_ne hf] at hs
    exact h flow state hs

theorem popped (h : queue.FlightTails) (entry : Entry) (heap : MinHeap Entry.key)
    (state : FlowState) : (queue.popped entry heap state).FlightTails := by
  intro flow state' hs
  by_cases hf : flow = entry.packet.flow
  · subst hf
    simp only [DelayQueue.popped, Function.update_self, Option.some.injEq] at hs
    subst hs
    simp
  · simp only [DelayQueue.popped, Function.update_of_ne hf] at hs
    exact h flow state' hs

theorem finish (h : queue.FlightTails) {packet : PendingPacket}
    (hq : queue.finish packet = .ok queue') : queue'.FlightTails := by
  simp only [DelayQueue.finish, bind_eq_ok] at hq
  obtain ⟨_, _, _, _, _, _, _, _, _, _, flow, hflow, packets, _, inFlight, hinFlight, hq⟩ := hq
  cases hq
  intro key state hs
  by_cases hk : key = packet.flow
  · subst hk
    dsimp only at hs
    rw [Function.update_self] at hs
    split at hs
    · cases hs
    · cases hs
      have hold := h _ flow (eq_some_of_unwrap hflow)
      by_cases hz : inFlight = 0
      · simp [hz]
      · have hne : flow.inFlight ≠ 0 := by
          unfold checkedSub at hinFlight
          split at hinFlight <;> cases hinFlight
          omega
        simpa [hz] using mt hold.mp hne
  · exact h key state (by simpa [Function.update_of_ne hk] using hs)

theorem of_counts (h : queue.FlightTails) (hcounts : ∀ flow,
    (queue'.flows flow).map FlowState.counts = (queue.flows flow).map FlowState.counts) :
    queue'.FlightTails := by
  intro flow state' hs'
  have hcount := hcounts flow
  rw [hs', Option.map_some] at hcount
  obtain ⟨state, hs, heq⟩ := Option.map_eq_some_iff.mp hcount.symm
  simp only [FlowState.counts, Prod.mk.injEq] at heq
  rw [← heq.2.1, ← heq.2.2]
  exact h flow state hs

end FlightTails

/-- The times of which a release gives a packet the latest: `now` for each selected packet of its
flow up to itself, the deadline of each other one, and the tail of the flow's packets in flight. -/
def releaseTimes (queue : DelayQueue) (now : Instant) (predicate : PendingPacket → Bool)
    (entry : Entry) : Set Instant :=
  {t | (∃ other ∈ queue.heap.entries, other.packet.flow = entry.packet.flow ∧
      other.sequence ≤ entry.sequence ∧ t = requested now predicate other) ∨
    ∃ state, queue.flows entry.packet.flow = some state ∧ 0 < state.inFlight ∧
      t ∈ state.inFlightTail}

/-- Deadlines, by sequence number, that keep the flows in order and hold no packet back that a
release selects. -/
structure OrderPreserving (queue : DelayQueue) (now : Instant) (predicate : PendingPacket → Bool)
    (deadline : ℕ → Instant) : Prop where
  requested_le : ∀ entry ∈ queue.heap.entries,
    requested now predicate entry ≤ deadline entry.sequence
  inFlightTail_le : ∀ entry ∈ queue.heap.entries, ∀ state,
    queue.flows entry.packet.flow = some state → ∀ t ∈ state.inFlightTail,
      t ≤ deadline entry.sequence
  monotone : ∀ a ∈ queue.heap.entries, ∀ b ∈ queue.heap.entries,
    a.packet.flow = b.packet.flow → a.sequence ≤ b.sequence →
      deadline a.sequence ≤ deadline b.sequence

/-- What a release makes of the queue. -/
structure Released (queue : DelayQueue) (now : Instant) (predicate : PendingPacket → Bool)
    (queue' : DelayQueue) : Prop where
  places : (queue'.heap.entries.map fun e => (e.packet, e.sequence)).Perm
    (queue.heap.entries.map fun e => (e.packet, e.sequence))
  isGreatest : ∀ entry ∈ queue'.heap.entries,
    IsGreatest (queue.releaseTimes now predicate entry) entry.deadline
  least : ∀ deadline, queue.OrderPreserving now predicate deadline →
    ∀ entry ∈ queue'.heap.entries, entry.deadline ≤ deadline entry.sequence
  not_earlier : ∀ before ∈ queue.heap.entries, ∀ after ∈ queue'.heap.entries,
    after.sequence = before.sequence → predicate before.packet = false →
      before.deadline ≤ after.deadline
  not_later : ∀ before ∈ queue.heap.entries, ∀ after ∈ queue'.heap.entries,
    after.sequence = before.sequence → after.deadline ≤ max now before.deadline
  untouched : ∀ before ∈ queue.heap.entries, ∀ after ∈ queue'.heap.entries,
    after.sequence = before.sequence →
      (∀ other ∈ queue.heap.entries, other.packet.flow = before.packet.flow →
        predicate other.packet = false) → after.deadline = before.deadline
  ordered : queue'.Ordered
  usage_eq : queue'.usage = queue.usage
  pids_eq : queue'.pids = queue.pids
  counts_eq : ∀ flow,
    (queue'.flows flow).map FlowState.counts = (queue.flows flow).map FlowState.counts
  nextSequence_eq : queue'.nextSequence = queue.nextSequence

section Released
variable {queue queue' : DelayQueue} {now : Instant} {predicate : PendingPacket → Bool}

theorem eq_of_sequence_eq (h : queue.Ordered) {a b : Entry} (ha : a ∈ queue.heap.entries)
    (hb : b ∈ queue.heap.entries) (hs : a.sequence = b.sequence) : a = b :=
  List.inj_on_of_nodup_map h.distinct ha hb hs

theorem deadline_le_of_sequence_le (h : queue.Ordered) {a b : Entry}
    (ha : a ∈ queue.heap.entries) (hb : b ∈ queue.heap.entries)
    (hf : a.packet.flow = b.packet.flow) (hs : a.sequence ≤ b.sequence) :
    a.deadline ≤ b.deadline := by
  rcases hs.lt_or_eq with hlt | heq
  · exact h.deadline_le a ha b hb hf hlt
  · exact (eq_of_sequence_eq h ha hb heq) ▸ le_rfl

theorem requested_le_max (now : Instant) (predicate : PendingPacket → Bool) (entry : Entry) :
    requested now predicate entry ≤ max now entry.deadline := by
  unfold requested
  split
  · exact le_max_left _ _
  · exact le_max_right _ _

/-- The loop starts from the tails in flight. -/
theorem waitsFor_resetTails (hf : queue.FlightTails) (entry : Entry) :
    waitsFor now predicate (resetTails queue.flows) (sortBy Entry.sequence queue.heap.entries)
      entry = queue.releaseTimes now predicate entry := by
  ext t
  simp only [waitsFor, releaseTimes, mem_sortBy]
  refine or_congr_right ⟨fun hstate => ?_, fun hstate => ?_⟩
  · obtain ⟨state, hs, ht⟩ := hstate
    obtain ⟨old, hold, rfl⟩ := Option.map_eq_some_iff.mp hs
    refine ⟨old, hold, Nat.pos_of_ne_zero fun hz => ?_, ht⟩
    rw [(hf _ old hold).mpr hz] at ht
    cases ht
  · obtain ⟨state, hs, -, ht⟩ := hstate
    exact ⟨{ state with tail := state.inFlightTail }, by rw [resetTails, hs, Option.map_some], ht⟩

theorem releaseTimes_congr {a b : Entry} (hp : a.packet = b.packet) (hs : a.sequence = b.sequence) :
    queue.releaseTimes now predicate a = queue.releaseTimes now predicate b := by
  rw [releaseTimes, releaseTimes, hp, hs]

/-- No time that a release may give an entry is after both `now` and the entry's deadline. -/
theorem le_max_of_mem_releaseTimes (h : queue.Ordered) {entry : Entry}
    (hm : entry ∈ queue.heap.entries) {t : Instant}
    (ht : t ∈ queue.releaseTimes now predicate entry) : t ≤ max now entry.deadline := by
  rcases ht with ⟨other, ho, hflow, hle, rfl⟩ | ⟨state, hs, -, ht⟩
  · exact (requested_le_max now predicate other).trans
      (max_le_max_left now (deadline_le_of_sequence_le h ho hm hflow hle))
  · obtain ⟨state', hs', hflight, -⟩ := h.bounds entry hm
    cases hs.symm.trans hs'
    exact (hflight t ht).trans (le_max_right _ _)

/-- Where a flow has no selected packet, its deadlines bound the times. -/
theorem le_of_mem_releaseTimes (h : queue.Ordered) {entry : Entry}
    (hm : entry ∈ queue.heap.entries) (hnone : ∀ other ∈ queue.heap.entries,
      other.packet.flow = entry.packet.flow → predicate other.packet = false) {t : Instant}
    (ht : t ∈ queue.releaseTimes now predicate entry) : t ≤ entry.deadline := by
  rcases ht with ⟨other, ho, hflow, hle, rfl⟩ | ⟨state, hs, -, ht⟩
  · rw [requested, hnone other ho hflow, if_neg Bool.false_ne_true]
    exact deadline_le_of_sequence_le h ho hm hflow hle
  · obtain ⟨state', hs', hflight, -⟩ := h.bounds entry hm
    cases hs.symm.trans hs'
    exact hflight t ht

theorem OrderPreserving.le {deadline : ℕ → Instant}
    (h : queue.OrderPreserving now predicate deadline) {entry : Entry}
    (hm : entry ∈ queue.heap.entries) {t : Instant}
    (ht : t ∈ queue.releaseTimes now predicate entry) : t ≤ deadline entry.sequence := by
  rcases ht with ⟨other, ho, hflow, hle, rfl⟩ | ⟨state, hs, -, ht⟩
  · exact (h.requested_le other ho).trans (h.monotone other ho entry hm hflow hle)
  · exact h.inFlightTail_le entry hm state hs t ht

theorem released_of_releaseMatching {inFlight lost : List PendingPacket}
    (hc : queue.Consistent inFlight lost) (ho : queue.Ordered) (hf : queue.FlightTails)
    (hq : queue.releaseMatching now predicate = .ok queue') :
    queue.Released now predicate queue' := by
  have hordered : queue'.Ordered := by
    obtain ⟨_, hq₂, -, ho', -⟩ := releaseMatching_ordered hc ho now predicate
    cases hq.symm.trans hq₂
    exact ho'
  obtain ⟨flows, entries, he, rfl⟩ := releaseMatching_eq_ok.mp hq
  obtain ⟨_, _, he₂, -, -, hcounts⟩ := hc.releaseEntries now predicate
  cases he.symm.trans he₂
  obtain ⟨hplaces, hgreatest⟩ := releaseEntries_isGreatest he (sortBy_increasing ho.distinct)
  have hperm : ((MinHeap.ofList entries : MinHeap Entry.key).entries.map
      fun e => (e.packet, e.sequence)).Perm
        (queue.heap.entries.map fun e => (e.packet, e.sequence)) :=
    ((MinHeap.ofList_perm entries).map _).trans (hplaces ▸ (sortBy_perm _ _).map _)
  -- The entry that a later one was.
  have hbefore : ∀ after ∈ (MinHeap.ofList entries : MinHeap Entry.key).entries,
      ∃ before ∈ queue.heap.entries, before.packet = after.packet ∧
        before.sequence = after.sequence := by
    intro after hm
    obtain ⟨before, hb, heq⟩ := List.mem_map.mp (hperm.mem_iff.mp (List.mem_map_of_mem hm))
    exact ⟨before, hb, Prod.mk.inj heq⟩
  have hdeadline : ∀ after ∈ (MinHeap.ofList entries : MinHeap Entry.key).entries,
      IsGreatest (queue.releaseTimes now predicate after) after.deadline := by
    intro after hm
    rw [← waitsFor_resetTails hf]
    exact hgreatest after ((MinHeap.ofList_perm entries).mem_iff.mp hm)
  have hsame : ∀ before ∈ queue.heap.entries,
      ∀ after ∈ (MinHeap.ofList entries : MinHeap Entry.key).entries,
        after.sequence = before.sequence →
          IsGreatest (queue.releaseTimes now predicate before) after.deadline := by
    intro before hb after ha hs
    obtain ⟨old, hold, hp, hseq⟩ := hbefore after ha
    cases eq_of_sequence_eq ho hold hb (hseq.trans hs)
    rw [releaseTimes_congr hp hseq]
    exact hdeadline after ha
  exact {
    places := hperm
    isGreatest := hdeadline
    least := by
      intro deadline horder after ha
      obtain ⟨before, hb, -, hs⟩ := hbefore after ha
      exact hs ▸ horder.le hb (hsame before hb after ha hs.symm).1
    not_earlier := by
      intro before hb after ha hs hnot
      refine (hsame before hb after ha hs).2 (.inl ⟨before, hb, rfl, le_rfl, ?_⟩)
      rw [requested, hnot, if_neg Bool.false_ne_true]
    not_later := fun before hb after ha hs =>
      le_max_of_mem_releaseTimes ho hb (hsame before hb after ha hs).1
    untouched := by
      intro before hb after ha hs hnone
      refine le_antisymm (le_of_mem_releaseTimes ho hb hnone (hsame before hb after ha hs).1)
        ((hsame before hb after ha hs).2 (.inl ⟨before, hb, rfl, le_rfl, ?_⟩))
      rw [requested, hnone before hb rfl, if_neg Bool.false_ne_true]
    ordered := hordered
    usage_eq := rfl
    pids_eq := rfl
    counts_eq := hcounts
    nextSequence_eq := rfl }

end Released

end DelayQueue

namespace Session

theorem step_flightTails {s s' : Session} (h : s.Valid) (hf : s.queue.FlightTails) {op : QueueOp}
    (hs : s.step op = .ok s') : s'.queue.FlightTails := by
  cases op with
  | enqueue packet deadline =>
    rcases s.queue.enqueue_cases packet deadline with he | he | ⟨-, he⟩ <;>
      simp only [step, he, ok_bind] at hs <;> cases hs
    · exact hf
    · exact hf.charge packet deadline
  | popDue now =>
    rcases h.consistent.popDue now with he | ⟨entry, heap, state, -, -, -, he, -⟩ <;>
      simp only [step, he, ok_bind] at hs <;> cases hs
    · exact hf
    · exact hf.popped entry heap state
  | finish i =>
    cases hi : s.inFlight[i]? with
    | none =>
      simp only [step, hi] at hs
      cases hs
      exact hf
    | some packet =>
      simp only [step, hi, bind_eq_ok] at hs
      obtain ⟨queue, hq, hs⟩ := hs
      cases hs
      exact hf.finish hq
  | releaseMatching now predicate =>
    obtain ⟨queue, hq, -⟩ := h.consistent.releaseMatching now predicate
    simp only [step, hq, ok_bind] at hs
    cases hs
    exact hf.of_counts
      (DelayQueue.released_of_releaseMatching h.consistent h.ordered hf hq).counts_eq

theorem run_flightTails {s s' : Session} (h : s.Valid) (hf : s.queue.FlightTails)
    {ops : List QueueOp} (hs : s.run ops = .ok s') : s'.queue.FlightTails := by
  induction ops generalizing s with
  | nil =>
    cases hs
    exact hf
  | cons op ops ih =>
    simp only [run, bind_eq_ok] at hs
    obtain ⟨s₁, hs₁, hs⟩ := hs
    rcases step_follows h op with ⟨s₂, hs₂, hfollows⟩ | ⟨-, left, hs₂⟩ <;>
      cases hs₁.symm.trans hs₂
    exact ih hfollows.valid (step_flightTails h hf hs₁) hs

/-- Whatever operations are run, a release succeeds and gives every packet the least deadline that
keeps its flow in order. Only the 2⁶⁴-th sequence number can fail. -/
theorem run_released (bytes packets pidBytes pidPackets : ℕ) (ops : List QueueOp) :
    (∃ s, (start bytes packets pidBytes pidPackets).run ops = .ok s ∧
        ∀ now predicate, ∃ queue, s.queue.releaseMatching now predicate = .ok queue ∧
          s.queue.Released now predicate queue) ∨
      2 ^ 64 ≤ ops.length ∧ ∃ left,
        (start bytes packets pidBytes pidPackets).run ops = .error (.sequenceExhausted left) := by
  have hstart := start_valid bytes packets pidBytes pidPackets
  rcases run_follows hstart ops with ⟨s, hs, hf⟩ | ⟨hn, hs⟩
  · refine .inl ⟨s, hs, fun now predicate => ?_⟩
    have htails := run_flightTails hstart (.withLimits bytes packets pidBytes pidPackets) hs
    obtain ⟨queue, hq, -⟩ := hf.valid.consistent.releaseMatching now predicate
    exact ⟨queue, hq, DelayQueue.released_of_releaseMatching hf.valid.consistent hf.valid.ordered
      htails hq⟩
  · exact .inr ⟨by simpa [start] using hn, hs⟩

end Session

end FlowBrake.Windows
