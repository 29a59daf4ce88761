import FlowBrake.Windows.DelayQueue.Accounting

/-! Deadlines never reorder a flow: within a flow they follow the sequence numbers. -/
namespace FlowBrake.Windows
open FlowBrake.Core KeyOrder

namespace DelayQueue

/-- Within a flow, deadlines are nondecreasing in the sequence number, none is below the tail
of the packets in flight, and the flow's tail bounds them all. -/
structure Ordered (queue : DelayQueue) : Prop where
  distinct : (queue.heap.entries.map Entry.sequence).Nodup
  fresh : ∀ entry ∈ queue.heap.entries, entry.sequence < queue.nextSequence
  deadline_le : ∀ a ∈ queue.heap.entries, ∀ b ∈ queue.heap.entries,
    a.packet.flow = b.packet.flow → a.sequence < b.sequence → a.deadline ≤ b.deadline
  bounds : ∀ entry ∈ queue.heap.entries, ∃ state,
    queue.flows entry.packet.flow = some state ∧
      (∀ t ∈ state.inFlightTail, t ≤ entry.deadline) ∧
      ∃ tail ∈ state.tail, entry.deadline ≤ tail
  inFlightTail_le : ∀ flow state, queue.flows flow = some state →
    ∀ t ∈ state.inFlightTail, ∃ tail ∈ state.tail, t ≤ tail

def waiting (queue : DelayQueue) (flow : FlowKey) : List PendingPacket :=
  queue.inOrder.filter (fun packet => packet.flow = flow)

theorem le_clampToTail (tail : Option Instant) (deadline : Instant) :
    deadline ≤ clampToTail tail deadline := by
  cases tail <;> simp [clampToTail]

theorem tail_le_clampToTail {tail : Option Instant} {t : Instant} (h : t ∈ tail)
    (deadline : Instant) : t ≤ clampToTail tail deadline := by
  cases h
  simp [clampToTail]

end DelayQueue

namespace DelayQueue.Ordered

variable {queue queue' : DelayQueue} {packet : PendingPacket}

theorem withLimits (bytes packets pidBytes pidPackets : ℕ) :
    (DelayQueue.withLimits bytes packets pidBytes pidPackets).Ordered := by
  constructor <;> simp [DelayQueue.withLimits]

/-- An accepted packet is due no earlier than any queued packet of its flow. -/
theorem le_admitDeadline (h : queue.Ordered) (deadline : Instant) {entry : Entry}
    (hm : entry ∈ queue.heap.entries) (hf : entry.packet.flow = packet.flow) :
    entry.deadline ≤ queue.admitDeadline packet deadline := by
  obtain ⟨state, hs, -, tail, ht, hle⟩ := h.bounds entry hm
  rw [hf] at hs
  refine hle.trans ?_
  rw [admitDeadline, hs]
  exact tail_le_clampToTail ht deadline

theorem inFlightTail_le_admitDeadline (h : queue.Ordered) (packet : PendingPacket)
    (deadline : Instant) : ∀ t ∈ ((queue.flows packet.flow).getD {}).inFlightTail,
      t ≤ queue.admitDeadline packet deadline := by
  cases hs : queue.flows packet.flow with
  | none => simp
  | some state =>
    intro t ht
    obtain ⟨tail, htail, hle⟩ := h.inFlightTail_le _ _ hs t ht
    rw [admitDeadline, hs]
    exact hle.trans (tail_le_clampToTail htail deadline)

theorem charge (h : queue.Ordered) (packet : PendingPacket) (deadline : Instant) :
    (queue.charge packet deadline).Ordered where
  distinct := h.distinct
  fresh := h.fresh
  deadline_le := h.deadline_le
  bounds entry hm := by
    by_cases hf : entry.packet.flow = packet.flow
    · obtain ⟨state, hs, hfl, -⟩ := h.bounds entry hm
      rw [hf] at hs ⊢
      exact ⟨_, Function.update_self .., by simpa [hs] using hfl, _, rfl,
        h.le_admitDeadline deadline hm hf⟩
    · simpa [DelayQueue.charge, Function.update_of_ne hf] using h.bounds entry hm
  inFlightTail_le flow state hs t ht := by
    by_cases hf : flow = packet.flow
    · subst hf
      simp only [DelayQueue.charge, Function.update_self, Option.some.injEq] at hs
      subst hs
      exact ⟨_, rfl, h.inFlightTail_le_admitDeadline packet deadline t ht⟩
    · simp only [DelayQueue.charge, Function.update_of_ne hf] at hs
      exact h.inFlightTail_le flow state hs t ht

theorem admitted (h : queue.Ordered) (packet : PendingPacket) (deadline : Instant) :
    (queue.admitted packet deadline).Ordered where
  distinct := by
    have hp : ((queue.admitted packet deadline).heap.entries.map Entry.sequence).Perm
        (queue.nextSequence :: queue.heap.entries.map Entry.sequence) :=
      (MinHeap.push_perm _ _).map Entry.sequence
    rw [hp.nodup_iff, List.nodup_cons]
    refine ⟨?_, h.distinct⟩
    simp only [List.mem_map, not_exists, not_and]
    exact fun entry hm => (h.fresh entry hm).ne
  fresh entry hm := by
    rcases (MinHeap.mem_push _ _ _).mp hm with rfl | hm
    · exact Nat.lt_succ_self _
    · exact (h.fresh entry hm).trans (Nat.lt_succ_self _)
  deadline_le a ha b hb hf hlt := by
    rcases (MinHeap.mem_push _ _ _).mp ha with rfl | ha <;>
      rcases (MinHeap.mem_push _ _ _).mp hb with rfl | hb
    · exact le_rfl
    · exact absurd (h.fresh b hb) (Nat.not_lt.mpr (Nat.le_of_lt hlt))
    · exact h.le_admitDeadline deadline ha hf
    · exact h.deadline_le a ha b hb hf hlt
  bounds entry hm := by
    rcases (MinHeap.mem_push _ _ _).mp hm with rfl | hm
    · exact ⟨_, Function.update_self .., h.inFlightTail_le_admitDeadline packet deadline, _, rfl,
        le_rfl⟩
    · exact (h.charge packet deadline).bounds entry hm
  inFlightTail_le := (h.charge packet deadline).inFlightTail_le

/-- An accepted packet goes last. -/
theorem sortBy_admitted (h : queue.Ordered) (packet : PendingPacket) (deadline : Instant) :
    sortBy Entry.sequence (queue.admitted packet deadline).heap.entries =
      sortBy Entry.sequence queue.heap.entries ++
        [⟨packet, queue.admitDeadline packet deadline, queue.nextSequence⟩] :=
  sortBy_append_max (MinHeap.push_perm _ _) h.distinct h.fresh

theorem inOrder_admitted (h : queue.Ordered) (packet : PendingPacket) (deadline : Instant) :
    (queue.admitted packet deadline).inOrder = queue.inOrder ++ [packet] := by
  simp [inOrder, h.sortBy_admitted]

/-- The popped entry is the oldest queued one of its flow. -/
theorem sortBy_popped (h : queue.Ordered) {entry : Entry} {heap : MinHeap Entry.key}
    (hpop : queue.heap.pop? = some (entry, heap)) (flow : FlowKey) :
    (sortBy Entry.sequence queue.heap.entries).filter (fun e => e.packet.flow = flow) =
      (if entry.packet.flow = flow then [entry] else []) ++
        (sortBy Entry.sequence heap.entries).filter (fun e => e.packet.flow = flow) := by
  obtain ⟨hentries, hmin⟩ := MinHeap.pop?_eq_some hpop
  have hperm : queue.heap.entries.Perm (entry :: heap.entries) := .of_eq hentries
  by_cases hf : entry.packet.flow = flow
  · rw [filter_sortBy_min hperm h.distinct (by simp [hf])]
    · simp [hf]
    · intro b hb hbf
      have hne : entry.sequence ≠ b.sequence := by
        have hd := h.distinct
        rw [hentries, List.map_cons, List.nodup_cons] at hd
        exact fun he => hd.1 (he ▸ List.mem_map_of_mem hb)
      rcases lt_or_gt_of_ne hne with hlt | hgt
      · exact hlt
      · have hle := h.deadline_le b (by simp [hentries, hb]) entry (by simp [hentries])
          (by simpa [hf] using hbf) hgt
        rcases Entry.key_le_key.mp (hmin b hb) with hlt | ⟨-, hseq⟩
        · exact absurd hle (Nat.not_le.mpr hlt)
        · exact absurd hgt (Nat.not_lt.mpr hseq)
  · rw [filter_sortBy_of_not hperm h.distinct (by simp [hf])]
    simp [hf]

theorem waiting_popped (h : queue.Ordered) {entry : Entry} {heap : MinHeap Entry.key}
    (hpop : queue.heap.pop? = some (entry, heap)) (state : FlowState) (flow : FlowKey) :
    queue.waiting flow = (if entry.packet.flow = flow then [entry.packet] else []) ++
      (queue.popped entry heap state).waiting flow := by
  have hfilter (entries : List Entry) :
      ((sortBy Entry.sequence entries).map (·.packet)).filter (fun packet => packet.flow = flow) =
        ((sortBy Entry.sequence entries).filter (fun entry => entry.packet.flow = flow)).map
          (·.packet) := by
    simp [List.filter_map, Function.comp_def]
  simp only [waiting, inOrder, hfilter, DelayQueue.popped, h.sortBy_popped hpop]
  split <;> simp

theorem popped (h : queue.Ordered) {entry : Entry} {heap : MinHeap Entry.key}
    {state : FlowState} (hpop : queue.heap.pop? = some (entry, heap))
    (hs : queue.flows entry.packet.flow = some state) :
    (queue.popped entry heap state).Ordered := by
  obtain ⟨hentries, hmin⟩ := MinHeap.pop?_eq_some hpop
  have hsub : ∀ e ∈ heap.entries, e ∈ queue.heap.entries := fun e he => by simp [hentries, he]
  obtain ⟨state', hs', -, tail, htail, hle⟩ := h.bounds entry (by simp [hentries])
  cases hs.symm.trans hs'
  have hdistinct := h.distinct
  rw [hentries, List.map_cons, List.nodup_cons] at hdistinct
  exact {
    distinct := hdistinct.2
    fresh := fun e he => h.fresh e (hsub e he)
    deadline_le := fun a ha b hb => h.deadline_le a (hsub a ha) b (hsub b hb)
    bounds := by
      intro e he
      by_cases hf : e.packet.flow = entry.packet.flow
      · obtain ⟨_, hse, -, tail', htail', hle'⟩ := h.bounds e (hsub e he)
        rw [hf, hs] at hse
        cases hse
        rw [hf]
        refine ⟨_, Function.update_self .., ?_, tail', htail', hle'⟩
        rintro t ⟨⟩
        rcases Entry.key_le_key.mp (hmin e he) with hlt | ⟨heq, -⟩
        · exact Nat.le_of_lt hlt
        · exact Nat.le_of_eq heq
      · simpa [DelayQueue.popped, Function.update_of_ne hf] using h.bounds e (hsub e he)
    inFlightTail_le := by
      intro flow state' hs'
      by_cases hf : flow = entry.packet.flow
      · subst hf
        simp only [DelayQueue.popped, Function.update_self, Option.some.injEq] at hs'
        subst hs'
        rintro t ⟨⟩
        exact ⟨tail, htail, hle⟩
      · simp only [DelayQueue.popped, Function.update_of_ne hf] at hs'
        exact h.inFlightTail_le flow state' hs' }

/-- Finishing removes a flow's state only together with the last of its packets. -/
theorem finish (h : queue.Ordered) {inFlight lost : List PendingPacket}
    (hq : queue.finish packet = .ok queue') (hc : queue'.Consistent inFlight lost) :
    queue'.Ordered := by
  obtain ⟨hheap, hnext, hflows⟩ := finish_eq_ok hq
  exact {
    distinct := hheap ▸ h.distinct
    fresh := hheap ▸ hnext ▸ h.fresh
    deadline_le := hheap ▸ h.deadline_le
    bounds := by
      intro entry hm
      have hm' : entry.packet ∈ queue'.queued ++ (inFlight ++ lost) :=
        List.mem_append_left _ (List.mem_map_of_mem hm)
      obtain ⟨state', hs'⟩ := hc.flow_isSome hm'
      obtain ⟨state, hs, htail, hfl⟩ := hflows _ _ hs'
      obtain ⟨_, hs₀, hle, tail, ht, hlt⟩ := h.bounds entry (hheap ▸ hm)
      cases hs.symm.trans hs₀
      exact ⟨state', hs', fun t ht => hle t (hfl t ht), tail, htail ▸ ht, hlt⟩
    inFlightTail_le := by
      intro flow state' hs' t ht
      obtain ⟨state, hs, htail, hfl⟩ := hflows _ _ hs'
      rw [htail]
      exact h.inFlightTail_le flow state hs t (hfl t ht) }

end DelayQueue.Ordered

namespace DelayQueue

/-- Rebuilding the deadlines in sequence order keeps each flow's nondecreasing, from the tail
the flow starts with to the one it ends with. -/
theorem releaseEntries_ordered {now : Instant} {predicate : PendingPacket → Bool}
    {entries entries' : List Entry} {flows flows' : FlowKey → Option FlowState}
    (h : releaseEntries now predicate flows entries = .ok (flows', entries')) :
    (∀ flow state, flows flow = some state → ∀ t ∈ state.tail,
        ∃ state', flows' flow = some state' ∧ ∃ tail ∈ state'.tail, t ≤ tail) ∧
      entries'.Pairwise (fun a b => a.packet.flow = b.packet.flow → a.deadline ≤ b.deadline) ∧
      (∀ entry ∈ entries', ∃ state', flows' entry.packet.flow = some state' ∧
        ∃ tail ∈ state'.tail, entry.deadline ≤ tail) ∧
      ∀ entry ∈ entries', ∀ state, flows entry.packet.flow = some state →
        ∀ t ∈ state.tail, t ≤ entry.deadline := by
  induction entries generalizing flows flows' entries' with
  | nil =>
    cases h
    exact ⟨fun _ state hs t ht => ⟨state, hs, t, ht, le_rfl⟩, .nil, by simp, by simp⟩
  | cons entry rest ih =>
    simp only [releaseEntries, bind_eq_ok, Prod.exists] at h
    obtain ⟨state, hstate, flows₁, rest', hrest, hq⟩ := h
    cases hq
    have hstate : flows entry.packet.flow = some state := by
      cases hs : flows entry.packet.flow with
      | none => simp [hs, unwrap] at hstate
      | some s => simpa [hs] using hstate
    obtain ⟨hmono, hpair, htail, hlow⟩ := ih hrest
    set deadline := clampToTail state.tail (if predicate entry.packet then now else entry.deadline)
    have hself : Function.update flows entry.packet.flow (some { state with tail := some deadline })
        entry.packet.flow = some { state with tail := some deadline } := Function.update_self ..
    have hother {flow : FlowKey} (hf : flow ≠ entry.packet.flow) :
        Function.update flows entry.packet.flow (some { state with tail := some deadline }) flow =
          flows flow := Function.update_of_ne hf ..
    have hclamp : ∀ t ∈ state.tail, t ≤ deadline := fun t ht => tail_le_clampToTail ht _
    refine ⟨?_, ?_, ?_, ?_⟩
    · intro flow state' hs t ht
      by_cases hf : flow = entry.packet.flow
      · subst hf
        cases hstate.symm.trans hs
        obtain ⟨state₁, hs₁, tail, htl, hle⟩ := hmono _ _ hself deadline rfl
        exact ⟨state₁, hs₁, tail, htl, (hclamp t ht).trans hle⟩
      · exact hmono flow state' (hother hf ▸ hs) t ht
    · refine List.pairwise_cons.mpr ⟨fun b hb hf => ?_, hpair⟩
      exact hlow b hb { state with tail := some deadline } (hf ▸ hself) deadline rfl
    · intro e he
      rcases List.mem_cons.mp he with rfl | he
      · exact hmono _ _ hself deadline rfl
      · exact htail e he
    · intro e he state' hs t ht
      rcases List.mem_cons.mp he with rfl | he
      · cases hstate.symm.trans hs
        exact hclamp t ht
      · by_cases hf : e.packet.flow = entry.packet.flow
        · rw [hf] at hs
          cases hstate.symm.trans hs
          exact (hclamp t ht).trans
            (hlow e he { state with tail := some deadline } (hf ▸ hself) deadline rfl)
        · exact hlow e he state' (hother hf ▸ hs) t ht

/-- A release leaves the entries in their order. -/
theorem increasing_of_releaseEntries {queue : DelayQueue} {inFlight lost : List PendingPacket}
    (hc : queue.Consistent inFlight lost) (h : queue.Ordered) {now : Instant}
    {predicate : PendingPacket → Bool} {flows : FlowKey → Option FlowState} {entries : List Entry}
    (he : releaseEntries now predicate (resetTails queue.flows)
      (sortBy Entry.sequence queue.heap.entries) = .ok (flows, entries)) :
    entries.Pairwise (fun a b => a.sequence < b.sequence) := by
  obtain ⟨_, _, he₂, -, hseqs, -⟩ := hc.releaseEntries now predicate
  cases he.symm.trans he₂
  rw [← List.pairwise_map (f := Entry.sequence) (R := (· < ·)), hseqs, List.pairwise_map]
  exact sortBy_increasing h.distinct

/-- A release keeps the queue's order, its accounts, and no packet changes places. -/
theorem releaseMatching_ordered {queue : DelayQueue} {inFlight lost : List PendingPacket}
    (hc : queue.Consistent inFlight lost) (h : queue.Ordered) (now : Instant)
    (predicate : PendingPacket → Bool) :
    ∃ queue', queue.releaseMatching now predicate = .ok queue' ∧
      queue'.Consistent inFlight lost ∧ queue'.Ordered ∧ queue'.inOrder = queue.inOrder ∧
      queue'.nextSequence = queue.nextSequence := by
  obtain ⟨queue', hq, hc'⟩ := hc.releaseMatching now predicate
  refine ⟨queue', hq, hc', ?_⟩
  obtain ⟨flows, entries, he, rfl⟩ := releaseMatching_eq_ok.mp hq
  obtain ⟨hmono, hpair, htail, hlow⟩ := releaseEntries_ordered he
  obtain ⟨_, _, he₂, hpackets, hseqs, hcounts⟩ := hc.releaseEntries now predicate
  cases he.symm.trans he₂
  have hincr := increasing_of_releaseEntries hc h he
  have hperm : (MinHeap.ofList entries : MinHeap Entry.key).entries.Perm entries :=
    MinHeap.ofList_perm entries
  have hseqPerm : (entries.map Entry.sequence).Perm (queue.heap.entries.map Entry.sequence) :=
    (List.Perm.of_eq hseqs).trans ((sortBy_perm _ _).map _)
  have hreset : ∀ flow state', flows flow = some state' → ∃ state,
      resetTails queue.flows flow = some state ∧ state.tail = state'.inFlightTail := by
    intro flow state' hs'
    have hc := hcounts flow
    rw [hs', Option.map_some] at hc
    obtain ⟨state, hs, hcounts⟩ := Option.map_eq_some_iff.mp hc.symm
    simp only [FlowState.counts, Prod.mk.injEq] at hcounts
    exact ⟨{ state with tail := state.inFlightTail }, by simp [resetTails, hs], hcounts.2.2⟩
  refine ⟨?_, ?_, rfl⟩
  · exact {
      distinct := ((hperm.map _).trans hseqPerm).nodup_iff.mpr h.distinct
      fresh := by
        intro entry hm
        obtain ⟨old, hold, heq⟩ := List.mem_map.mp
          (hseqPerm.mem_iff.mp (List.mem_map_of_mem (hperm.mem_iff.mp hm)))
        exact heq ▸ h.fresh old hold
      deadline_le := by
        intro a ha b hb hf hlt
        exact of_increasing hpair hincr (hperm.mem_iff.mp ha) (hperm.mem_iff.mp hb) hlt hf
      bounds := by
        intro entry hm
        have hm := hperm.mem_iff.mp hm
        obtain ⟨state', hs', tail, ht, hle⟩ := htail entry hm
        obtain ⟨state, hs, heq⟩ := hreset _ _ hs'
        exact ⟨state', hs', fun t ht => hlow entry hm state hs t (heq ▸ ht), tail, ht, hle⟩
      inFlightTail_le := by
        intro flow state' hs' t ht
        obtain ⟨state, hs, heq⟩ := hreset _ _ hs'
        obtain ⟨state₁, hs₁, tail, htail, hle⟩ := hmono flow state hs t (heq ▸ ht)
        cases hs'.symm.trans hs₁
        exact ⟨tail, htail, hle⟩ }
  · rw [inOrder, sortBy_eq hperm.symm hincr]
    exact hpackets

end DelayQueue

end FlowBrake.Windows
