import FlowBrake.Windows.DelayQueue.Order

/-! How late the queue's entries may be due: only an entry that is delayed holds up later ones. -/
namespace FlowBrake.Windows
open FlowBrake.Core KeyOrder

namespace DelayQueue

/-- No packet in flight was due after `now`. -/
def FlightDue (queue : DelayQueue) (now : Instant) : Prop :=
  ∀ flow state, queue.flows flow = some state → ∀ t ∈ state.inFlightTail, t ≤ now

/-- Neither an entry nor a flow's tail is after `now`. -/
structure Due (queue : DelayQueue) (now : Instant) : Prop where
  entries : ∀ entry ∈ queue.heap.entries, entry.deadline ≤ now
  tails : ∀ flow state, queue.flows flow = some state → ∀ t ∈ state.tail, t ≤ now

/-- A tail after `now` is that of an entry. -/
def Backed (queue : DelayQueue) (now : Instant) : Prop :=
  ∀ flow state, queue.flows flow = some state → ∀ t ∈ state.tail,
    t ≤ now ∨ ∃ entry ∈ queue.heap.entries, entry.packet.flow = flow ∧ t ≤ entry.deadline

/-- An earlier entry of the flow that is itself delayed holds `entry` up. -/
def HeldUp (queue : DelayQueue) (delayed : PendingPacket → Bool) (entry : Entry) : Prop :=
  ∃ earlier ∈ queue.heap.entries, earlier.packet.flow = entry.packet.flow ∧
    earlier.sequence < entry.sequence ∧ delayed earlier.packet ∧ entry.deadline ≤ earlier.deadline

/-- What is not delayed is due, or held up. -/
def Settled (queue : DelayQueue) (now : Instant) (delayed : PendingPacket → Bool) : Prop :=
  ∀ entry ∈ queue.heap.entries, delayed entry.packet = false →
    entry.deadline ≤ now ∨ queue.HeldUp delayed entry

variable {queue queue' : DelayQueue} {now now' : Instant} {delayed : PendingPacket → Bool}
  {packet : PendingPacket} {deadline : Instant}

theorem Settled.mono (h : queue.Settled now delayed) (hnow : now ≤ now') :
    queue.Settled now' delayed :=
  fun entry hm hd => (h entry hm hd).imp hnow.trans' id

theorem FlightDue.mono (h : queue.FlightDue now) (hnow : now ≤ now') : queue.FlightDue now' :=
  fun flow state hs t ht => (h flow state hs t ht).trans hnow

theorem Due.mono (h : queue.Due now) (hnow : now ≤ now') : queue.Due now' where
  entries entry hm := (h.entries entry hm).trans hnow
  tails flow state hs t ht := (h.tails flow state hs t ht).trans hnow

theorem Backed.mono (h : queue.Backed now) (hnow : now ≤ now') : queue.Backed now' :=
  fun flow state hs t ht => (h flow state hs t ht).imp hnow.trans' id

/-- The flow states after an enqueue are those before it, but for the packet's own. -/
theorem charge_flows (queue : DelayQueue) (packet : PendingPacket) (deadline : Instant)
    {flow : FlowKey} {state : FlowState}
    (h : (queue.charge packet deadline).flows flow = some state) :
    queue.flows flow = some state ∨
      flow = packet.flow ∧ state.tail = some (queue.admitDeadline packet deadline) ∧
        state.inFlightTail = ((queue.flows packet.flow).getD {}).inFlightTail := by
  by_cases hf : flow = packet.flow
  · subst hf
    simp only [charge, Function.update_self, Option.some.injEq] at h
    subst h
    exact .inr ⟨rfl, rfl, rfl⟩
  · simp only [charge, Function.update_of_ne hf] at h
    exact .inl h

theorem FlightDue.charge (h : queue.FlightDue now) (packet : PendingPacket) (deadline : Instant) :
    (queue.charge packet deadline).FlightDue now := by
  intro flow state hs t ht
  rcases charge_flows queue packet deadline hs with hs | ⟨-, -, htail⟩
  · exact h flow state hs t ht
  · rw [htail] at ht
    cases hold : queue.flows packet.flow with
    | none =>
      rw [hold] at ht
      cases ht
    | some old => exact h _ old hold t (by simpa [hold] using ht)

theorem admitDeadline_le (h : queue.Due now) (hd : deadline ≤ now) :
    queue.admitDeadline packet deadline ≤ now := by
  rw [admitDeadline, clampToTail]
  cases hs : queue.flows packet.flow with
  | none => exact hd
  | some state =>
    cases ht : state.tail with
    | none => simpa [ht] using hd
    | some t => simpa [ht] using ⟨h.tails _ state hs t ht, hd⟩

theorem Due.charge (h : queue.Due now) (hd : deadline ≤ now) :
    (queue.charge packet deadline).Due now where
  entries := h.entries
  tails flow state hs t ht := by
    rcases charge_flows queue packet deadline hs with hs | ⟨-, htail, -⟩
    · exact h.tails flow state hs t ht
    · rw [htail] at ht
      cases ht
      exact admitDeadline_le h hd

theorem Due.admitted (h : queue.Due now) (hd : deadline ≤ now) :
    (queue.admitted packet deadline).Due now where
  entries entry hm := by
    rcases (MinHeap.mem_push _ _ _).mp hm with rfl | hm
    · exact admitDeadline_le h hd
    · exact h.entries entry hm
  tails := (h.charge hd).tails

theorem Backed.admitted (h : queue.Backed now) (packet : PendingPacket) (deadline : Instant) :
    (queue.admitted packet deadline).Backed now := by
  intro flow state hs t ht
  rcases charge_flows queue packet deadline hs with hs | ⟨rfl, htail, -⟩
  · obtain hle | ⟨entry, hm, he⟩ := h flow state hs t ht
    · exact .inl hle
    · exact .inr ⟨entry, (MinHeap.mem_push _ _ _).mpr (.inr hm), he⟩
  · rw [htail] at ht
    cases ht
    exact .inr ⟨_, (MinHeap.mem_push _ _ _).mpr (.inl rfl), rfl, le_rfl⟩

/-- Only its flow's tail makes a packet later than it asks for. -/
theorem exists_tail_of_late (hd : deadline ≤ now)
    (hlate : now < queue.admitDeadline packet deadline) :
    ∃ state t, queue.flows packet.flow = some state ∧ state.tail = some t ∧
      queue.admitDeadline packet deadline = t := by
  rw [admitDeadline, clampToTail] at hlate ⊢
  cases hs : queue.flows packet.flow with
  | none =>
    rw [hs] at hlate
    exact absurd hlate (not_lt.mpr hd)
  | some state =>
    rw [hs] at hlate
    cases ht : state.tail with
    | none =>
      rw [Option.getD_some, ht] at hlate
      exact absurd hlate (not_lt.mpr hd)
    | some t =>
      rw [Option.getD_some, ht, Option.elim_some] at hlate
      have hlt : now < t := (lt_max_iff.mp hlate).resolve_right (not_lt.mpr hd)
      refine ⟨state, t, rfl, ht, ?_⟩
      rw [Option.getD_some, ht, Option.elim_some]
      exact max_eq_left (hd.trans hlt.le)

/-- A packet that is not delayed waits for its flow's tail only, which a delayed entry set. -/
theorem Settled.admitted (h : queue.Settled now delayed) (ho : queue.Ordered)
    (hb : queue.Backed now) (hd : delayed packet = false → deadline ≤ now) :
    (queue.admitted packet deadline).Settled now delayed := by
  have hkeep {entry : Entry} (hup : queue.HeldUp delayed entry) :
      (queue.admitted packet deadline).HeldUp delayed entry := by
    obtain ⟨earlier, hm, he⟩ := hup
    exact ⟨earlier, (MinHeap.mem_push _ _ _).mpr (.inr hm), he⟩
  intro entry hm hnot
  rcases (MinHeap.mem_push _ _ _).mp hm with rfl | hm
  · have hle := hd hnot
    by_contra hlate
    rw [not_or, not_le] at hlate
    obtain ⟨hlate, hfree⟩ := hlate
    obtain ⟨state, t, hs, ht, heq⟩ := exists_tail_of_late hle hlate
    obtain hle' | ⟨backing, hbm, hbf, hbt⟩ := hb _ state hs t ht
    · exact absurd (hlate.trans_eq heq) (not_lt.mpr hle')
    · have hseq := ho.fresh backing hbm
      cases hdel : delayed backing.packet with
      | true =>
        exact hfree ⟨backing, (MinHeap.mem_push _ _ _).mpr (.inr hbm), hbf, hseq, hdel,
          heq.le.trans hbt⟩
      | false =>
        obtain hdue | ⟨earlier, hem, hef, hes, hed, hel⟩ := h backing hbm hdel
        · exact absurd (hlate.trans_eq heq) (not_lt.mpr (hbt.trans hdue))
        · exact hfree ⟨earlier, (MinHeap.mem_push _ _ _).mpr (.inr hem), hef.trans hbf,
            hes.trans hseq, hed, heq.le.trans (hbt.trans hel)⟩
  · exact (h entry hm hnot).imp id hkeep

section Popped
variable {entry : Entry} {heap : MinHeap Entry.key} {state : FlowState}

theorem popped_flows (hs : queue.flows entry.packet.flow = some state) {flow : FlowKey}
    {state' : FlowState} (h : (queue.popped entry heap state).flows flow = some state') :
    ∃ old, queue.flows flow = some old ∧ state'.tail = old.tail ∧
      (state'.inFlightTail = old.inFlightTail ∨ state'.inFlightTail = some entry.deadline) := by
  by_cases hf : flow = entry.packet.flow
  · subst hf
    simp only [popped, Function.update_self, Option.some.injEq] at h
    subst h
    exact ⟨state, hs, rfl, .inr rfl⟩
  · simp only [popped, Function.update_of_ne hf] at h
    exact ⟨state', h, rfl, .inl rfl⟩

theorem FlightDue.popped (h : queue.FlightDue now)
    (hs : queue.flows entry.packet.flow = some state) (hdue : entry.deadline ≤ now) :
    (queue.popped entry heap state).FlightDue now := by
  intro flow state' hs' t ht
  obtain ⟨old, hold, -, hfl | hfl⟩ := popped_flows hs hs' <;> rw [hfl] at ht
  · exact h flow old hold t ht
  · cases ht
    exact hdue

theorem Due.popped (h : queue.Due now) (hs : queue.flows entry.packet.flow = some state)
    (hpop : queue.heap.pop? = some (entry, heap)) :
    (queue.popped entry heap state).Due now where
  entries e he := by
    obtain ⟨hentries, -⟩ := MinHeap.pop?_eq_some hpop
    exact h.entries e (hentries ▸ List.mem_cons_of_mem _ he)
  tails flow state' hs' t ht := by
    obtain ⟨old, hold, htail, -⟩ := popped_flows hs hs'
    exact h.tails flow old hold t (htail ▸ ht)

theorem Backed.popped (h : queue.Backed now) (hs : queue.flows entry.packet.flow = some state)
    (hpop : queue.heap.pop? = some (entry, heap)) (hdue : entry.deadline ≤ now) :
    (queue.popped entry heap state).Backed now := by
  obtain ⟨hentries, -⟩ := MinHeap.pop?_eq_some hpop
  intro flow state' hs' t ht
  obtain ⟨old, hold, htail, -⟩ := popped_flows hs hs'
  obtain hle | ⟨backing, hm, hf, hle⟩ := h flow old hold t (htail ▸ ht)
  · exact .inl hle
  · rw [hentries] at hm
    rcases List.mem_cons.mp hm with rfl | hm
    · exact .inl (hle.trans hdue)
    · exact .inr ⟨backing, hm, hf, hle⟩

theorem Settled.popped (h : queue.Settled now delayed)
    (hpop : queue.heap.pop? = some (entry, heap)) (hdue : entry.deadline ≤ now) :
    (queue.popped entry heap state).Settled now delayed := by
  obtain ⟨hentries, -⟩ := MinHeap.pop?_eq_some hpop
  intro e he hnot
  have hmem : e ∈ queue.heap.entries := hentries ▸ List.mem_cons_of_mem _ he
  obtain hle | ⟨earlier, hm, hf, hseq, hdel, hle⟩ := h e hmem hnot
  · exact .inl hle
  · rw [hentries] at hm
    rcases List.mem_cons.mp hm with rfl | hm
    · exact .inl (hle.trans hdue)
    · exact .inr ⟨earlier, hm, hf, hseq, hdel, hle⟩

end Popped

theorem FlightDue.finish (h : queue.FlightDue now) (hq : queue.finish packet = .ok queue') :
    queue'.FlightDue now := by
  intro flow state' hs t ht
  obtain ⟨state, hold, -, hfl⟩ := (finish_eq_ok hq).2.2 flow state' hs
  exact h flow state hold t (hfl t ht)

theorem Due.finish (h : queue.Due now) (hq : queue.finish packet = .ok queue') :
    queue'.Due now where
  entries := by
    rw [(finish_eq_ok hq).1]
    exact h.entries
  tails flow state' hs t ht := by
    obtain ⟨state, hold, htail, -⟩ := (finish_eq_ok hq).2.2 flow state' hs
    exact h.tails flow state hold t (htail ▸ ht)

theorem Backed.finish (h : queue.Backed now) (hq : queue.finish packet = .ok queue') :
    queue'.Backed now := by
  obtain ⟨hheap, -, hflows⟩ := finish_eq_ok hq
  intro flow state' hs t ht
  obtain ⟨state, hold, htail, -⟩ := hflows flow state' hs
  rw [hheap]
  exact h flow state hold t (htail ▸ ht)

theorem Settled.finish (h : queue.Settled now delayed) (hq : queue.finish packet = .ok queue') :
    queue'.Settled now delayed := by
  obtain ⟨hheap, -, -⟩ := finish_eq_ok hq
  rw [Settled, hheap]
  exact fun entry hm hnot => (h entry hm hnot).imp id fun hup => by rwa [HeldUp, hheap]

/-- What a release asks for is due or held up by an entry it passes over; `done` are the entries
that the loop has already rebuilt. -/
theorem releaseEntries_settled {predicate : PendingPacket → Bool}
    {entries entries' done : List Entry} {flows flows' : FlowKey → Option FlowState}
    (h : releaseEntries now predicate flows entries = .ok (flows', entries'))
    (hseq : (done ++ entries').Pairwise fun a b => a.sequence < b.sequence)
    (hflows : ∀ flow state, flows flow = some state → ∀ t ∈ state.tail,
      t ≤ now ∨ ∃ e ∈ done, e.packet.flow = flow ∧ predicate e.packet = false ∧ t ≤ e.deadline) :
    (∀ entry ∈ entries', predicate entry.packet → entry.deadline ≤ now ∨
        ∃ e ∈ done ++ entries', e.packet.flow = entry.packet.flow ∧ e.sequence < entry.sequence ∧
          predicate e.packet = false ∧ entry.deadline ≤ e.deadline) ∧
      ∀ flow state, flows' flow = some state → ∀ t ∈ state.tail,
        t ≤ now ∨ ∃ e ∈ done ++ entries', e.packet.flow = flow ∧ predicate e.packet = false ∧
          t ≤ e.deadline := by
  induction entries generalizing flows flows' entries' done with
  | nil =>
    cases h
    exact ⟨by simp, by simpa using hflows⟩
  | cons entry rest ih =>
    simp only [releaseEntries, bind_eq_ok, Prod.exists] at h
    obtain ⟨state, hstate, flows₁, rest', hrest, hq⟩ := h
    cases hq
    have hstate : flows entry.packet.flow = some state := eq_some_of_unwrap hstate
    set requested := if predicate entry.packet then now else entry.deadline with hrequested
    set rebuilt : Entry := { entry with deadline := clampToTail state.tail requested } with hrebuilt
    -- The new tail is due, or an entry that the release passes over is as late.
    have hnew : rebuilt.deadline ≤ now ∨
        ∃ e ∈ done ++ [rebuilt], e.packet.flow = entry.packet.flow ∧
          predicate e.packet = false ∧ rebuilt.deadline ≤ e.deadline ∧
          (predicate entry.packet → e ∈ done) := by
      cases hp : predicate entry.packet with
      | false =>
        exact .inr ⟨rebuilt, by simp, rfl, hp, le_rfl, fun h => absurd h (by simp)⟩
      | true =>
        have hdeadline : rebuilt.deadline = clampToTail state.tail now := by
          rw [hrebuilt, hrequested, if_pos hp]
        rw [hdeadline, clampToTail]
        cases ht : state.tail with
        | none => exact .inl le_rfl
        | some t =>
          rw [Option.elim_some]
          obtain hle | ⟨e, he, hf, hpe, hle⟩ := hflows _ state hstate t ht
          · exact .inl (max_le hle le_rfl)
          · rcases le_total t now with hle' | hge
            · exact .inl (max_le hle' le_rfl)
            · exact .inr ⟨e, List.mem_append_left _ he, hf, hpe, (max_eq_left hge).trans_le hle,
                fun _ => he⟩
    have hassoc : done ++ rebuilt :: rest' = (done ++ [rebuilt]) ++ rest' := by simp
    rw [hassoc] at hseq ⊢
    obtain ⟨hentries, htails⟩ := ih hrest hseq fun flow state' hs t ht => by
      by_cases hf : flow = entry.packet.flow
      · subst hf
        rw [Function.update_self] at hs
        cases hs
        cases ht
        obtain hle | ⟨e, he, hf, hpe, hle, -⟩ := hnew
        · exact .inl hle
        · exact .inr ⟨e, he, hf, hpe, hle⟩
      · rw [Function.update_of_ne hf] at hs
        obtain hle | ⟨e, he, hrest⟩ := hflows flow state' hs t ht
        · exact .inl hle
        · exact .inr ⟨e, List.mem_append_left _ he, hrest⟩
    refine ⟨fun e he hpe => ?_, htails⟩
    rcases List.mem_cons.mp he with rfl | he
    · obtain hle | ⟨g, hg, hf, hpg, hle, hdone⟩ := hnew
      · exact .inl hle
      · refine .inr ⟨g, List.mem_append_left _ hg, hf, ?_, hpg, hle⟩
        rw [List.append_assoc] at hseq
        exact (List.pairwise_append.mp hseq).2.2 g (hdone hpe) rebuilt (by simp)
    · exact hentries e he hpe

/-- A release makes no entry and no tail later than the release, the entries it passes over and the
tails it starts from. -/
theorem releaseEntries_le {bound : Instant} {predicate : PendingPacket → Bool}
    {entries entries' : List Entry} {flows flows' : FlowKey → Option FlowState}
    (h : releaseEntries now predicate flows entries = .ok (flows', entries')) (hnow : now ≤ bound)
    (hentries : ∀ entry ∈ entries, predicate entry.packet = false → entry.deadline ≤ bound)
    (hflows : ∀ flow state, flows flow = some state → ∀ t ∈ state.tail, t ≤ bound) :
    (∀ entry ∈ entries', entry.deadline ≤ bound) ∧
      ∀ flow state, flows' flow = some state → ∀ t ∈ state.tail, t ≤ bound := by
  induction entries generalizing flows flows' entries' with
  | nil =>
    cases h
    exact ⟨by simp, hflows⟩
  | cons entry rest ih =>
    simp only [releaseEntries, bind_eq_ok, Prod.exists] at h
    obtain ⟨state, hstate, flows₁, rest', hrest, hq⟩ := h
    cases hq
    have hstate : flows entry.packet.flow = some state := eq_some_of_unwrap hstate
    have hrequested : (if predicate entry.packet then now else entry.deadline) ≤ bound := by
      cases hp : predicate entry.packet with
      | true => exact hnow
      | false => exact hentries entry List.mem_cons_self hp
    have hdeadline : clampToTail state.tail
        (if predicate entry.packet then now else entry.deadline) ≤ bound := by
      rw [clampToTail]
      cases ht : state.tail with
      | none => exact hrequested
      | some t => exact max_le (hflows _ state hstate t ht) hrequested
    obtain ⟨hdue, htails⟩ := ih hrest (fun e he => hentries e (List.mem_cons_of_mem _ he))
      fun flow state' hs t ht => by
        by_cases hf : flow = entry.packet.flow
        · subst hf
          rw [Function.update_self] at hs
          cases hs
          cases ht
          exact hdeadline
        · rw [Function.update_of_ne hf] at hs
          exact hflows flow state' hs t ht
    refine ⟨fun e he => ?_, htails⟩
    rcases List.mem_cons.mp he with rfl | he
    · exact hdeadline
    · exact hdue e he

theorem mem_ofList {entries : List Entry} {entry : Entry} :
    entry ∈ (MinHeap.ofList entries : MinHeap Entry.key).entries ↔ entry ∈ entries :=
  (MinHeap.ofList_perm entries).mem_iff

/-- A release starts from the deadlines of the packets in flight. -/
theorem tail_resetTails (h : queue.FlightDue now) {flow : FlowKey} {state : FlowState}
    (hs : resetTails queue.flows flow = some state) : ∀ t ∈ state.tail, t ≤ now := by
  intro t ht
  obtain ⟨old, hold, rfl⟩ := Option.map_eq_some_iff.mp hs
  exact h flow old hold t ht

/-- A release of all that is later than a time after it leaves nothing later. -/
theorem Due.releaseMatching {bound : Instant} (hnow : now ≤ bound) (hf : queue.FlightDue bound)
    {predicate : PendingPacket → Bool} (hq : queue.releaseMatching now predicate = .ok queue')
    (h : ∀ entry ∈ queue.heap.entries, predicate entry.packet = false → entry.deadline ≤ bound) :
    queue'.Due bound := by
  obtain ⟨flows, entries, he, rfl⟩ := releaseMatching_eq_ok.mp hq
  obtain ⟨hentries, htails⟩ := releaseEntries_le he hnow
    (fun entry hm => h entry ((sortBy_perm _ _).mem_iff.mp hm))
    fun flow state hs => tail_resetTails hf hs
  exact ⟨fun entry hm => hentries entry (mem_ofList.mp hm), htails⟩

/-- After a release, what is not delayed is due or held up, provided that it was asked for. -/
theorem settled_of_releaseMatching {inFlight lost : List PendingPacket}
    (hc : queue.Consistent inFlight lost) (ho : queue.Ordered) (hf : queue.FlightDue now)
    {predicate : PendingPacket → Bool} (hq : queue.releaseMatching now predicate = .ok queue')
    (hd : ∀ packet, delayed packet = false → predicate packet = true) :
    queue'.Settled now delayed ∧ queue'.FlightDue now ∧ queue'.Backed now := by
  obtain ⟨flows, entries, he, rfl⟩ := releaseMatching_eq_ok.mp hq
  obtain ⟨_, _, he₂, -, -, hcounts⟩ := hc.releaseEntries now predicate
  cases he.symm.trans he₂
  have hnone : ∀ flow state, resetTails queue.flows flow = some state → ∀ t ∈ state.tail,
      t ≤ now ∨ ∃ e ∈ ([] : List Entry), e.packet.flow = flow ∧ predicate e.packet = false ∧
        t ≤ e.deadline :=
    fun flow state hs t ht => .inl (tail_resetTails hf hs t ht)
  obtain ⟨hentries, htails⟩ :=
    releaseEntries_settled he (increasing_of_releaseEntries hc ho he) hnone
  refine ⟨fun entry hm hnot => ?_, fun flow state hs t ht => ?_, fun flow state hs t ht => ?_⟩
  · obtain hle | ⟨e, hem, hef, hes, hpe, hle⟩ := hentries entry (mem_ofList.mp hm) (hd _ hnot)
    · exact .inl hle
    · refine .inr ⟨e, mem_ofList.mpr hem, hef, hes, ?_, hle⟩
      by_contra hdel
      rw [hd _ (by simpa using hdel)] at hpe
      cases hpe
  · have hcount := hcounts flow
    rw [show flows flow = some state from hs, Option.map_some] at hcount
    obtain ⟨old, hold, heq⟩ := Option.map_eq_some_iff.mp hcount.symm
    simp only [FlowState.counts, Prod.mk.injEq] at heq
    exact hf flow old hold t (heq.2.2 ▸ ht)
  · obtain hle | ⟨e, hem, hef, -, hle⟩ := htails flow state hs t ht
    · exact .inl hle
    · exact .inr ⟨e, mem_ofList.mpr hem, hef, hle⟩

end DelayQueue

end FlowBrake.Windows
