import FlowBrake.Windows.DelayQueue.Session

/-! Flows do not interfere: what the queue does with one flow is what it would do with that flow
alone. -/
namespace FlowBrake.Windows
open FlowBrake.Core KeyOrder

namespace DelayQueue

/-- The queued packets of a flow in the order in which they were enqueued, with their
deadlines. -/
def timetable (queue : DelayQueue) (flow : FlowKey) : List (PendingPacket × Instant) :=
  ((sortBy Entry.sequence queue.heap.entries).filter (fun entry => entry.packet.flow = flow)).map
    fun entry => (entry.packet, entry.deadline)

/-- The capacities. -/
def limits (queue : DelayQueue) : ℕ × ℕ × ℕ × ℕ :=
  (queue.maxBytes, queue.maxPackets, queue.maxPidBytes, queue.maxPidPackets)

variable {queue : DelayQueue} {packet : PendingPacket}

theorem timetable_admitted (h : queue.Ordered) (packet : PendingPacket) (deadline : Instant)
    (flow : FlowKey) : (queue.admitted packet deadline).timetable flow = queue.timetable flow ++
      if packet.flow = flow then [(packet, queue.admitDeadline packet deadline)] else [] := by
  rw [timetable, h.sortBy_admitted, List.filter_append, List.map_append, timetable]
  by_cases hf : packet.flow = flow <;> simp [hf]

theorem timetable_popped (h : queue.Ordered) {entry : Entry} {heap : MinHeap Entry.key}
    (hpop : queue.heap.pop? = some (entry, heap)) (state : FlowState) (flow : FlowKey) :
    queue.timetable flow =
      (if entry.packet.flow = flow then [(entry.packet, entry.deadline)] else []) ++
        (queue.popped entry heap state).timetable flow := by
  rw [timetable, h.sortBy_popped hpop, List.map_append]
  split <;> rfl

theorem timetable_congr {queue' : DelayQueue} (h : queue'.heap = queue.heap) :
    queue'.timetable = queue.timetable := by
  funext flow
  rw [timetable, timetable, h]

theorem exists_pop_of_timetable {flow : FlowKey} {first : PendingPacket × Instant}
    {rest : List (PendingPacket × Instant)} (h : queue.timetable flow = first :: rest) :
    ∃ entry heap, queue.heap.pop? = some (entry, heap) := by
  cases htop : queue.heap.peek? with
  | none =>
    have hempty : queue.heap.entries = [] := MinHeap.peek?_eq_none.mp htop
    rw [timetable, hempty] at h
    cases h
  | some entry => exact ⟨entry, MinHeap.pop?_isSome_of_peek? htop⟩

/-- What `finish` leaves of a flow's state. -/
def finishFlow (flow : FlowState) : Option FlowState :=
  if flow.packets - 1 = 0 then none
  else some { flow with
    packets := flow.packets - 1
    inFlight := flow.inFlight - 1
    inFlightTail := if flow.inFlight - 1 = 0 then none else flow.inFlightTail }

theorem eq_sub_of_checkedSub {a b c : ℕ} (h : checkedSub a b = .ok c) : c = a - b := by
  unfold checkedSub at h
  split at h <;> cases h
  rfl

theorem finish_flows {queue' : DelayQueue} (h : queue.finish packet = .ok queue') :
    queue'.flows = Function.update queue.flows packet.flow
      ((queue.flows packet.flow).bind finishFlow) ∧ queue'.limits = queue.limits := by
  simp only [finish, bind_eq_ok] at h
  obtain ⟨_, _, _, _, _, _, _, _, _, _, flow, hflow, packets, hp, inFlight, hi, hq⟩ := h
  cases hq
  rw [eq_some_of_unwrap hflow, Option.bind_some, finishFlow, eq_sub_of_checkedSub hp,
    eq_sub_of_checkedSub hi]
  exact ⟨rfl, rfl⟩

/-- A release sets the deadlines of a flow by that flow's entries alone. -/
theorem releaseEntries_filter {now : Instant} {predicate : PendingPacket → Bool} {flow : FlowKey}
    {entries entries' own : List Entry} {flows flows' ownFlows : FlowKey → Option FlowState}
    (h : releaseEntries now predicate flows entries = .ok (flows', entries'))
    (hflows : ownFlows flow = flows flow) (hflow : ∀ entry ∈ own, entry.packet.flow = flow)
    (hown : own.map (fun entry => (entry.packet, entry.deadline)) =
      (entries.filter (fun entry => entry.packet.flow = flow)).map
        fun entry => (entry.packet, entry.deadline)) :
    ∃ ownFlows' own', releaseEntries now predicate ownFlows own = .ok (ownFlows', own') ∧
      ownFlows' flow = flows' flow ∧
      own'.map (fun entry => (entry.packet, entry.deadline)) =
        (entries'.filter (fun entry => entry.packet.flow = flow)).map
          fun entry => (entry.packet, entry.deadline) := by
  induction entries generalizing flows entries' own ownFlows with
  | nil =>
    cases h
    rw [List.filter_nil, List.map_nil, List.map_eq_nil_iff] at hown
    subst hown
    exact ⟨ownFlows, [], rfl, hflows, rfl⟩
  | cons entry rest ih =>
    simp only [releaseEntries, bind_eq_ok, Prod.exists] at h
    obtain ⟨state, hstate, flows₁, rest', hrest, hq⟩ := h
    cases hq
    have hstate := eq_some_of_unwrap hstate
    generalize hdeadline : clampToTail state.tail
      (if predicate entry.packet then now else entry.deadline) = deadline at hrest ⊢
    by_cases hf : entry.packet.flow = flow
    · rw [List.filter_cons_of_pos (by simpa using hf), List.map_cons] at hown
      obtain ⟨first, own, rfl, hfirst, hown⟩ := List.map_eq_cons_iff.mp hown
      obtain ⟨hpacket, hold⟩ := Prod.mk.inj hfirst
      have hself : ownFlows first.packet.flow = some state := by
        rw [hpacket, hf, hflows, ← hf, hstate]
      obtain ⟨ownFlows', own', he, hflows', hown'⟩ := @ih _ own _
        (Function.update ownFlows first.packet.flow (some { state with tail := some deadline }))
        hrest (by rw [hpacket, hf, Function.update_self, Function.update_self])
        (fun e he => hflow e (List.mem_cons_of_mem _ he)) hown
      refine ⟨ownFlows', { first with deadline } :: own', ?_, hflows', ?_⟩
      · rw [releaseEntries, hself, unwrap_some, ok_bind]
        dsimp only
        rw [hpacket, hold, hdeadline, ← hpacket, he]
        rfl
      · rw [List.filter_cons_of_pos (by simpa using hf), List.map_cons, List.map_cons, hown',
          hpacket]
    · rw [List.filter_cons_of_neg (by simpa using hf)] at hown
      obtain ⟨ownFlows', own', he, hflows', hown'⟩ := ih hrest
        (hflows.trans (Function.update_of_ne (Ne.symm hf) ..).symm) hflow hown
      refine ⟨ownFlows', own', he, hflows', ?_⟩
      rw [List.filter_cons_of_neg (by simpa using hf), hown']

theorem byteSum_le_of_subperm {packets packets' : List PendingPacket}
    (h : packets.Subperm packets') : byteSum packets ≤ byteSum packets' := by
  obtain ⟨part, hperm, hpart⟩ := h
  have hsum : byteSum part = byteSum packets := (hperm.map _).sum_eq
  rw [← hsum]
  clear hperm hsum
  induction hpart with
  | slnil => exact le_rfl
  | cons packet _ ih =>
    rw [byteSum_cons]
    omega
  | cons_cons packet _ ih =>
    rw [byteSum_cons, byteSum_cons]
    omega

/-- A queue with less in it rejects no more. -/
theorem not_rejects_of_subperm {queue' : DelayQueue} {held inFlight held' inFlight' :
    List PendingPacket} (h : Accounts queue held inFlight) (h' : Accounts queue' held' inFlight')
    (hsub : held'.Subperm held) (hlimits : queue'.limits = queue.limits)
    (hr : queue.rejects packet = false) : queue'.rejects packet = false := by
  have hlength : held'.length ≤ held.length := hsub.length_le
  have hbytes : byteSum held' ≤ byteSum held := byteSum_le_of_subperm hsub
  have hpackets : pidCount packet.pid held' ≤ pidCount packet.pid held := hsub.countP_le _
  have hpidBytes : pidBytes packet.pid held' ≤ pidBytes packet.pid held :=
    byteSum_le_of_subperm (hsub.filter _)
  simp only [limits, Prod.mk.injEq] at hlimits
  obtain ⟨hmax₁, hmax₂, hmax₃, hmax₄⟩ := hlimits
  simp only [rejects, h.pid_getD, h'.pid_getD, h.packets, h.bytes, h'.packets, h'.bytes, hmax₁,
    hmax₂, hmax₃, hmax₄, Bool.or_eq_false_iff, decide_eq_false_iff_not] at hr ⊢
  omega

end DelayQueue

namespace Session

/-- What an operation on the queue is to one flow: nothing, or the operation with which the queue
of this flow alone follows. A packet in flight is counted among those of the flow. -/
def restrictOp (flow : FlowKey) (s : Session) : QueueOp → Option QueueOp
  | .enqueue packet deadline =>
    if packet.flow = flow then some (.enqueue packet deadline) else none
  | .popDue now =>
    match s.queue.popDue now with
    | .ok (some packet, _) => if packet.flow = flow then some (.popDue now) else none
    | _ => none
  | .finish i =>
    match s.inFlight[i]? with
    | some packet =>
      if packet.flow = flow then some (.finish (flowCount flow (s.inFlight.take i))) else none
    | none => none
  | .releaseMatching now predicate => some (.releaseMatching now predicate)

/-- The run restricted to one flow. -/
def restrict (flow : FlowKey) (s : Session) : List QueueOp → List QueueOp
  | [] => []
  | op :: ops =>
    (s.restrictOp flow op).toList ++
      match s.step op with
      | .ok s => restrict flow s ops
      | .error _ => []

/-- Among the packets of a flow, one in flight is found by the number of them before it. -/
theorem getElem?_filter_flow (flow : FlowKey) {packets : List PendingPacket} {i : ℕ}
    {packet : PendingPacket} (h : packets[i]? = some packet) :
    (packets.eraseIdx i).filter (fun p => p.flow = flow) =
      (if packet.flow = flow then
        (packets.filter fun p => p.flow = flow).eraseIdx (flowCount flow (packets.take i))
      else packets.filter fun p => p.flow = flow) ∧
    (packet.flow = flow →
      (packets.filter fun p => p.flow = flow)[flowCount flow (packets.take i)]? = some packet) := by
  obtain ⟨hlt, rfl⟩ := List.getElem?_eq_some_iff.mp h
  have hcount : flowCount flow (packets.take i) =
      ((packets.take i).filter fun p => p.flow = flow).length := List.countP_eq_length_filter
  have hsplit : packets.filter (fun p => p.flow = flow) =
      (packets.take i).filter (fun p => p.flow = flow) ++
        ((packets[i] :: packets.drop (i + 1)).filter fun p => p.flow = flow) := by
    rw [← List.filter_append, ← List.drop_eq_getElem_cons hlt, List.take_append_drop]
  rw [List.eraseIdx_eq_take_drop_succ, List.filter_append, hcount, hsplit]
  by_cases hf : packets[i].flow = flow
  · rw [if_pos hf, List.filter_cons_of_pos (by simpa using hf)]
    constructor
    · rw [List.eraseIdx_append_of_length_le le_rfl, Nat.sub_self, List.eraseIdx_cons_zero]
    · intro _
      rw [List.getElem?_append_right le_rfl, Nat.sub_self, List.getElem?_cons_zero]
  · rw [if_neg hf, List.filter_cons_of_neg (by simpa using hf)]
    exact ⟨rfl, fun h => absurd h hf⟩

/-- Whether the operation finds room for its packet. -/
def accepts (s : Session) : QueueOp → Bool
  | .enqueue packet _ => !s.queue.rejects packet
  | _ => true

/-- Whether every operation of a run does. -/
def acceptsAll (s : Session) : List QueueOp → Bool
  | [] => true
  | op :: ops => s.accepts op && match s.step op with
    | .ok s => acceptsAll s ops
    | .error _ => true

theorem valid_step {s t : Session} {op : QueueOp} (h : s.Valid) (hs : s.step op = .ok t) :
    t.Valid := by
  rcases step_follows h op with ⟨t', ht', hf⟩ | ⟨-, left, he⟩
  · cases hs.symm.trans ht'
    exact hf.valid
  · cases hs.symm.trans he

theorem run_singleton (s : Session) (op : QueueOp) : s.run [op] = s.step op := by
  simp only [run]
  cases s.step op <;> rfl

theorem enqueue_eq {queue : DelayQueue} {packet : PendingPacket} (deadline : Instant)
    (hr : queue.rejects packet = false) (hn : queue.nextSequence + 1 < 2 ^ 64) :
    queue.enqueue packet deadline = .ok (true, queue.admitted packet deadline) := by
  simp only [DelayQueue.enqueue, hr, Bool.false_eq_true, if_false, hn, if_true]

/-- What an accepted packet changes. -/
theorem step_enqueue {s : Session} {packet : PendingPacket} {deadline : Instant} {t : Session}
    (hr : s.queue.rejects packet = false) (hs : s.step (.enqueue packet deadline) = .ok t) :
    s.queue.nextSequence + 1 < 2 ^ 64 ∧ t = { s with
      queue := s.queue.admitted packet deadline
      history := s.history ++ [.accept packet] } := by
  by_cases hn : s.queue.nextSequence + 1 < 2 ^ 64
  · simp only [step, enqueue_eq deadline hr hn, ok_bind] at hs
    cases hs
    exact ⟨hn, rfl⟩
  · have he : s.queue.enqueue packet deadline =
        .error (.sequenceExhausted (s.queue.charge packet deadline)) := by
      simp only [DelayQueue.enqueue, hr, Bool.false_eq_true, if_false, hn]
    simp only [step, he] at hs
    cases hs

/-- What the end of a packet in flight changes. -/
theorem step_finish {s t : Session} {i : ℕ} {packet : PendingPacket}
    (hi : s.inFlight[i]? = some packet) (hs : s.step (.finish i) = .ok t) :
    ∃ queue, s.queue.finish packet = .ok queue ∧
      t = { s with queue, inFlight := s.inFlight.eraseIdx i } := by
  simp only [step, hi, bind_eq_ok] at hs
  obtain ⟨queue, hq, ht⟩ := hs
  cases ht
  exact ⟨queue, hq, rfl⟩

theorem run_append (s : Session) (ops ops' : List QueueOp) :
    s.run (ops ++ ops') = s.run ops >>= fun s => s.run ops' := by
  induction ops generalizing s with
  | nil => rfl
  | cons op ops ih =>
    simp only [List.cons_append, run]
    cases s.step op with
    | error e => rfl
    | ok t => exact ih t

/-- The session of the flow alone, against the session of all flows. -/
structure Restricts (flow : FlowKey) (s own : Session) : Prop where
  valid : s.Valid
  ownValid : own.Valid
  flows : own.queue.flows flow = s.queue.flows flow
  timetable : own.queue.timetable flow = s.queue.timetable flow
  entries : ∀ entry ∈ own.queue.heap.entries, entry.packet.flow = flow
  inFlight : own.inFlight = s.inFlight.filter (fun packet => packet.flow = flow)
  nextSequence : own.queue.nextSequence ≤ s.queue.nextSequence
  limits : own.queue.limits = s.queue.limits
  delivered : KeyedFifo.delivered PendingPacket.flow flow own.history =
    KeyedFifo.delivered PendingPacket.flow flow s.history

namespace Restricts
variable {flow : FlowKey} {s own : Session}

/-- The flow alone has no more packets than all flows together. -/
theorem subperm (h : Restricts flow s own) :
    (own.queue.queued ++ own.inFlight).Subperm (s.queue.queued ++ s.inFlight) := by
  have hqueued :
      own.queue.queued.Perm (s.queue.queued.filter fun packet => packet.flow = flow) := by
    have hpackets := congrArg (List.map Prod.fst) h.timetable
    simp only [DelayQueue.timetable, List.map_map, Function.comp_def] at hpackets
    have hown : (sortBy Entry.sequence own.queue.heap.entries).filter
        (fun entry => entry.packet.flow = flow) =
          sortBy Entry.sequence own.queue.heap.entries :=
      List.filter_eq_self.mpr fun entry hm => by
        simpa using h.entries entry ((mem_sortBy _ _ _).mp hm)
    rw [hown] at hpackets
    refine (own.queue.inOrder_perm.symm.trans (.of_eq hpackets)).trans ?_
    rw [DelayQueue.queued, List.filter_map]
    exact (((sortBy_perm _ _).filter _).map _)
  rw [h.inFlight]
  exact (hqueued.append_right _).subperm.trans
    (List.filter_append .. ▸ (List.filter_sublist (l := s.queue.queued ++ s.inFlight)).subperm)

theorem enqueue (h : Restricts flow s own) {packet : PendingPacket} {deadline : Instant}
    {t : Session} (hr : s.queue.rejects packet = false)
    (hs : s.step (.enqueue packet deadline) = .ok t) :
    ∃ own', own.run (s.restrictOp flow (.enqueue packet deadline)).toList = .ok own' ∧
      Restricts flow t own' := by
  obtain ⟨hn, ht⟩ := step_enqueue hr hs
  have hvalid := valid_step h.valid hs
  by_cases hf : packet.flow = flow
  · have hr' : own.queue.rejects packet = false :=
      DelayQueue.not_rejects_of_subperm (by simpa [DelayQueue.Consistent] using h.valid.consistent)
        (by simpa [DelayQueue.Consistent] using h.ownValid.consistent) h.subperm h.limits hr
    have hn' : own.queue.nextSequence + 1 < 2 ^ 64 := (Nat.succ_le_succ h.nextSequence).trans_lt hn
    have hstep : own.step (.enqueue packet deadline) = .ok { own with
        queue := own.queue.admitted packet deadline
        history := own.history ++ [.accept packet] } := by
      simp only [step, enqueue_eq deadline hr' hn', ok_bind]
      rfl
    have hdeadline : own.queue.admitDeadline packet deadline =
        s.queue.admitDeadline packet deadline := by
      rw [DelayQueue.admitDeadline, DelayQueue.admitDeadline, hf, h.flows]
    have hkeep : s.restrictOp flow (.enqueue packet deadline) = some (.enqueue packet deadline) :=
      if_pos hf
    rw [hkeep, Option.toList_some, run_singleton]
    refine ⟨_, hstep, ?_⟩
    subst ht
    exact {
      valid := hvalid
      ownValid := valid_step h.ownValid hstep
      flows := by
        simp only [DelayQueue.admitted, DelayQueue.charge, hdeadline, hf, h.flows,
          Function.update_self]
      timetable := by
        rw [DelayQueue.timetable_admitted h.ownValid.ordered,
          DelayQueue.timetable_admitted h.valid.ordered, h.timetable, hdeadline]
      entries := by
        intro entry hm
        rcases (MinHeap.mem_push _ _ _).mp hm with rfl | hm
        · exact hf
        · exact h.entries entry hm
      inFlight := h.inFlight
      nextSequence := Nat.succ_le_succ h.nextSequence
      limits := h.limits
      delivered := by
        simpa [KeyedFifo.delivered] using h.delivered }
  · have hdrop : s.restrictOp flow (.enqueue packet deadline) = none := if_neg hf
    rw [hdrop]
    refine ⟨own, rfl, ?_⟩
    subst ht
    exact {
      valid := hvalid
      ownValid := h.ownValid
      flows := by
        rw [h.flows]
        exact (Function.update_of_ne (Ne.symm hf) ..).symm
      timetable := by
        rw [DelayQueue.timetable_admitted h.valid.ordered, if_neg hf, List.append_nil, h.timetable]
      entries := h.entries
      inFlight := h.inFlight
      nextSequence := h.nextSequence.trans (Nat.le_succ _)
      limits := h.limits
      delivered := by
        simpa [KeyedFifo.delivered] using h.delivered }

theorem popDue (h : Restricts flow s own) {now : Instant} {t : Session}
    (hs : s.step (.popDue now) = .ok t) :
    ∃ own', own.run (s.restrictOp flow (.popDue now)).toList = .ok own' ∧
      Restricts flow t own' := by
  have hvalid := valid_step h.valid hs
  rcases h.valid.consistent.popDue now with he | ⟨entry, heap, state, hpop, hd, hstate, he, -⟩
  · have hdrop : s.restrictOp flow (.popDue now) = none := by
      simp only [restrictOp, he]
    simp only [step, he, ok_bind] at hs
    cases hs
    rw [hdrop]
    exact ⟨own, rfl, h⟩
  · simp only [step, he, ok_bind] at hs
    cases hs
    have htable := DelayQueue.timetable_popped h.valid.ordered hpop state flow
    by_cases hf : entry.packet.flow = flow
    · have hkeep : s.restrictOp flow (.popDue now) = some (.popDue now) := by
        simp only [restrictOp, he, hf, if_true]
      rw [if_pos hf] at htable
      -- The flow's own queue is not empty, and the same packet is first in it.
      obtain ⟨top, heap', hpop'⟩ :=
        DelayQueue.exists_pop_of_timetable (h.timetable.trans htable)
      have htop : top ∈ own.queue.heap.entries := by
        rw [(MinHeap.pop?_eq_some hpop').1]
        exact List.mem_cons_self
      have hown := DelayQueue.timetable_popped h.ownValid.ordered hpop' state flow
      rw [if_pos (h.entries top htop), h.timetable, htable] at hown
      obtain ⟨hfirst, hrest⟩ := List.cons.inj hown
      obtain ⟨hpacket, hdeadline⟩ := Prod.mk.inj hfirst
      have hstate' : own.queue.flows top.packet.flow = some state := by
        rw [← hpacket, hf, h.flows, ← hf, hstate]
      have hpopped := DelayQueue.popDue_eq_of_pop hpop' (hdeadline ▸ hd) hstate'
      have hstep : own.step (.popDue now) = .ok {
          queue := own.queue.popped top heap' state
          inFlight := top.packet :: own.inFlight
          history := own.history ++ [.deliver top.packet] } := by
        simp only [step, hpopped, ok_bind]
        rfl
      rw [hkeep, Option.toList_some, run_singleton]
      exact ⟨_, hstep, {
        valid := hvalid
        ownValid := valid_step h.ownValid hstep
        flows := by
          simp only [DelayQueue.popped, ← hpacket, ← hdeadline, hf, Function.update_self]
        timetable := hrest.symm
        entries := by
          intro e hm
          refine h.entries e ?_
          rw [(MinHeap.pop?_eq_some hpop').1]
          exact List.mem_cons_of_mem _ hm
        inFlight := by
          rw [← hpacket, h.inFlight, List.filter_cons_of_pos (by simpa using hf)]
        nextSequence := h.nextSequence
        limits := h.limits
        delivered := by
          simpa [KeyedFifo.delivered, ← hpacket, hf] using h.delivered }⟩
    · have hdrop : s.restrictOp flow (.popDue now) = none := by
        simp only [restrictOp, he, hf, if_false]
      rw [if_neg hf, List.nil_append] at htable
      rw [hdrop]
      exact ⟨own, rfl, {
        valid := hvalid
        ownValid := h.ownValid
        flows := by
          rw [h.flows]
          exact (Function.update_of_ne (Ne.symm hf) ..).symm
        timetable := h.timetable.trans htable
        entries := h.entries
        inFlight := by
          rw [h.inFlight, List.filter_cons_of_neg (by simpa using hf)]
        nextSequence := h.nextSequence
        limits := h.limits
        delivered := by
          simpa [KeyedFifo.delivered, hf] using h.delivered }⟩

theorem finish (h : Restricts flow s own) {i : ℕ} {t : Session} (hs : s.step (.finish i) = .ok t) :
    ∃ own', own.run (s.restrictOp flow (.finish i)).toList = .ok own' ∧ Restricts flow t own' := by
  have hvalid := valid_step h.valid hs
  cases hi : s.inFlight[i]? with
  | none =>
    have hdrop : s.restrictOp flow (.finish i) = none := by simp only [restrictOp, hi]
    simp only [step, hi] at hs
    cases hs
    rw [hdrop]
    exact ⟨own, rfl, h⟩
  | some packet =>
    obtain ⟨queue, hq, rfl⟩ := step_finish hi hs
    obtain ⟨hheap, hnext, -⟩ := DelayQueue.finish_eq_ok hq
    obtain ⟨hflows, hlimits⟩ := DelayQueue.finish_flows hq
    obtain ⟨herase, hget⟩ := getElem?_filter_flow flow hi
    by_cases hf : packet.flow = flow
    · have hkeep : s.restrictOp flow (.finish i) =
          some (.finish (flowCount flow (s.inFlight.take i))) := by
        simp only [restrictOp, hi, hf, if_true]
      have hget := hget hf
      rw [← h.inFlight] at hget
      obtain ⟨own', hstep⟩ : ∃ own', own.step
          (.finish (flowCount flow (s.inFlight.take i))) = .ok own' := by
        obtain ⟨hlt, hat⟩ := List.getElem?_eq_some_iff.mp hget
        have hperm := hat ▸ (List.getElem_cons_eraseIdx_perm hlt).symm
        obtain ⟨queue', hq', -⟩ := (h.ownValid.consistent.perm hperm).finish
        exact ⟨_, by simp only [step, hget, hq', ok_bind]; rfl⟩
      obtain ⟨queue', hq', rfl⟩ := step_finish hget hstep
      obtain ⟨hheap', hnext', -⟩ := DelayQueue.finish_eq_ok hq'
      obtain ⟨hflows', hlimits'⟩ := DelayQueue.finish_flows hq'
      rw [hkeep, Option.toList_some, run_singleton]
      exact ⟨_, hstep, {
        valid := hvalid
        ownValid := valid_step h.ownValid hstep
        flows := by
          rw [hflows, hflows', hf, Function.update_self, Function.update_self, h.flows]
        timetable := by
          rw [DelayQueue.timetable_congr hheap, DelayQueue.timetable_congr hheap', h.timetable]
        entries := hheap' ▸ h.entries
        inFlight := by
          rw [herase, if_pos hf, h.inFlight]
        nextSequence := by
          rw [hnext, hnext']
          exact h.nextSequence
        limits := by rw [hlimits, hlimits', h.limits]
        delivered := h.delivered }⟩
    · have hdrop : s.restrictOp flow (.finish i) = none := by
        simp only [restrictOp, hi, hf, if_false]
      rw [hdrop]
      exact ⟨own, rfl, {
        valid := hvalid
        ownValid := h.ownValid
        flows := by
          rw [hflows, Function.update_of_ne (Ne.symm hf), h.flows]
        timetable := by rw [DelayQueue.timetable_congr hheap, h.timetable]
        entries := h.entries
        inFlight := by rw [herase, if_neg hf, h.inFlight]
        nextSequence := by
          rw [hnext]
          exact h.nextSequence
        limits := by rw [hlimits, h.limits]
        delivered := h.delivered }⟩

theorem releaseMatching (h : Restricts flow s own) {now : Instant}
    {predicate : PendingPacket → Bool} {t : Session}
    (hs : s.step (.releaseMatching now predicate) = .ok t) :
    ∃ own', own.run (s.restrictOp flow (.releaseMatching now predicate)).toList = .ok own' ∧
      Restricts flow t own' := by
  have hvalid := valid_step h.valid hs
  have hkeep : s.restrictOp flow (.releaseMatching now predicate) =
      some (.releaseMatching now predicate) := rfl
  simp only [step, bind_eq_ok] at hs
  obtain ⟨queue, hq, ht⟩ := hs
  cases ht
  obtain ⟨flows, entries, he, rfl⟩ := DelayQueue.releaseMatching_eq_ok.mp hq
  have hself : ∀ entry ∈ sortBy Entry.sequence own.queue.heap.entries,
      entry.packet.flow = flow :=
    fun entry hm => h.entries entry ((mem_sortBy _ _ _).mp hm)
  have htable : (sortBy Entry.sequence own.queue.heap.entries).map
      (fun entry => (entry.packet, entry.deadline)) = s.queue.timetable flow := by
    rw [← h.timetable, DelayQueue.timetable, List.filter_eq_self.mpr]
    exact fun entry hm => by simpa using hself entry hm
  have hreset : DelayQueue.resetTails own.queue.flows flow =
      DelayQueue.resetTails s.queue.flows flow := by
    rw [DelayQueue.resetTails, DelayQueue.resetTails, h.flows]
  obtain ⟨ownFlows, ownEntries, he', hflows', hown'⟩ :=
    DelayQueue.releaseEntries_filter he hreset hself htable
  have hstep : own.step (.releaseMatching now predicate) = .ok { own with
      queue := { own.queue with flows := ownFlows, heap := .ofList ownEntries } } := by
    simp only [step, DelayQueue.releaseMatching, he', ok_bind]
    rfl
  have hsorted := sortBy_eq (@MinHeap.ofList_perm _ _ _ Entry.key entries).symm
    (DelayQueue.increasing_of_releaseEntries h.valid.consistent h.valid.ordered he)
  have hsorted' := sortBy_eq (@MinHeap.ofList_perm _ _ _ Entry.key ownEntries).symm
    (DelayQueue.increasing_of_releaseEntries h.ownValid.consistent h.ownValid.ordered he')
  have hflow : ∀ entry ∈ ownEntries, entry.packet.flow = flow := by
    intro entry hm
    have hmem := List.mem_map_of_mem (f := fun entry : Entry => (entry.packet, entry.deadline)) hm
    rw [hown'] at hmem
    obtain ⟨other, hother, heq⟩ := List.mem_map.mp hmem
    rw [← (Prod.mk.inj heq).1]
    simpa using (List.mem_filter.mp hother).2
  rw [hkeep, Option.toList_some, run_singleton]
  exact ⟨_, hstep, {
    valid := hvalid
    ownValid := valid_step h.ownValid hstep
    flows := hflows'
    timetable := by
      rw [DelayQueue.timetable, DelayQueue.timetable, hsorted, hsorted', ← hown',
        List.filter_eq_self.mpr]
      exact fun entry hm => by simpa using hflow entry hm
    entries := fun entry hm => hflow entry ((MinHeap.ofList_perm _).mem_iff.mp hm)
    inFlight := h.inFlight
    nextSequence := h.nextSequence
    limits := h.limits
    delivered := h.delivered }⟩

/-- One operation on the queue is nothing, or one operation, to the queue of the flow alone. -/
theorem step (h : Restricts flow s own) {op : QueueOp} {t : Session} (ha : s.accepts op)
    (hs : s.step op = .ok t) :
    ∃ own', own.run (s.restrictOp flow op).toList = .ok own' ∧ Restricts flow t own' := by
  cases op with
  | enqueue packet deadline => exact h.enqueue (by simpa [accepts] using ha) hs
  | popDue now => exact h.popDue hs
  | finish i => exact h.finish hs
  | releaseMatching now predicate => exact h.releaseMatching hs

theorem run (h : Restricts flow s own) {ops : List QueueOp} {t : Session} (ha : s.acceptsAll ops)
    (hs : s.run ops = .ok t) :
    ∃ own', own.run (restrict flow s ops) = .ok own' ∧ Restricts flow t own' := by
  induction ops generalizing s own with
  | nil =>
    cases hs
    exact ⟨own, rfl, h⟩
  | cons op ops ih =>
    simp only [Session.run, bind_eq_ok] at hs
    obtain ⟨next, hstep, hs⟩ := hs
    simp only [acceptsAll, hstep, Bool.and_eq_true] at ha
    obtain ⟨mid, hmid, hrel⟩ := h.step ha.1 hstep
    obtain ⟨own', hown, hrel'⟩ := ih hrel ha.2 hs
    refine ⟨own', ?_, hrel'⟩
    simp only [restrict, hstep, run_append, hmid, ok_bind]
    exact hown

theorem start (flow : FlowKey) (bytes packets pidBytes pidPackets : ℕ) :
    Restricts flow (.start bytes packets pidBytes pidPackets)
      (.start bytes packets pidBytes pidPackets) where
  valid := start_valid ..
  ownValid := start_valid ..
  flows := rfl
  timetable := rfl
  entries := by simp [Session.start, DelayQueue.withLimits]
  inFlight := rfl
  nextSequence := le_rfl
  limits := rfl
  delivered := rfl

end Restricts

theorem acceptsAll_of_append {s : Session} {ops ops' : List QueueOp}
    (h : s.acceptsAll (ops ++ ops')) : s.acceptsAll ops := by
  induction ops generalizing s with
  | nil => rfl
  | cons op ops ih =>
    simp only [List.cons_append, acceptsAll, Bool.and_eq_true] at h ⊢
    refine ⟨h.1, ?_⟩
    cases hstep : s.step op with
    | error e => rfl
    | ok t =>
      rw [hstep] at h
      exact ih h.2

/-- What one flow is done to in a part of a run is a part of what is done to it in the run. -/
theorem restrict_append_isPrefix (flow : FlowKey) (s : Session) (ops ops' : List QueueOp) :
    restrict flow s ops <+: restrict flow s (ops ++ ops') := by
  induction ops generalizing s with
  | nil => exact List.nil_prefix
  | cons op ops ih =>
    simp only [List.cons_append, restrict]
    cases s.step op with
    | error e => exact List.prefix_refl _
    | ok t => exact (List.prefix_append_right_inj _).mpr (ih t)

/-- In a run that rejects no packet, every flow has at every moment the deadlines, and was served in
the order, of the run of the queue for this flow alone. -/
theorem restrict_timetable (flow : FlowKey) (bytes packets pidBytes pidPackets : ℕ)
    (ops : List QueueOp) (s : Session)
    (hs : (start bytes packets pidBytes pidPackets).run ops = .ok s)
    (ha : (start bytes packets pidBytes pidPackets).acceptsAll ops) :
    ∀ es, es <+: ops → ∃ t own,
      (start bytes packets pidBytes pidPackets).run es = .ok t ∧
      restrict flow (start bytes packets pidBytes pidPackets) es <+:
        restrict flow (start bytes packets pidBytes pidPackets) ops ∧
      (start bytes packets pidBytes pidPackets).run
        (restrict flow (start bytes packets pidBytes pidPackets) es) = .ok own ∧
      own.queue.timetable flow = t.queue.timetable flow ∧
      KeyedFifo.delivered PendingPacket.flow flow own.history =
        KeyedFifo.delivered PendingPacket.flow flow t.history := by
  rintro es ⟨rest, rfl⟩
  rw [run_append, bind_eq_ok] at hs
  obtain ⟨t, ht, -⟩ := hs
  obtain ⟨own, hown, hrel⟩ := (Restricts.start flow bytes packets pidBytes pidPackets).run
    (acceptsAll_of_append ha) ht
  exact ⟨t, own, ht, restrict_append_isPrefix flow _ es rest, hown, hrel.timetable,
    hrel.delivered⟩

section Mixed

def flowFrom (port : UInt16) : FlowKey := ⟨.v4 0, .v4 0, .tcp, port, 80⟩

def packetFrom (port : UInt16) (capture : ℕ) : PendingPacket where
  bytes := []
  address := {}
  capture := capture
  pid := none
  direction := .upload
  chargeLen := 0
  flow := flowFrom port

/-- Two packets of one flow and one of another, with a release between their deadlines. -/
def mixedOps : List QueueOp :=
  [.enqueue (packetFrom 1 0) 50, .enqueue (packetFrom 2 1) 10, .enqueue (packetFrom 1 2) 20,
    .popDue 10, .releaseMatching 30 (·.capture = 2), .popDue 60, .finish 1]

def mixed : Session := ((start 1000 10 1000 10).run mixedOps).toOption.getD (start 1000 10 1000 10)

theorem run_mixedOps : (start 1000 10 1000 10).run mixedOps = .ok mixed := by
  have hok : ((start 1000 10 1000 10).run mixedOps).toOption.isSome := by decide +kernel
  rw [mixed]
  cases hrun : (start 1000 10 1000 10).run mixedOps with
  | error e =>
    rw [hrun] at hok
    cases hok
  | ok s => rfl

theorem restrict_timetable_mixed : ∃ own,
    (start 1000 10 1000 10).run (restrict (flowFrom 1) (start 1000 10 1000 10) mixedOps) =
      .ok own ∧ own.queue.timetable (flowFrom 1) = mixed.queue.timetable (flowFrom 1) := by
  obtain ⟨t, own, ht, -, hown, htable, -⟩ := restrict_timetable (flowFrom 1) 1000 10 1000 10
    mixedOps mixed run_mixedOps (by decide +kernel) mixedOps (List.prefix_refl _)
  cases run_mixedOps.symm.trans ht
  exact ⟨own, hown, htable⟩

end Mixed

end Session

end FlowBrake.Windows
