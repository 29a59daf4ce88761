import Mathlib.Algebra.BigOperators.Group.List.Basic
import Mathlib.Algebra.Order.Ring.Int
import FlowBrake.Windows.Engine.Queue

/-! Every packet that was counted has one fate: what was received is sent, dropped, held by the
queue, or in the hands of a thread. -/
namespace FlowBrake.Windows
open FlowBrake.Core Transition

/-- How many counted packets the operation has still to decide, less those it still counts. -/
def Op.undecided : Op → ℤ
  | .tally .processed => -1
  | .tally .dropTotal => 1
  | .finish _ => -1
  | op => op.carries.length

/-- How far the operation takes the total of drops past the sum of their reasons. -/
def Op.unreasoned : Op → ℤ
  | .tally (.dropReason _) => -1
  | .tally .dropTotal => 1
  | _ => 0

def undecided (ops : List Op) : ℤ := (ops.map Op.undecided).sum

def unreasoned (ops : List Op) : ℤ := (ops.map Op.unreasoned).sum

/-- An operation on a packet is followed by exactly one `finish`, in the sender. -/
def Balanced : List Op → Prop
  | [] => True
  | op :: rest =>
    (op.carries ≠ [] → undecided rest = -1 ∧ unreasoned rest = 0) ∧ Balanced rest

section Lists
variable (op : Op) (ops ops' : List Op)

@[simp] theorem undecided_nil : undecided [] = 0 := rfl

@[simp] theorem undecided_cons : undecided (op :: ops) = op.undecided + undecided ops := by
  simp [undecided]

@[simp] theorem undecided_append : undecided (ops ++ ops') = undecided ops + undecided ops' := by
  simp [undecided]

@[simp] theorem unreasoned_nil : unreasoned [] = 0 := rfl

@[simp] theorem unreasoned_cons : unreasoned (op :: ops) = op.unreasoned + unreasoned ops := by
  simp [unreasoned]

@[simp] theorem unreasoned_append :
    unreasoned (ops ++ ops') = unreasoned ops + unreasoned ops' := by
  simp [unreasoned]

theorem undecided_edits (edits : List Edit) : undecided (edits.map .edit) = 0 := by
  induction edits with
  | nil => rfl
  | cons edit edits ih => simpa [Op.undecided, Op.carries] using ih

theorem unreasoned_edits (edits : List Edit) : unreasoned (edits.map .edit) = 0 := by
  induction edits with
  | nil => rfl
  | cons edit edits ih => simpa [Op.unreasoned] using ih

theorem undecided_recordBytes (pid : Option UInt32) (direction : Direction) (bytes : ℕ) :
    undecided (recordBytes pid direction bytes) = 0 := by
  unfold recordBytes
  split
  · rfl
  · cases pid <;> simp [Op.undecided, Op.carries]

theorem unreasoned_recordBytes (pid : Option UInt32) (direction : Direction) (bytes : ℕ) :
    unreasoned (recordBytes pid direction bytes) = 0 := by
  unfold recordBytes
  split
  · rfl
  · cases pid <;> simp [Op.unreasoned]

end Lists

namespace State

/-- The counted packets whose fate the counters and the queue tell, less all that were counted. -/
def settled (s : State) : ℤ :=
  s.sentOk + s.counters.packetsDropped + s.queue.usage.packets - s.counters.packetsProcessed

def unexplained (s : State) : ℤ := s.counters.packetsDropped - s.counters.dropReasons

theorem check_undecided (s : State) (c : Check) :
    undecided (s.check c) = (Op.check c).undecided ∧ unreasoned (s.check c) = 0 := by
  cases c <;> simp only [check]
  case apply command =>
    simp [undecided_edits, unreasoned_edits, Op.undecided, Op.unreasoned, Op.carries]
  all_goals repeat' split
  all_goals
    simp [Op.undecided, Op.unreasoned, Op.carries, recordDrop, fail, drainQueue]

theorem tally_ledger (s : State) (tally : Tally) :
    settled { s with counters := tally.apply s.counters } = s.settled + (Op.tally tally).undecided ∧
      unexplained { s with counters := tally.apply s.counters } =
        s.unexplained + (Op.tally tally).unreasoned := by
  cases tally with
  | dropReason reason =>
    cases reason <;>
      simp [settled, unexplained, Tally.apply, Counters.add, Counters.dropReasons, Op.undecided,
        Op.unreasoned, Op.carries] <;> omega
  | recordGlobal direction bytes =>
    cases direction <;>
      simp [settled, unexplained, Tally.apply, Counters.addGlobal, Counters.dropReasons,
        Op.undecided, Op.unreasoned, Op.carries]
  | _ =>
    simp [settled, unexplained, Tally.apply, Counters.addPid, Counters.dropReasons, Op.undecided,
      Op.unreasoned, Op.carries]
    try omega

/-- What an operation does to the ledger, it leaves the less to do. -/
theorem exec_ledger {s s' : State} (hq : s.QueueOk) {t : Tid} {env : Env} {op : Op}
    {rest pushed : List Op} (hops : s.ops t = op :: rest) (hallowed : op.allowed t)
    (h : s.exec t env op = some (.next s' pushed)) :
    s'.settled + undecided pushed = s.settled + op.undecided ∧
      s'.unexplained + unreasoned pushed = s.unexplained + op.unreasoned := by
  cases op
  case check c =>
    cases h
    obtain ⟨hu, hr⟩ := check_undecided s c
    exact ⟨by rw [hu], by rw [hr]; rfl⟩
  case tally tally =>
    cases h
    simpa using tally_ledger s tally
  case ioSend p =>
    simp only [exec, ioSend] at h
    split at h <;> cases h
    · simp [undecided_recordBytes, unreasoned_recordBytes, settled, unexplained, Op.undecided,
        Op.unreasoned, Op.carries]
      omega
    · split <;> simp [settled, unexplained, Op.undecided, Op.unreasoned, Op.carries, recordDrop,
        fail, drainQueue]
  case dispatch a delayMs =>
    simp only [exec, Option.some.injEq] at h
    rcases dispatch_cases hq a delayMs with
      ⟨he, -⟩ | he | ⟨-, queue, ⟨he, -, -, -, husage⟩ | ⟨he, -⟩⟩ <;> cases he.symm.trans h
    · simp [Op.undecided, Op.unreasoned, Op.carries, send]
    · simp [Op.undecided, Op.unreasoned, Op.carries, recordDrop]
    · simp [settled, unexplained, husage, Op.undecided, Op.unreasoned, Op.carries]
      omega
  case senderLoop =>
    simp only [exec, Option.some.injEq] at h
    rcases senderLoop_next hq with ⟨op, he, hop⟩ | ⟨packet, queue, he, -, -, husage, -⟩ <;>
      cases he.symm.trans h
    · rcases hop with rfl | ⟨deadline, rfl⟩ <;> simp [Op.undecided, Op.unreasoned, Op.carries]
    · simp [settled, unexplained, husage, Op.undecided, Op.unreasoned, Op.carries, send]
  case finish packet =>
    have ht : t = .sender := by simpa [Op.allowed] using hallowed
    subst ht
    have hmem := mem_inFlight hq hops
    obtain ⟨queue, he, hc, -, horder⟩ := finish_next hq hmem .sender env
    cases he.symm.trans h
    have hpos := List.length_pos_of_mem hmem
    have husage := hc.usage_packets
    rw [horder, List.length_erase_of_mem hmem] at husage
    have husage₀ := hq.consistent.usage_packets
    simp [settled, unexplained, Op.undecided, Op.unreasoned]
    omega
  case releaseAll =>
    obtain ⟨queue, he, hc, -, horder⟩ := releaseAll_next hq t env
    cases he.symm.trans h
    have husage := hc.usage_packets
    rw [horder, ← hq.consistent.usage_packets] at husage
    simp [settled, unexplained, husage, Op.undecided, Op.unreasoned, Op.carries]
  case releaseRevised =>
    obtain ⟨queue, he, hc, -, horder⟩ := releaseRevised_next hq t env
    cases he.symm.trans h
    have husage := hc.usage_packets
    rw [horder, ← hq.consistent.usage_packets] at husage
    simp [settled, unexplained, husage, Op.undecided, Op.unreasoned, Op.carries]
  case discardPending =>
    cases h
    simp [settled, unexplained, Counters.dropReasons, DelayQueue.packetCount, Op.undecided,
      Op.unreasoned, Op.carries]
    omega
  all_goals
    simp only [exec] at h
    repeat' split at h
    all_goals
      cases h
      try simp [settled, unexplained, Counters.dropReasons, Op.undecided, Op.unreasoned, Op.carries,
        recordDrop, send, stop, drainQueue, discardPending, fail]

theorem check_balanced {s : State} {c : Check} {rest : List Op}
    (hallowed : (Op.check c).allowed .sender) (h : Balanced (.check c :: rest)) :
    Balanced (s.check c ++ rest) := by
  obtain ⟨hc, hb⟩ := h
  cases c
  case sendAborted | sendGlobalBlocks | sendProcessBlocks =>
    simp only [check]
    split <;> simp_all [Balanced, Op.carries, recordDrop]
  all_goals simp [Op.allowed] at hallowed

theorem balanced_tallies {tallies : List Tally} {rest : List Op} (h : Balanced rest) :
    Balanced (tallies.map .tally ++ rest) := by
  induction tallies with
  | nil => exact h
  | cons tally tallies ih => exact ⟨by simp [Op.carries], ih⟩

theorem exec_balanced {s s' : State} {env : Env} {op : Op} {rest pushed : List Op}
    (hallowed : op.allowed .sender) (hfinal : op.final → rest = []) (h : Balanced (op :: rest))
    (hexec : s.exec .sender env op = some (.next s' pushed)) : Balanced (pushed ++ rest) := by
  obtain ⟨hc, hb⟩ := h
  cases op
  case check c =>
    cases hexec
    exact check_balanced hallowed ⟨hc, hb⟩
  case ioSend p =>
    simp only [exec, ioSend] at hexec
    split at hexec <;> cases hexec
    · obtain ⟨tallies, ht⟩ := recordBytes_eq_map p.pid p.direction p.chargeLen
      exact ht ▸ balanced_tallies hb
    · split <;> simp [Balanced, Op.carries, recordDrop, fail, drainQueue, hb]
  case lockGate | unlockGate | lockQueue | unlockQueue | tally | note | senderLoop | finish | park
      | awaken | releaseAll | discardPending =>
    simp only [exec, senderLoop, tryQueue] at hexec
    repeat' split at hexec
    all_goals
      cases hexec <;>
        simp_all [Balanced, Op.carries, Op.final, Op.undecided, Op.unreasoned, send]
  all_goals simp [Op.allowed] at hallowed

theorem Reachable.balanced {s : State} (h : s.Reachable) : Balanced (s.ops .sender) := by
  refine h.invariant (I := fun s => Balanced (s.ops .sender)) trivial ?_
  intro s label s' hr hb hstep
  have hother {t : Tid} {env : Env} {op : Op} {o : Outcome} (h : s.exec t env op = some o) :
      Balanced (o.state.ops .sender) := by
    rcases exec_ops h .sender with he | ⟨-, -, he⟩ | ⟨-, ht, -⟩
    · exact he ▸ hb
    · simp [he, runWorker, Balanced, Op.carries]
    · cases ht
  cases hstep with
  | tick elapsed => exact hb
  | call hops hbegin =>
    rw [begin_ops hbegin, Function.update_of_ne (by decide)]
    exact hb
  | @next t env op rest pushed s₁ hops hexec =>
    by_cases ht : t = .sender
    · subst ht
      obtain ⟨hall, hshape⟩ := hops ▸ hr.shape .sender
      simp only [List.all_cons, Bool.and_eq_true] at hall
      rw [setOps_self]
      exact exec_balanced hall.1 hshape.1 (hops ▸ hb) hexec
    · rw [setOps_of_ne _ (Ne.symm ht)]
      exact hother hexec
  | @panic t env op rest s₁ hops hexec =>
    by_cases ht : t = .sender
    · subst ht
      rw [panicked_self]
      unfold unwind
      split <;> split <;>
        simp [afterPanic, fail, drainQueue, discardPending, Balanced, Op.carries]
    · rw [panicked_of_ne _ (Ne.symm ht)]
      exact hother hexec

/-- The sum of a measure over all that the threads have still to do. -/
def pending (s : State) (measure : List Op → ℤ) : ℤ :=
  measure (s.ops .receiver) + measure (s.ops .sender) + measure (s.ops .ui)

/-- Every counted packet was sent, dropped for a reason, is held by the queue or is in the hands
of a thread. -/
structure Ledger (s : State) : Prop where
  fates : s.settled + s.pending undecided = 0
  reasons : s.unexplained + s.pending unreasoned = 0

/-- A step changes the sum by what it does to its own thread: a thread that starts has nothing
in its hands. -/
theorem exec_pending {s : State} (s' : State) (hr : s.Reachable) {measure : List Op → ℤ}
    (hnil : measure [] = 0) (hworker : ∀ receiving, measure (runWorker receiving) = 0) {t : Tid}
    {env : Env} {op : Op} {rest ops : List Op} {o : Outcome} (hops : s.ops t = op :: rest)
    (h : s.exec t env op = some o) (hs' : s'.ops = Function.update o.state.ops t ops) :
    s'.pending measure = s.pending measure - measure (op :: rest) + measure ops := by
  have hother (t' : Tid) (ht : t' ≠ t) : measure (s'.ops t') = measure (s.ops t') := by
    rw [hs', Function.update_of_ne ht]
    rcases exec_ops h t' with he | ⟨rfl, rfl, he⟩ | ⟨rfl, rfl, he⟩
    · rw [he]
    · have hidle := hr.handles.sender (hr.handles.joined _ (ui_op hr hops rfl)).2.2
      rw [he, hworker, hidle, hnil]
    · have hidle := hr.handles.worker (hr.handles.joined _ (ui_op hr hops rfl)).2
      rw [he, hworker, hidle, hnil]
  have hself : measure (s'.ops t) = measure ops := by rw [hs', Function.update_self]
  unfold pending
  cases t with
  | receiver => rw [hself, hother .sender (by decide), hother .ui (by decide), hops]; omega
  | sender => rw [hself, hother .receiver (by decide), hother .ui (by decide), hops]; omega
  | ui => rw [hself, hother .receiver (by decide), hother .sender (by decide), hops]; omega

theorem undecided_runWorker (receiving : Bool) : undecided (runWorker receiving) = 0 := by
  cases receiving <;> rfl

theorem unreasoned_runWorker (receiving : Bool) : unreasoned (runWorker receiving) = 0 := by
  cases receiving <;> rfl

theorem afterPanic_ledger (s : State) (t : Tid) :
    undecided (s.unwind t ++ afterPanic t) = 0 ∧ unreasoned (s.unwind t ++ afterPanic t) = 0 := by
  unfold unwind
  split <;> split <;> cases t <;>
    simp [afterPanic, fail, drainQueue, recvDone, discardPending, Op.undecided, Op.unreasoned,
      Op.carries]

theorem exec_receiverPanicked {s : State} {t : Tid} {env : Env} {op : Op} {o : Outcome}
    (h : s.exec t env op = some o) : o.state.receiverPanicked = s.receiverPanicked := by
  cases op
  all_goals
    simp only [exec, dispatch, senderLoop, ioSend, tryQueue] at h
    repeat' split at h
    all_goals cases h <;> rfl

theorem Reachable.ledger {s : State} (h : s.Reachable) :
    s.receiverPanicked = false → s.Ledger := by
  refine h.invariant (I := fun s => s.receiverPanicked = false → s.Ledger) ?_ ?_
  · exact fun _ => ⟨rfl, rfl⟩
  intro s label s' hr hs hstep hpanic
  cases hstep with
  | tick elapsed => exact ⟨(hs hpanic).fates, (hs hpanic).reasons⟩
  | @call call s' hops hbegin =>
    have hprogram : undecided call.program = 0 ∧ unreasoned call.program = 0 := by
      cases call <;>
        simp [UiCall.program, stop, apply, Op.undecided, Op.unreasoned, Op.carries]
    rcases begin_eq_some hbegin with ⟨-, hactive, rfl⟩ | ⟨-, rfl⟩
    · obtain ⟨hw, hsd⟩ := hr.handles.stopped hactive
      have hrecv := hr.handles.worker hw
      have hsend := hr.handles.sender hsd
      constructor <;>
        simp [settled, unexplained, pending, startWithIo, setOps, Counters.dropReasons,
          Function.update, hrecv, hsend, hprogram]
    · have hl := hs hpanic
      constructor
      · simpa [pending, setOps, Function.update, hprogram, hops, settled] using hl.fates
      · simpa [pending, setOps, Function.update, hprogram, hops, unexplained] using hl.reasons
  | @next t env op rest pushed s₁ hops hexec =>
    have hp : s.receiverPanicked = false := exec_receiverPanicked hexec ▸ hpanic
    have hall := hr.allowed hops
    obtain ⟨hu, hn⟩ := exec_ledger hr.queueOk hops hall hexec
    have hpu := exec_pending (s₁.setOps t (pushed ++ rest)) hr
      undecided_nil undecided_runWorker hops hexec rfl
    have hpn := exec_pending (s₁.setOps t (pushed ++ rest)) hr
      unreasoned_nil unreasoned_runWorker hops hexec rfl
    simp only [undecided_append, undecided_cons, unreasoned_append, unreasoned_cons] at hpu hpn
    have hf := (hs hp).fates
    have hrs := (hs hp).reasons
    constructor
    · change s₁.settled + _ = 0
      omega
    · change s₁.unexplained + _ = 0
      omega
  | @panic t env op rest s₁ hops hexec =>
    have ht : t ≠ .receiver := fun ht => by simp [panicked, ht] at hpanic
    obtain ⟨p, rfl, rfl⟩ := (panic_cases hr hops hexec).resolve_right ht
    have hp : s.receiverPanicked = false := by simpa [panicked, ht] using hpanic
    have hsender : t = .sender := by
      have hui := panic_ne_ui hr hops hexec
      cases t <;> simp_all
    subst hsender
    have hb : Balanced (.ioSend p :: rest) := hops ▸ hr.balanced
    obtain ⟨hu, hn⟩ := hb.1 (by simp [Op.carries])
    obtain ⟨hu', hn'⟩ := afterPanic_ledger { s with sent := s.sent ++ [p] } .sender
    have hpu := exec_pending (panicked { s with sent := s.sent ++ [p] } .sender) hr
      undecided_nil undecided_runWorker hops hexec rfl
    have hpn := exec_pending (panicked { s with sent := s.sent ++ [p] } .sender) hr
      unreasoned_nil unreasoned_runWorker hops hexec rfl
    rw [undecided_cons, hu, hu'] at hpu
    rw [unreasoned_cons, hn, hn'] at hpn
    have hf := (hs hp).fates
    have hrs := (hs hp).reasons
    simp only [Op.undecided, Op.unreasoned, Op.carries, List.length_singleton] at hpu hpn
    constructor
    · change s.settled + _ = 0
      omega
    · change s.unexplained + _ = 0
      omega

/-- Once `stop` has taken the worker, it discards what the queue still holds. -/
def Drained (s : State) : Prop :=
  s.activeWorker = false → .discardPending ∈ s.ops .ui ∨
    s.queue.inOrder = [] ∧ s.inFlight = [] ∧ s.lost = []

theorem exec_activeWorker {s : State} {t : Tid} {env : Env} {op : Op} {o : Outcome}
    (hop : op ≠ .takeActiveWorker) (h : s.exec t env op = some o) :
    o.state.activeWorker = s.activeWorker := by
  cases op
  case takeActiveWorker => exact absurd rfl hop
  all_goals
    simp only [exec, dispatch, senderLoop, ioSend, tryQueue] at h
    repeat' split at h
    all_goals cases h <;> rfl

theorem exec_drained {s s' : State} (hr : s.Reachable) {env : Env} {op : Op}
    {rest pushed : List Op} (hops : s.ops .ui = op :: rest) (hd : s.Drained)
    (h : s.exec .ui env op = some (.next s' pushed)) (ha : s'.activeWorker = false) :
    .discardPending ∈ pushed ++ rest ∨ s'.queue.inOrder = [] ∧ s'.inFlight = [] ∧ s'.lost = [] := by
  by_cases htake : op = .takeActiveWorker
  · subst htake
    cases h
    exact .inl (by simp [discardPending])
  by_cases hdiscard : op = .discardPending
  · subst hdiscard
    cases h
    exact .inr ⟨rfl, rfl, rfl⟩
  have hactive : s.activeWorker = false := (exec_activeWorker htake h).symm.trans ha
  have hkeep :
      s'.queue.inOrder = s.queue.inOrder ∧ s'.inFlight = s.inFlight ∧ s'.lost = s.lost := by
    have hall := hr.allowed hops
    cases op
    case releaseAll =>
      obtain ⟨queue, he, -, -, horder⟩ := releaseAll_next hr.queueOk .ui env
      cases he.symm.trans h
      exact ⟨horder, rfl, rfl⟩
    case releaseRevised =>
      obtain ⟨queue, he, -, -, horder⟩ := releaseRevised_next hr.queueOk .ui env
      cases he.symm.trans h
      exact ⟨horder, rfl, rfl⟩
    case dispatch | senderLoop | finish => simp [Op.allowed] at hall
    case discardPending => exact absurd rfl hdiscard
    all_goals
      obtain ⟨hqueue, hfl, hlost⟩ := exec_queue rfl h
      exact ⟨congrArg _ hqueue, hfl, hlost⟩
  rcases hd hactive with hm | hempty
  · rw [hops] at hm
    exact .inl (List.mem_append_right _ ((List.mem_cons.mp hm).resolve_left (Ne.symm hdiscard)))
  · rw [hkeep.1, hkeep.2.1, hkeep.2.2]
    exact .inr hempty

theorem Reachable.drained {s : State} (h : s.Reachable) : s.Drained := by
  refine h.invariant (I := Drained) (fun _ => .inr ⟨rfl, rfl, rfl⟩) ?_
  intro s label s' hr hd hstep ha
  have hidle {t : Tid} {env : Env} {op : Op} {rest : List Op} {o : Outcome} (ht : t ≠ .ui)
      (hops : s.ops t = op :: rest) (hexec : s.exec t env op = some o) :
      o.state.activeWorker = true := by
    have hall := hr.allowed hops
    rw [exec_activeWorker (by rintro rfl; simp_all [Op.allowed]) hexec]
    by_contra hactive
    obtain ⟨hw, hsd⟩ := hr.handles.stopped (by simpa using hactive)
    cases t with
    | receiver => simp [hr.handles.worker hw] at hops
    | sender => simp [hr.handles.sender hsd] at hops
    | ui => exact ht rfl
  cases hstep with
  | tick elapsed => exact hd ha
  | @call call s' hops hbegin =>
    rcases begin_eq_some hbegin with ⟨-, -, rfl⟩ | ⟨-, rfl⟩
    · cases ha
    · exact .inr ((hd ha).resolve_left (by simp [hops]))
  | @next t env op rest pushed s₁ hops hexec =>
    by_cases ht : t = .ui
    · subst ht
      rw [setOps_self]
      exact (exec_drained hr hops hd hexec ha :)
    · cases ha.symm.trans (hidle ht hops hexec)
  | @panic t env op rest s₁ hops hexec =>
    cases ha.symm.trans (hidle (panic_ne_ui hr hops hexec) hops hexec)

/-- When `stop` has returned, every packet counted since the start was sent or dropped, every
drop has its reason, and the queue is empty, unless the receiver panicked. -/
theorem conservation {s : State} (hr : s.Reachable) (hs : s.Stopped)
    (hp : s.receiverPanicked = false) :
    s.counters.packetsProcessed = s.sentOk + s.counters.packetsDropped ∧
      s.counters.packetsDropped =
        s.counters.packetsBlocked + s.counters.packetsLossDropped + s.counters.packetsRateDropped
          + s.counters.packetsQueueDropped + s.counters.packetsSendFailed
          + s.counters.packetsShutdownDropped ∧
      s.queue.packetCount = 0 ∧ s.queue.byteCount = 0 := by
  obtain ⟨hui, hactive⟩ := hs
  obtain ⟨hw, hsd⟩ := hr.handles.stopped hactive
  obtain ⟨horder, hfl, hlost⟩ := (hr.drained hactive).resolve_left (by simp [hui])
  have hqueued : s.queue.queued = [] :=
    List.eq_nil_of_length_eq_zero (by rw [← s.queue.inOrder_perm.length_eq, horder]; rfl)
  have hc := hr.queueOk.consistent
  rw [hfl, hlost] at hc
  have hpackets : s.queue.usage.packets = 0 := by simpa [hqueued] using hc.packets
  have hbytes : s.queue.usage.bytes = 0 := by simpa [hqueued, byteSum] using hc.bytes
  have hf := (hr.ledger hp).fates
  have hrs := (hr.ledger hp).reasons
  simp only [pending, hui, hr.handles.worker hw, hr.handles.sender hsd, undecided_nil,
    unreasoned_nil, settled, unexplained, Counters.dropReasons, hpackets] at hf hrs
  refine ⟨by omega, by omega, hpackets, hbytes⟩

/-- A start, one packet sent without delay, and a stop. -/
def onePacketRun : List Label :=
  let packet : List UInt8 := [0x45, 0, 0, 28, 0, 0, 0, 0, 64, 17, 0, 0, 127, 0, 0, 1,
    192, 0, 2, 1, 0x12, 0x34, 0, 53, 0, 8, 0, 0]
  let arrives : Env := { recv := .ok (packet, ⟨0x00020000⟩) }
  let closed : Env := { recv := .error ⟨some 232, []⟩ }
  [.call .startWithIo] ++ List.replicate 2 (.run .ui {})
    ++ List.replicate 31 (.run .receiver arrives) ++ [.call .stop]
    ++ List.replicate 8 (.run .ui {}) ++ List.replicate 7 (.run .receiver closed)
    ++ List.replicate 3 (.run .sender {}) ++ List.replicate 9 (.run .ui {})

theorem conservation_onePacketRun : ∃ s : State, follow {} onePacketRun = some s ∧
    s.counters.packetsProcessed = 1 ∧
    s.counters.packetsProcessed = s.sentOk + s.counters.packetsDropped := by
  have hrun : ∃ s, follow {} onePacketRun = some s ∧ s.ops .ui = [] ∧ s.activeWorker = false ∧
      s.counters.packetsProcessed = 1 ∧ s.receiverPanicked = false :=
    ⟨_, rfl, rfl, rfl, rfl, rfl⟩
  obtain ⟨s, hrun, hidle, hactive, hcount, hpanic⟩ := hrun
  exact ⟨s, hrun, hcount, (conservation (.of_follow hrun) ⟨hidle, hactive⟩ hpanic).1⟩

end State

end FlowBrake.Windows
