import FlowBrake.Windows.Engine.Deadlines
import FlowBrake.Windows.Engine.Ledger
import FlowBrake.Windows.Engine.Wake

/-! Where nothing fails, a stop flushes the queue before it closes the driver. -/
namespace FlowBrake.Windows
open FlowBrake.Core Transition KeyOrder

def Op.aborts : Op → Bool
  | .note .abort => true
  | _ => false

/-- The operations of the sender's loop, one of which it has left until the loop ends. -/
def Op.loops : Op → Bool
  | .senderLoop | .park _ | .awaken _ => true
  | _ => false

def Op.closes : Op → Bool
  | .note .close => true
  | _ => false

/-- The operations that thread `t` comes to without a failure. -/
def Op.sound (t : Tid) : Op → Bool
  | .note .abort | .tally (.dropReason .shutdown) => false
  | .discardPending => t = .ui
  | _ => true

/-- The driver is closed before the queue is discarded, and at no other time. -/
def Closing : List Op → Prop
  | [] => True
  | op :: rest => (op = .note .close → .discardPending ∈ rest) ∧ rest.all (!·.closes)

theorem Closing.of_all {ops : List Op} (h : ops.all (!·.closes)) : Closing ops := by
  cases ops with
  | nil => trivial
  | cons op rest =>
    rw [List.all_cons, Bool.and_eq_true] at h
    refine ⟨?_, h.2⟩
    rintro rfl
    cases h.1

namespace State

/-- The step panics, or meets an error on which the code calls `fail`. -/
def fatal (s : State) : Label → Bool
  | .run t env =>
    match s.ops t with
    | [] => false
    | op :: _ =>
      match s.exec t env op with
      | some (.next _ pushed) => pushed.any Op.aborts
      | some (.panic _) => true
      | none => false
  | _ => false

/-- The states of a new engine's runs without panics or fatal I/O errors. -/
def Faultless : State → Prop :=
  Transition.Reachable (fun s label s' => s.fatal label = false ∧ s.step label = some s') (· = {})

/-- The steps of such runs. -/
inductive FaultlessStep (s : State) : Label → State → Prop
  | tick (elapsed : ℕ) : FaultlessStep s (.tick elapsed) { s with now := s.now + elapsed }
  | call {call : UiCall} {s' : State} : s.ops .ui = [] → s.begin call = some s' →
      FaultlessStep s (.call call) s'
  | next {t : Tid} {env : Env} {op : Op} {rest pushed : List Op} {s' : State} :
      s.ops t = op :: rest → s.exec t env op = some (.next s' pushed) →
      pushed.all (!·.aborts) → FaultlessStep s (.run t env) (s'.setOps t (pushed ++ rest))

theorem FaultlessStep.of_step {s s' : State} {label : Label} (hf : s.fatal label = false)
    (h : s.step label = some s') : FaultlessStep s label s' := by
  cases Step.of_step h with
  | tick elapsed => exact .tick elapsed
  | call hops hbegin => exact .call hops hbegin
  | next hops hexec =>
    simp only [fatal, hops, hexec] at hf
    exact .next hops hexec (by simpa using hf)
  | panic hops hexec =>
    simp only [fatal, hops, hexec] at hf
    cases hf

theorem Faultless.reachable {s : State} (h : s.Faultless) : s.Reachable :=
  h.mono fun _ _ _ hstep => hstep.2

theorem Faultless.invariant {I : State → Prop} (h0 : I {})
    (hI : ∀ s label s', s.Faultless → I s → s.FaultlessStep label s' → I s') {s : State}
    (h : s.Faultless) : I s :=
  Transition.Reachable.invariant (fun _ he => he ▸ h0)
    (fun s label s' hr hs hstep => hI s label s' hr hs (.of_step hstep.1 hstep.2)) h

/-- The state after a run without panics or fatal I/O errors. -/
def followFaultless (s : State) : List Label → Option State
  | [] => some s
  | label :: labels =>
    if s.fatal label then none else (s.step label).bind (·.followFaultless labels)

theorem Faultless.of_follow {s s' : State} {labels : List Label} (h : s.Faultless)
    (hf : s.followFaultless labels = some s') : s'.Faultless := by
  induction labels generalizing s with
  | nil =>
    cases hf
    exact h
  | cons label labels ih =>
    simp only [followFaultless, Option.ite_none_left_eq_some, Bool.not_eq_true] at hf
    obtain ⟨hfatal, hf⟩ := hf
    obtain ⟨s₁, hstep, hf⟩ := Option.bind_eq_some_iff.mp hf
    exact ih (h.next ⟨hfatal, hstep⟩) hf

/-- Nothing has failed. -/
structure Unfailed (s : State) : Prop where
  aborted : s.status.aborted = false
  ops : ∀ t, (s.ops t).all (Op.sound t)
  lost : s.lost = []
  receiverPanicked : s.receiverPanicked = false

theorem check_sound {s : State} {t : Tid} {c : Check} (haborted : s.status.aborted = false)
    (h : (s.check c).all (!·.aborts)) : (s.check c).all (Op.sound t) := by
  cases c <;> simp only [check] at h ⊢
  case apply command => simp [Op.sound]
  all_goals repeat' split
  all_goals simp_all [Op.sound, Op.aborts, recordDrop, fail, drainQueue]

theorem runStage_drop {s : State} {env : Env} {st : Stage} {reason : DropReason}
    (haborted : s.status.aborted = false) (h : (s.runStage env st).1 = .drop reason) :
    reason ≠ .shutdown := by
  rintro rfl
  cases st <;> simp only [runStage] at h <;> repeat' split at h
  all_goals simp_all

theorem sound_recordBytes (t : Tid) (pid : Option UInt32) (direction : Direction) (bytes : ℕ) :
    (recordBytes pid direction bytes).all (Op.sound t) := by
  unfold recordBytes
  split
  · rfl
  · cases pid <;> simp [Op.sound]

/-- A step that is no failure puts up none of a failure's operations. -/
theorem exec_sound {s s' : State} {t : Tid} {env : Env} {op : Op} {pushed : List Op}
    (hallowed : op.allowed t) (haborted : s.status.aborted = false)
    (h : s.exec t env op = some (.next s' pushed)) (hnone : pushed.all (!·.aborts)) :
    pushed.all (Op.sound t) := by
  cases op
  case check c =>
    cases h
    exact check_sound haborted hnone
  case ioSend p =>
    simp only [exec, ioSend] at h
    split at h <;> cases h
    · exact sound_recordBytes ..
    · split at hnone <;> simp_all [Op.sound, Op.aborts, recordDrop, fail, drainQueue]
  case stage st =>
    have hdrop : ∀ reason, (s.runStage env st).1 = .drop reason → reason ≠ .shutdown :=
      fun _ => runStage_drop haborted
    simp only [exec] at h
    split at h
    all_goals
      next hv =>
        rw [hv] at hdrop
        cases h <;> simp_all [Op.sound, recordDrop, send]
  all_goals
    simp only [Op.allowed, decide_eq_true_eq] at hallowed
    simp only [exec, dispatch, senderLoop, tryQueue] at h
    repeat' split at h
    all_goals
      cases h <;>
        simp_all [Op.sound, Op.aborts, recordDrop, send, stop, drainQueue, discardPending, fail]

theorem exec_lost {s s' : State} {t : Tid} {env : Env} {op : Op} {pushed : List Op}
    (h : s.exec t env op = some (.next s' pushed)) : s'.lost = s.lost ∨ s'.lost = [] := by
  cases op
  all_goals
    simp only [exec, dispatch, senderLoop, ioSend, tryQueue] at h
    repeat' split at h
    all_goals cases h <;> simp

theorem Faultless.unfailed {s : State} (h : s.Faultless) : s.Unfailed := by
  refine h.invariant (I := Unfailed) ⟨rfl, fun _ => rfl, rfl, rfl⟩ ?_
  intro s label s' hf hs hstep
  have hr := hf.reachable
  cases hstep with
  | tick elapsed => exact ⟨hs.aborted, hs.ops, hs.lost, hs.receiverPanicked⟩
  | @call call s' hops hbegin =>
    have hall : ∀ t, (s'.ops t).all (Op.sound t) := by
      intro t
      rw [begin_ops hbegin]
      by_cases ht : t = .ui
      · subst ht
        rw [Function.update_self]
        cases call <;> rfl
      · rw [Function.update_of_ne ht]
        exact hs.ops t
    rcases begin_eq_some hbegin with ⟨-, -, rfl⟩ | ⟨-, rfl⟩
    · exact ⟨rfl, hall, rfl, rfl⟩
    · exact ⟨hs.aborted, hall, hs.lost, hs.receiverPanicked⟩
  | @next t env op rest pushed s₁ hops hexec hnone =>
    have hallowed := (hr.shape t).1
    have hsound := hs.ops t
    rw [hops, List.all_cons, Bool.and_eq_true] at hallowed hsound
    refine ⟨?_, fun t' => ?_, ?_, (exec_receiverPanicked hexec).trans hs.receiverPanicked⟩
    · refine ((exec_flags hexec).2.2.1.resolve_right ?_).trans hs.aborted
      rintro rfl
      cases hsound.1
    · by_cases ht : t' = t
      · subst ht
        rw [setOps_self, List.all_append, exec_sound hallowed.1 hs.aborted hexec hnone, hsound.2]
        rfl
      · rw [setOps_of_ne _ ht]
        rcases exec_ops hexec t' with he | ⟨-, -, he⟩ | ⟨-, -, he⟩
        · exact he ▸ hs.ops t'
        · exact he ▸ rfl
        · exact he ▸ rfl
    · rcases exec_lost hexec with hlost | hlost
      · exact hlost.trans hs.lost
      · exact hlost

/-- The packets in flight are those that the sender still has to finish. -/
theorem Faultless.inFlight {s : State} (h : s.Faultless) :
    s.inFlight = finishes (s.ops .sender) := by
  refine h.invariant (I := fun s => s.inFlight = finishes (s.ops .sender)) rfl ?_
  intro s label s' hf hs hstep
  have hr := hf.reachable
  cases hstep with
  | tick elapsed => exact hs
  | @call call s' hops hbegin =>
    have hsender : s'.ops .sender = s.ops .sender := by
      rw [begin_ops hbegin, Function.update_of_ne (by decide)]
    rcases begin_eq_some hbegin with ⟨-, hactive, rfl⟩ | ⟨-, rfl⟩
    · rw [hsender, hr.handles.sender (hr.handles.stopped hactive).2]
      rfl
    · exact hs.trans (congrArg finishes hsender.symm)
  | @next t env op rest pushed s₁ hops hexec hnone =>
    change s₁.inFlight = _
    have hallowed := (hr.shape t).1
    have hsound := hf.unfailed.ops t
    rw [hops, List.all_cons, Bool.and_eq_true] at hallowed hsound
    by_cases ht : t = .sender
    · subst ht
      rw [setOps_self, finishes_append]
      rw [hops] at hs
      cases op
      case senderLoop =>
        obtain rfl : rest = [] := (hops ▸ (hr.shape .sender).2).1 rfl
        simp only [exec, Option.some.injEq] at hexec
        rcases senderLoop_next hr.queueOk with ⟨op, he, hop⟩ | ⟨packet, queue, he, -⟩ <;>
          cases he.symm.trans hexec
        · rcases hop with rfl | ⟨deadline, rfl⟩ <;> exact hs
        · exact congrArg (packet :: ·) hs
      case finish packet =>
        have hfl : s.inFlight = packet :: finishes rest := hs
        obtain ⟨queue, he, -⟩ := finish_next hr.queueOk (mem_inFlight hr.queueOk hops) .sender env
        cases he.symm.trans hexec
        change s.inFlight.erase packet = _
        rw [hfl, List.erase_cons_head]
        rfl
      case discardPending => cases hsound.1
      all_goals
        have hfl : s₁.inFlight = s.inFlight := (exec_inFlight hexec).resolve_right (by simp)
        rw [exec_finishes (by simp) hexec, hfl]
        exact hs
    · rw [setOps_of_ne _ (Ne.symm ht)]
      have hsender : finishes (s₁.ops .sender) = finishes (s.ops .sender) := by
        rcases exec_ops hexec .sender with he | ⟨rfl, -, he⟩ | ⟨-, ht', -⟩
        · exact congrArg finishes he
        · have hidle := hr.handles.sender (hr.handles.joined _ (ui_op hr hops rfl)).2.2
          rw [hidle, show s₁.ops .sender = runWorker false from he]
          rfl
        · cases ht'
      rw [hsender]
      rcases exec_inFlight hexec with hfl | rfl | rfl | ⟨packet, rfl⟩
      · exact hfl.trans hs
      · exact absurd (by simpa [Op.allowed] using hallowed.1) ht
      · have hui : t = .ui := by simpa [Op.sound] using hsound.1
        subst hui
        have hjoined := hr.handles.joined .discardPending (by simp [hops])
        rw [hr.handles.sender hjoined.2]
        cases hexec
        rfl
      · exact absurd (by simpa [Op.allowed] using hallowed.1) ht

theorem check_receives {s : State} {c : Check} (h : (Op.check c).receives = false) :
    (s.check c).all (!·.receives) := by
  cases c
  case admitAborted | processDelay | globalDelay => cases h
  case apply command => simp [check, Op.receives]
  all_goals
    simp only [check]
    repeat' split
    all_goals simp [Op.receives, recordDrop, fail, drainQueue]

theorem exec_receives {s s' : State} {t : Tid} {env : Env} {op : Op} {pushed : List Op}
    (hop : op.receives = false) (h : s.exec t env op = some (.next s' pushed)) :
    pushed.all (!·.receives) := by
  cases op
  case check c =>
    cases h
    exact check_receives hop
  case ioSend p =>
    simp only [exec, ioSend] at h
    split at h <;> cases h
    · obtain ⟨tallies, ht⟩ := recordBytes_eq_map p.pid p.direction p.chargeLen
      simp [ht, Op.receives]
    · split <;> simp [Op.receives, recordDrop, fail, drainQueue]
  case stage | recvInit | recv | dispatch => cases hop
  all_goals
    simp only [exec, senderLoop, tryQueue] at h
    repeat' split at h
    all_goals
      cases h <;> simp [Op.receives, send, stop, drainQueue, discardPending, fail]

/-- Only a dispatch puts an entry into the queue. -/
theorem QueueStep.entries_nil {s : State} {op : Op} {queue : DelayQueue}
    (hstep : s.QueueStep op queue) (hop : op.receives = false)
    (h : s.queue.heap.entries = []) : queue.heap.entries = [] := by
  have hrelease {predicate : PendingPacket → Bool} {queue : DelayQueue}
      (hq : s.queue.releaseMatching s.now predicate = .ok queue) : queue.heap.entries = [] := by
    obtain ⟨flows, entries, he, rfl⟩ := DelayQueue.releaseMatching_eq_ok.mp hq
    rw [h] at he
    cases he
    rfl
  cases hstep with
  | keep => exact h
  | enqueue | exhaust => cases hop
  | pop entry heap state hpop =>
    rw [(MinHeap.pop?_eq_some hpop).1] at h
    cases h
  | finish packet queue hq =>
    rw [(DelayQueue.finish_eq_ok hq).1]
    exact h
  | releaseAll queue hq => exact hrelease hq
  | releaseRevised queue hq => exact hrelease hq
  | discard => rfl

/-- The sender leaves its loop only when the receiver has ended and nothing is queued. -/
structure Ending (s : State) : Prop where
  ended : (s.ops .sender).all (!·.loops) → s.queue.heap.entries = [] ∧
    (s.ops .receiver).all (!·.receives) ∧ (s.sender → s.status.recvDone)
  received : s.status.recvDone → (s.ops .receiver).all (!·.receives)
  spawning : ∀ op ∈ s.ops .ui, op.spawns →
    s.status.recvDone = false ∧ (op = .spawnReceiver → s.sender)
  failed : .note .recvDone ∈ s.ops .ui → s.worker = false

theorem exec_recvDone {s : State} {t : Tid} {env : Env} {op : Op} {o : Outcome}
    (h : s.exec t env op = some o) (hdone : s.status.recvDone) : o.state.status.recvDone := by
  rcases (exec_flags h).1 with he | rfl
  · exact he.trans hdone
  · cases h
    rfl

theorem Ending.next_receiver {s s' : State} (hs : s.Ending) (hr : s.Reachable) {env : Env}
    {op : Op} {rest pushed : List Op} (hops : s.ops .receiver = op :: rest)
    (h : s.exec .receiver env op = some (.next s' pushed)) :
    (s'.setOps .receiver (pushed ++ rest)).Ending := by
  obtain ⟨hw, hsd, -, ho⟩ := exec_handles_of_ne_ui hr hops (by decide) h
  have hsender : (s'.setOps .receiver (pushed ++ rest)).ops .sender = s.ops .sender :=
    (setOps_of_ne _ (by decide) _).trans (congrFun ho _)
  have hui : (s'.setOps .receiver (pushed ++ rest)).ops .ui = s.ops .ui :=
    (setOps_of_ne _ (by decide) _).trans (congrFun ho _)
  have hquiet (hrecv : (s.ops .receiver).all (!·.receives)) :
      op.receives = false ∧ (pushed ++ rest).all (!·.receives) := by
    rw [hops, List.all_cons, Bool.and_eq_true, Bool.not_eq_true'] at hrecv
    rw [List.all_append, exec_receives hrecv.1 h, hrecv.2]
    exact ⟨hrecv.1, rfl⟩
  refine ⟨fun hend => ?_, fun hdone => ?_, fun op' hm hspawns => ?_, fun hm => ?_⟩
  · rw [hsender] at hend
    obtain ⟨hentries, hrecv, hdone⟩ := hs.ended hend
    obtain ⟨hop, hall⟩ := hquiet hrecv
    refine ⟨(exec_queueStep hr hops h).entries_nil hop hentries, ?_, fun hstarted => ?_⟩
    · rw [setOps_self]
      exact hall
    · exact exec_recvDone h (hdone (hsd.symm.trans hstarted))
  · rw [setOps_self]
    rcases (exec_flags h).1 with he | rfl
    · exact (hquiet (hs.received (he.symm.trans hdone))).2
    · cases h
      exact (hops ▸ hr.script .receiver).1.2.2.2.1
  · rw [hui] at hm
    have hidle : s.worker = false := by
      have hjoined := hr.handles.joined op' hm
      cases op' <;> first | exact hjoined.2.1 | exact hjoined.2 | cases hspawns
    cases hops.symm.trans (hr.handles.worker hidle)
  · rw [hui] at hm
    exact hw.trans (hs.failed hm)

theorem Ending.next_sender {s s' : State} (hs : s.Ending) (hr : s.Reachable) {env : Env}
    {op : Op} {rest pushed : List Op} (hops : s.ops .sender = op :: rest)
    (h : s.exec .sender env op = some (.next s' pushed)) :
    (s'.setOps .sender (pushed ++ rest)).Ending := by
  obtain ⟨hw, hsd, -, ho⟩ := exec_handles_of_ne_ui hr hops (by decide) h
  have hreceiver : (s'.setOps .sender (pushed ++ rest)).ops .receiver = s.ops .receiver :=
    (setOps_of_ne _ (by decide) _).trans (congrFun ho _)
  have hui : (s'.setOps .sender (pushed ++ rest)).ops .ui = s.ops .ui :=
    (setOps_of_ne _ (by decide) _).trans (congrFun ho _)
  have hdone : s'.status.recvDone = s.status.recvDone := by
    refine (exec_flags h).1.resolve_right ?_
    rintro rfl
    exact (hops ▸ hr.script .sender).1.2.2.1 rfl
  have hallowed := hr.allowed hops
  refine ⟨fun hend => ?_, fun hd => ?_, fun op' hm hspawns => ?_, fun hm => ?_⟩
  · rw [setOps_self, List.all_append, Bool.and_eq_true] at hend
    rw [hreceiver]
    by_cases hloop : op = .senderLoop
    · subst hloop
      simp only [exec, Option.some.injEq] at h
      rcases hr.queueOk.consistent.popDue s.now with he | ⟨entry, heap, state, -, -, -, he, -⟩ <;>
        simp only [senderLoop, tryQueue, he] at h
      · split at h <;> cases h
        · next hexit =>
          simp only [Bool.and_eq_true, Option.isNone_iff_eq_none] at hexit
          exact ⟨DelayQueue.nextDeadline_eq_none.mp hexit.2, hs.received hexit.1, fun _ => hexit.1⟩
        · simp [Op.loops] at hend
      · cases h
        simp [Op.loops] at hend
    · have hold : (s.ops .sender).all (!·.loops) := by
        rw [hops, List.all_cons, hend.2, Bool.and_true]
        cases op
        case senderLoop => exact absurd rfl hloop
        case park deadline =>
          cases h
          simp [Op.loops] at hend
        case awaken deadline =>
          simp only [exec, Option.ite_none_right_eq_some] at h
          obtain ⟨-, h⟩ := h
          cases h
          simp [Op.loops] at hend
        all_goals rfl
      obtain ⟨hentries, hrecv, hended⟩ := hs.ended hold
      refine ⟨(exec_queueStep hr hops h).entries_nil ?_ hentries, hrecv, fun hstarted => ?_⟩
      · exact receives_of_allowed hallowed (by decide)
      · exact hdone.trans (hended (hsd.symm.trans hstarted))
  · rw [hreceiver]
    exact hs.received (hdone.symm.trans hd)
  · rw [hui] at hm
    obtain ⟨hd, hstarted⟩ := hs.spawning op' hm hspawns
    exact ⟨hdone.trans hd, fun hop => hsd.trans (hstarted hop)⟩
  · rw [hui] at hm
    exact hw.trans (hs.failed hm)

theorem Ending.spawnSender {s s' : State} (hs : s.Ending) {env : Env} {pushed : List Op}
    (hops : s.ops .ui = [.spawnSender])
    (h : s.exec .ui env .spawnSender = some (.next s' pushed)) :
    (s'.setOps .ui pushed).Ending := by
  obtain ⟨hdone, -⟩ := hs.spawning .spawnSender (by simp [hops]) rfl
  simp only [exec] at h
  split at h <;> cases h
  · refine ⟨fun hend => ?_, fun hd => ?_, fun op hm _ => ?_, fun hm => ?_⟩
    · rw [setOps_of_ne _ (by decide)] at hend
      simp [runWorker, Op.loops] at hend
    · exact absurd (hdone.symm.trans hd) (by simp)
    · rw [setOps_self] at hm
      exact ⟨hdone, fun _ => rfl⟩
    · rw [setOps_self] at hm
      simp at hm
  · refine ⟨hs.ended, hs.received, fun op hm hspawns => ?_, fun hm => ?_⟩
    · rw [setOps_self] at hm
      cases List.mem_singleton.mp hm
      cases hspawns
    · rw [setOps_self] at hm
      simp [stop] at hm

theorem Ending.spawnReceiver {s s' : State} (hs : s.Ending) (hr : s.Reachable) {env : Env}
    {pushed : List Op} (hops : s.ops .ui = [.spawnReceiver])
    (h : s.exec .ui env .spawnReceiver = some (.next s' pushed)) :
    (s'.setOps .ui pushed).Ending := by
  obtain ⟨hdone, hstarted⟩ := hs.spawning .spawnReceiver (by simp [hops]) rfl
  obtain ⟨-, hw⟩ := hr.handles.joined .spawnReceiver (by simp [hops])
  simp only [exec] at h
  split at h <;> cases h
  -- The sender is still in its loop: it waits for the receiver.
  · refine ⟨fun hend => ?_, fun hd => ?_, fun op hm _ => ?_, fun hm => ?_⟩
    · have hended := (hs.ended hend).2.2 (hstarted rfl)
      exact absurd (hdone.symm.trans hended) (by simp)
    · exact absurd (hdone.symm.trans hd) (by simp)
    · rw [setOps_self] at hm
      cases hm
    · rw [setOps_self] at hm
      cases hm
  · refine ⟨hs.ended, hs.received, fun op hm hspawns => ?_, fun _ => hw⟩
    rw [setOps_self] at hm
    simp only [stop, List.cons_append, List.nil_append, List.mem_cons, List.not_mem_nil,
      or_false] at hm
    rcases hm with rfl | rfl | rfl | rfl <;> cases hspawns

theorem Ending.next_ui {s s' : State} (hs : s.Ending) (hr : s.Reachable) {env : Env}
    {op : Op} {rest pushed : List Op} (hops : s.ops .ui = op :: rest)
    (h : s.exec .ui env op = some (.next s' pushed)) :
    (s'.setOps .ui (pushed ++ rest)).Ending := by
  obtain ⟨hall, hfinal, hspawned, -⟩ := hops ▸ hr.shape .ui
  cases hop : op.spawns with
  | true =>
    obtain rfl : rest = [] := hfinal (by cases op <;> first | rfl | cases hop)
    rw [List.append_nil]
    cases op <;> simp [Op.spawns] at hop
    · exact hs.spawnSender hops h
    · exact hs.spawnReceiver hr hops h
  | false =>
    rw [List.all_cons, Bool.and_eq_true] at hall
    have hreceives := receives_of_allowed hall.1 (by decide)
    obtain ⟨hw, hsd⟩ := exec_started hop h
    have hother (t : Tid) : s'.ops t = s.ops t := by
      rcases exec_ops h t with he | ⟨rfl, -⟩ | ⟨rfl, -⟩
      · exact he
      · cases hop
      · cases hop
    have hsender : (s'.setOps .ui (pushed ++ rest)).ops .sender = s.ops .sender :=
      (setOps_of_ne _ (by decide) _).trans (hother _)
    have hreceiver : (s'.setOps .ui (pushed ++ rest)).ops .receiver = s.ops .receiver :=
      (setOps_of_ne _ (by decide) _).trans (hother _)
    have hpushed : pushed.all (!·.starts) := by
      cases hstarts : op.starts with
      | false => exact (exec_pushed h).2.2 hstarts
      | true =>
        cases op <;> simp [Op.starts, Op.spawns] at hstarts hop
        cases h
        rfl
    refine ⟨fun hend => ?_, fun hd => ?_, fun op' hm hspawns => ?_, fun hm => ?_⟩
    · rw [hsender] at hend
      rw [hreceiver]
      obtain ⟨hentries, hrecv, hdone⟩ := hs.ended hend
      refine ⟨(exec_queueStep hr hops h).entries_nil hreceives hentries, hrecv, fun hstarted => ?_⟩
      exact exec_recvDone h (hdone (hsd hstarted))
    · rw [hreceiver]
      rcases (exec_flags h).1 with he | rfl
      · exact hs.received (he.symm.trans hd)
      · rw [hr.handles.worker (hs.failed (by simp [hops]))]
        rfl
    · rw [setOps_self] at hm
      rcases List.mem_append.mp hm with hm | hm
      · have hstarts := List.all_eq_true.mp hpushed op' hm
        cases op' <;> simp [Op.spawns, Op.starts] at hspawns hstarts
      · have hnot := List.all_eq_true.mp hspawned op' hm
        rw [hspawns] at hnot
        cases hnot
    · rw [setOps_self] at hm
      rcases List.mem_append.mp hm with hm | hm
      · cases List.all_eq_true.mp hpushed _ hm
      · exact hw (hs.failed (by simp [hops, hm]))

theorem Faultless.ending {s : State} (h : s.Faultless) : s.Ending := by
  refine h.invariant (I := Ending) ?_ ?_
  · exact ⟨fun _ => ⟨rfl, rfl, by simp⟩, by simp, by simp, by simp⟩
  intro s label s' hf hs hstep
  have hr := hf.reachable
  cases hstep with
  | tick elapsed => exact ⟨hs.ended, hs.received, hs.spawning, hs.failed⟩
  | @call call s' hops hbegin =>
    have hui : s'.ops .ui = call.program := by rw [begin_ops hbegin, Function.update_self]
    have hother {t : Tid} (ht : t ≠ .ui) : s'.ops t = s.ops t := by
      rw [begin_ops hbegin, Function.update_of_ne ht]
    rcases begin_eq_some hbegin with ⟨rfl, hactive, rfl⟩ | ⟨hcall, rfl⟩
    · obtain ⟨hw, hsd⟩ := hr.handles.stopped hactive
      have hrecv : (s.startWithIo.setOps .ui [.spawnSender]).ops .receiver = [] :=
        (hother (by decide)).trans (hr.handles.worker hw)
      refine ⟨fun _ => ⟨rfl, ?_, ?_⟩, ?_, ?_, ?_⟩
      · exact hrecv ▸ rfl
      · exact fun h => absurd (hsd.symm.trans h) (by simp)
      · exact fun _ => hrecv ▸ rfl
      · rw [hui]
        simp [UiCall.program, setOps, startWithIo]
      · rw [hui]
        simp [UiCall.program]
    · refine ⟨?_, ?_, ?_, ?_⟩
      · rw [hother (by decide), hother (by decide)]
        exact hs.ended
      · rw [hother (by decide)]
        exact hs.received
      all_goals
        rw [hui]
        cases call
        case startWithIo => exact absurd rfl hcall
        all_goals simp [UiCall.program, stop, apply, Op.spawns]
  | @next t env op rest pushed s₁ hops hexec =>
    cases t with
    | receiver => exact hs.next_receiver hr hops hexec
    | sender => exact hs.next_sender hr hops hexec
    | ui => exact hs.next_ui hr hops hexec

theorem check_closes {s : State} {c : Check} (h : (s.check c).all (!·.aborts)) :
    (s.check c).all (!·.closes) := by
  cases c <;> simp only [check] at h ⊢
  case apply command => simp [Op.closes]
  all_goals repeat' split
  all_goals simp_all [Op.closes, Op.aborts, recordDrop, fail, drainQueue]

theorem exec_closes {s s' : State} {t : Tid} {env : Env} {op : Op} {pushed : List Op}
    (hop : op ≠ .takeActiveWorker) (h : s.exec t env op = some (.next s' pushed))
    (hnone : pushed.all (!·.aborts)) : pushed.all (!·.closes) := by
  cases op
  case takeActiveWorker => exact absurd rfl hop
  case check c =>
    cases h
    exact check_closes hnone
  case ioSend p =>
    simp only [exec, ioSend] at h
    split at h <;> cases h
    · obtain ⟨tallies, ht⟩ := recordBytes_eq_map p.pid p.direction p.chargeLen
      simp [ht, Op.closes]
    · split at hnone <;> simp_all [Op.closes, Op.aborts, recordDrop, fail, drainQueue]
  all_goals
    simp only [exec, dispatch, senderLoop, tryQueue] at h
    repeat' split at h
    all_goals
      cases h <;>
        simp_all [Op.closes, Op.aborts, recordDrop, send, stop, drainQueue, fail]

theorem Faultless.closing {s : State} (h : s.Faultless) : Closing (s.ops .ui) := by
  refine h.invariant (I := fun s => Closing (s.ops .ui)) trivial ?_
  intro s label s' hf hs hstep
  cases hstep with
  | tick elapsed => exact hs
  | @call call s' hops hbegin =>
    rw [begin_ops hbegin, Function.update_self]
    exact .of_all (by cases call <;> rfl)
  | @next t env op rest pushed s₁ hops hexec hnone =>
    by_cases ht : t = .ui
    · subst ht
      rw [setOps_self]
      have hrest := (hops ▸ hs : Closing (op :: rest)).2
      by_cases hop : op = .takeActiveWorker
      · subst hop
        cases hexec
        split
        · exact ⟨fun _ => by simp [discardPending],
            by simpa [discardPending, Op.closes] using hrest⟩
        · exact .of_all (by simpa [discardPending, Op.closes] using hrest)
      · refine .of_all ?_
        rw [List.all_append, exec_closes hop hexec hnone, hrest]
        rfl
    · rw [setOps_of_ne _ (Ne.symm ht), show s₁.ops .ui = s.ops .ui from exec_ui_ops hexec]
      exact hs

/-- Without threads, nothing is queued. -/
theorem Faultless.empty {s : State} (h : s.Faultless) (hsd : s.sender = false) :
    s.queue.heap.entries = [] ∧ s.inFlight = [] ∧ s.queue.packetCount = 0 := by
  have hidle := h.reachable.handles.sender hsd
  have hentries := (h.ending.ended (by rw [hidle]; rfl)).1
  have hfl : s.inFlight = [] := by
    rw [h.inFlight, hidle]
    rfl
  refine ⟨hentries, hfl, ?_⟩
  have hcount := h.reachable.queueOk.consistent.packets
  rw [hfl, h.unfailed.lost, DelayQueue.queued, hentries] at hcount
  exact hcount

theorem exec_shutdownDropped {s : State} {t : Tid} {env : Env} {op : Op} {o : Outcome}
    (h : s.exec t env op = some o) :
    o.state.counters.packetsShutdownDropped = s.counters.packetsShutdownDropped ∨
      op = .tally (.dropReason .shutdown) ∨
      op = .discardPending ∧ o.state.counters.packetsShutdownDropped =
        s.counters.packetsShutdownDropped + s.queue.packetCount := by
  cases op
  case tally tally =>
    cases h
    cases tally with
    | dropReason reason => cases reason <;> simp [Outcome.state, Tally.apply, Counters.add]
    | recordGlobal direction bytes =>
      cases direction <;> exact .inl rfl
    | _ => exact .inl rfl
  case discardPending =>
    cases h
    exact .inr (.inr ⟨rfl, rfl⟩)
  all_goals
    left
    simp only [exec, dispatch, senderLoop, ioSend, tryQueue] at h
    repeat' split at h
    all_goals cases h <;> rfl

theorem Faultless.shutdownDropped {s : State} (h : s.Faultless) :
    s.counters.packetsShutdownDropped = 0 := by
  refine h.invariant (I := fun s => s.counters.packetsShutdownDropped = 0) rfl ?_
  intro s label s' hf hs hstep
  have hr := hf.reachable
  cases hstep with
  | tick elapsed => exact hs
  | call hops hbegin =>
    rcases begin_eq_some hbegin with ⟨-, -, rfl⟩ | ⟨-, rfl⟩
    · rfl
    · exact hs
  | @next t env op rest pushed s₁ hops hexec hnone =>
    have hsound := hf.unfailed.ops t
    rw [hops, List.all_cons, Bool.and_eq_true] at hsound
    rcases exec_shutdownDropped hexec with he | rfl | ⟨rfl, he⟩
    · exact he.trans hs
    · cases hsound.1
    · have hui : t = .ui := by simpa [Op.sound] using hsound.1
      subst hui
      have hjoined := hr.handles.joined .discardPending (by simp [hops])
      rw [(hf.empty hjoined.2).2.2, hs] at he
      exact he

/-- The owner decides on no packet. -/
theorem Reachable.undecided_ui {s : State} (h : s.Reachable) :
    undecided (s.ops .ui) = 0 ∧ unreasoned (s.ops .ui) = 0 := by
  have hall := (h.shape .ui).1
  have hscript := h.script .ui
  generalize s.ops .ui = ops at hall hscript
  induction ops with
  | nil => exact ⟨rfl, rfl⟩
  | cons op rest ih =>
    rw [List.all_cons, Bool.and_eq_true] at hall
    obtain ⟨hu, hn⟩ := ih hall.2 hscript.2
    rw [undecided_cons, unreasoned_cons, hu, hn]
    cases op
    case tally tally => exact absurd rfl hscript.1.2.2
    case check c => cases c <;> simp_all [Op.allowed, Op.undecided, Op.unreasoned, Op.carries]
    all_goals simp_all [Op.allowed, Op.undecided, Op.unreasoned, Op.carries]

/-- Where nothing fails, a stop flushes the queue: once it is draining and was released, all in it
is due; the sender that has left its loop has left no packet and no receiver behind; and when the
driver is closed, each packet counted was handed to `io.send` or dropped for one of four reasons. -/
theorem stop_flushes {s : State} (h : s.Faultless) :
    (s.status.draining → (∀ t, (s.ops t).head? ≠ some .releaseAll) →
      ∀ entry ∈ s.queue.heap.entries, entry.deadline ≤ s.now) ∧
    (s.sender → (s.ops .sender).all (!·.loops) →
      s.status.recvDone ∧ s.queue.heap.entries = []) ∧
    ∀ rest, s.ops .ui = .note .close :: rest →
      s.queue.heap.entries = [] ∧ s.inFlight = [] ∧ s.queue.packetCount = 0 ∧
        s.counters.packetsShutdownDropped = 0 ∧
        s.counters.packetsProcessed = (s.sentOk + s.counters.packetsSendFailed)
          + s.counters.packetsBlocked + s.counters.packetsLossDropped
          + s.counters.packetsRateDropped + s.counters.packetsQueueDropped := by
  have hr := h.reachable
  refine ⟨fun hdrain hreleased => ?_, fun hstarted hend => ?_, fun rest hops => ?_⟩
  · rcases hr.due hdrain with ⟨t, rest, hops⟩ | hdue
    · exact absurd (by rw [hops]; rfl) (hreleased t)
    · exact hdue.entries
  · obtain ⟨hentries, -, hdone⟩ := h.ending.ended hend
    exact ⟨hdone hstarted, hentries⟩
  · have hdiscard : .discardPending ∈ rest := (hops ▸ h.closing).1 rfl
    obtain ⟨hw, hsd⟩ := hr.handles.joined .discardPending (by simp [hops, hdiscard])
    obtain ⟨hentries, hfl, hcount⟩ := h.empty hsd
    have hshutdown := h.shutdownDropped
    refine ⟨hentries, hfl, hcount, hshutdown, ?_⟩
    obtain ⟨hfates, hreasons⟩ := hr.ledger h.unfailed.receiverPanicked
    obtain ⟨hu, hn⟩ := hr.undecided_ui
    simp only [pending, hr.handles.worker hw, hr.handles.sender hsd, hu, hn, undecided_nil,
      unreasoned_nil, settled, unexplained, Counters.dropReasons, hshutdown] at hfates hreasons
    have hpackets : s.queue.usage.packets = 0 := hcount
    omega

/-- A stop while the sender is parked for a delayed packet, up to the close of the driver. -/
def stoppedPacketRun : List Label :=
  let closed : Env := { recv := .error ⟨some 232, []⟩ }
  [.call .startWithIo] ++ List.replicate 2 (.run .ui {}) ++ delayedPacketRun ++ [.call .stop]
    ++ List.replicate 8 (.run .ui {}) ++ List.replicate 7 (.run .receiver closed)
    ++ List.replicate 13 (.run .sender {}) ++ List.replicate 3 (.run .ui {})

set_option maxRecDepth 4000 in
theorem stop_flushes_stoppedPacketRun : ∃ s : State,
    followFaultless {} stoppedPacketRun = some s ∧ s.counters.packetsProcessed = 1 ∧
    s.queue.heap.entries = [] ∧ s.inFlight = [] ∧ s.queue.packetCount = 0 ∧
    s.counters.packetsShutdownDropped = 0 := by
  have hrun : ∃ s, followFaultless {} stoppedPacketRun = some s ∧
      s.counters.packetsProcessed = 1 ∧
      ∃ rest, s.ops .ui = .note .close :: rest := ⟨_, rfl, rfl, _, rfl⟩
  obtain ⟨s, hrun, hcount, rest, hops⟩ := hrun
  have hnew : Faultless {} := Transition.Reachable.of_init rfl
  obtain ⟨hentries, hfl, hpackets, hshutdown, -⟩ :=
    (stop_flushes (hnew.of_follow hrun)).2.2 rest hops
  exact ⟨s, hrun, hcount, hentries, hfl, hpackets, hshutdown⟩

end State

end FlowBrake.Windows
