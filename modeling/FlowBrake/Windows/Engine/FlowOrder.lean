import FlowBrake.Lib.KeyedOrder
import FlowBrake.Windows.Engine.Gate

/-! Whichever path its packets take, a flow reaches `io.send` in the order it was received. -/
namespace FlowBrake.Windows
open FlowBrake.Core KeyedOrder

/-- The flow of a packet, unless it is on the loopback interface or of no transport flow. -/
def Captured.flowKey? (c : Captured) : Option FlowKey :=
  if c.isLoopback then none
  else
    match IpPacket.parse c.bytes c.address.isIpv6 with
    | .ok (some packet) => some packet.flowKey
    | _ => none

theorem Captured.flowKey?_of_parse {c : Captured} {packet : IpPacket} (hl : c.isLoopback = false)
    (h : IpPacket.parse c.bytes c.address.isIpv6 = .ok (some packet)) :
    c.flowKey? = some packet.flowKey := by
  simp [flowKey?, hl, h]

theorem Captured.flowKey?_eq_none {c : Captured}
    (h : IpPacket.parse c.bytes c.address.isIpv6 = .ok none) : c.flowKey? = none := by
  simp [flowKey?, h]

/-- The packet that an operation is about to send. -/
def Op.sends : Op → List Captured
  | .check (.sendAborted p) | .check (.sendGlobalBlocks p) | .check (.sendProcessBlocks p)
  | .ioSend p => [p.toCaptured]
  | _ => []

theorem Op.sends_subset (op : Op) : op.sends ⊆ op.carries := by
  cases op
  case check c => cases c <;> simp [sends, carries]
  all_goals simp [sends, carries]

def sending (ops : List Op) : List Captured := ops.flatMap Op.sends

@[simp] theorem sending_nil : sending [] = [] := rfl

@[simp] theorem sending_cons (op : Op) (ops : List Op) :
    sending (op :: ops) = op.sends ++ sending ops := rfl

@[simp] theorem sending_append (ops ops' : List Op) :
    sending (ops ++ ops') = sending ops ++ sending ops' :=
  List.flatMap_append

theorem sending_eq_nil {ops : List Op} (h : carried ops = []) : sending ops = [] := by
  simp only [carried, sending, List.flatMap_eq_nil_iff] at h ⊢
  exact fun op hop => List.subset_nil.mp (h op hop ▸ op.sends_subset)

/-- What thread `t` still has to do after an operation with `rest` behind it. -/
def Outcome.remaining (t : Tid) (rest : List Op) : Outcome → List Op
  | .next _ pushed => pushed ++ rest
  | .panic s => s.unwind t ++ afterPanic t

/-- The operations that the next step of the same thread finds in front. -/
def Outcome.pushed : Outcome → List Op
  | .next _ pushed => pushed
  | .panic _ => []

def Verdict.captured : Verdict → List Captured
  | .continue st => [st.captured]
  | .bypass c => [c]
  | .admitted a => [a.toCaptured]
  | .drop _ | .panic => []

namespace State

theorem runStage_captured (s : State) (env : Env) (st : Stage) :
    (s.runStage env st).1.captured.Sublist [st.captured] := by
  cases st <;> simp only [runStage] <;> repeat' split
  all_goals simp [Verdict.captured, Stage.captured]

/-- Only packets without a flow bypass the checks on processes. -/
theorem runStage_bypass {s : State} {env : Env} {st : Stage} {c : Captured}
    (h : (s.runStage env st).1 = .bypass c) : c.flowKey? = none := by
  cases st <;> simp only [runStage] at h <;> repeat' split at h
  all_goals cases h
  exact Captured.flowKey?_eq_none (by assumption)

theorem check_carried (s : State) (c : Check) :
    (carried (s.check c)).Sublist (Op.check c).carries := by
  cases c <;> simp only [check]
  case apply command => simp [Op.carries]
  all_goals repeat' split
  all_goals simp [Op.carries, recordDrop, fail, drainQueue]

theorem exec_carried {s s' : State} {t : Tid} {env : Env} {op : Op} {pushed : List Op}
    (hloop : op ≠ .senderLoop) (hrecv : op ≠ .recv)
    (h : s.exec t env op = some (.next s' pushed)) : (carried pushed).Sublist op.carries := by
  cases op
  case senderLoop => exact absurd rfl hloop
  case recv => exact absurd rfl hrecv
  case check c =>
    cases h
    exact check_carried s c
  case stage st =>
    have hc := s.runStage_captured env st
    simp only [exec] at h
    split at h
    all_goals
      next hv =>
        rw [hv] at hc
        refine List.Sublist.trans ?_ hc
        cases h <;> simp [Verdict.captured, Op.carries, send, recordDrop]
  case ioSend p =>
    simp only [exec, ioSend] at h
    split at h <;> cases h
    · obtain ⟨tallies, ht⟩ := recordBytes_eq_map p.pid p.direction p.chargeLen
      simp [ht]
    · split <;> simp [Op.carries, recordDrop, fail, drainQueue]
  all_goals
    simp only [exec, dispatch, tryQueue] at h
    repeat' split at h
    all_goals
      cases h
      try simp [Op.carries, recordDrop, send, stop, drainQueue, discardPending, fail,
        Admission.outgoing]

theorem carried_remaining (o : Outcome) (t : Tid) (rest : List Op) :
    (carried (o.remaining t rest)).Sublist (carried o.pushed ++ carried rest) := by
  cases o with
  | next s' pushed => simp [Outcome.remaining, Outcome.pushed]
  | panic s' => exact carried_afterPanic s' t ▸ List.nil_sublist _

/-- A step of thread `t`, seen from its own and the other threads' operations. -/
theorem carried_other {s : State} {t t' : Tid} {env : Env} {op : Op} {o : Outcome}
    (h : s.exec t env op = some o) :
    (carried (o.state.ops t')).Sublist (carried (s.ops t')) := by
  rcases exec_ops h t' with he | ⟨-, -, he⟩ | ⟨-, -, he⟩
  · exact he ▸ .refl _
  · exact he ▸ List.nil_sublist _
  · exact he ▸ List.nil_sublist _

@[simp] theorem pending_toCaptured (a : Admission) : a.pending.toCaptured = a.toCaptured := rfl

/-- The packets that the queue accounts for. -/
def custody (s : State) : List PendingPacket := s.queue.inOrder ++ s.inFlight

/-- What an operation does to the packets in the queue's custody and in the thread's hands. -/
inductive Moves (s : State) (op : Op) (o : Outcome) : Prop
  | keep : o.state.queue.inOrder = s.queue.inOrder → o.state.inFlight ⊆ s.inFlight →
      (op ≠ .recv → (carried o.pushed).Sublist op.carries) → Moves s op o
  | discard : op = .discardPending → o.state.queue.inOrder = [] → o.state.inFlight = [] →
      carried o.pushed = [] → Moves s op o
  | enqueue (a : Admission) (delayMs : UInt32) : op = .dispatch a delayMs → a.isLoopback = false →
      o.state.queue.inOrder = s.queue.inOrder ++ [a.pending] → o.state.inFlight = s.inFlight →
      carried o.pushed = [] → Moves s op o
  | pop (packet : PendingPacket) : op = .senderLoop →
      o.state.inFlight = packet :: s.inFlight →
      (∀ flow, s.queue.waiting flow =
        (packet :: o.state.queue.inOrder).filter (fun packet => packet.flow = flow)) →
      carried o.pushed = [packet.toCaptured] → Moves s op o

theorem exec_moves {s : State} (hq : s.QueueOk) {t : Tid} {env : Env} {op : Op} {rest : List Op}
    {o : Outcome} (hops : s.ops t = op :: rest) (hallowed : op.allowed t)
    (h : s.exec t env op = some o) : Moves s op o := by
  cases hon : op.onQueue with
  | false =>
    obtain ⟨hqueue, hfl, -⟩ := exec_queue hon h
    refine .keep (by rw [hqueue]) (by rw [hfl]; exact List.Subset.refl _) fun hrecv => ?_
    cases o with
    | next s' pushed => exact exec_carried (by rintro rfl; cases hon) hrecv h
    | panic s' => exact List.nil_sublist _
  | true =>
    cases op
    case dispatch a delayMs =>
      cases h
      rcases dispatch_cases hq a delayMs with
        ⟨he, -⟩ | he | ⟨hl, queue, ⟨he, -, -, horder, -⟩ | ⟨he, -, -, horder⟩⟩ <;> rw [he]
      · exact .keep rfl (List.Subset.refl _) fun _ => .refl _
      · exact .keep rfl (List.Subset.refl _) fun _ => List.nil_sublist _
      · exact .enqueue a delayMs rfl hl horder rfl rfl
      · exact .keep horder (List.Subset.refl _) fun _ => List.nil_sublist _
    case senderLoop =>
      cases h
      rcases senderLoop_next hq with ⟨op, he, hop⟩ | ⟨first, queue, he, -, -, -, hwait⟩ <;> rw [he]
      · refine .keep rfl (List.Subset.refl _) fun _ => ?_
        rcases hop with rfl | ⟨deadline, rfl⟩ <;> exact List.nil_sublist _
      · refine .pop first rfl rfl (fun flow => ?_) rfl
        rw [hwait, List.filter_cons]
        split <;> simp_all [DelayQueue.waiting, Outcome.state]
    case finish packet =>
      have ht : t = .sender := by simpa [Op.allowed] using hallowed
      subst ht
      obtain ⟨queue, he, -, -, horder⟩ := finish_next hq (mem_inFlight hq hops) .sender env
      cases he.symm.trans h
      exact .keep horder (fun _ => List.mem_of_mem_erase) fun _ => List.nil_sublist _
    case releaseAll =>
      obtain ⟨queue, he, -, -, horder⟩ := releaseAll_next hq t env
      cases he.symm.trans h
      exact .keep horder (List.Subset.refl _) fun _ => List.nil_sublist _
    case releaseRevised =>
      obtain ⟨queue, he, -, -, horder⟩ := releaseRevised_next hq t env
      cases he.symm.trans h
      exact .keep horder (List.Subset.refl _) fun _ => List.nil_sublist _
    case discardPending =>
      cases h
      exact .discard rfl rfl rfl rfl
    all_goals cases hon

theorem exec_custody {s : State} (hq : s.QueueOk) {t : Tid} {env : Env} {op : Op} {rest : List Op}
    {o : Outcome} (hops : s.ops t = op :: rest) (hallowed : op.allowed t)
    (h : s.exec t env op = some o) {packet : PendingPacket} (hp : packet ∈ o.state.custody) :
    packet ∈ s.custody ∨
      ∃ a delayMs, op = .dispatch a delayMs ∧ a.isLoopback = false ∧ packet = a.pending := by
  simp only [custody, List.mem_append] at hp ⊢
  cases exec_moves hq hops hallowed h with
  | keep horder hfl => exact .inl (hp.imp (horder ▸ ·) (hfl ·))
  | discard _ horder hfl => simp [horder, hfl] at hp
  | enqueue a delayMs hop hl horder hfl =>
    simp only [horder, hfl, List.mem_append, List.mem_singleton] at hp
    rcases hp with (hp | rfl) | hp
    · exact .inl (.inl hp)
    · exact .inr ⟨a, delayMs, hop, hl, rfl⟩
    · exact .inl (.inr hp)
  | pop first hop hfl hwait =>
    have hmem : packet ∈ first :: o.state.queue.inOrder → packet ∈ s.queue.inOrder := fun h => by
      have hw : packet ∈ s.queue.waiting packet.flow := by
        rw [hwait]
        exact List.mem_filter.mpr ⟨h, by simp⟩
      exact (List.mem_filter.mp hw).1
    rw [hfl, List.mem_cons] at hp
    rcases hp with hp | rfl | hp
    · exact .inl (.inl (hmem (List.mem_cons_of_mem _ hp)))
    · exact .inl (.inl (hmem List.mem_cons_self))
    · exact .inl (.inr hp)

theorem check_sends (s : State) (c : Check) : sending (s.check c) ⊆ (Op.check c).sends := by
  cases c <;> simp only [check]
  case apply command => simp [sending, Op.sends]
  all_goals repeat' split
  all_goals simp [Op.sends, recordDrop, fail, drainQueue]

/-- A packet goes on to be sent, bypasses the checks, or is popped or dispatched. -/
theorem exec_sends {s s' : State} {t : Tid} {env : Env} {op : Op} {pushed : List Op}
    (h : s.exec t env op = some (.next s' pushed)) {c : Captured} (hc : c ∈ sending pushed) :
    c ∈ op.sends ∨ c.flowKey? = none ∨ op = .senderLoop ∨
      ∃ a delayMs, op = .dispatch a delayMs := by
  cases op
  case senderLoop | dispatch => simp
  case check check =>
    cases h
    exact .inl (check_sends s check hc)
  case stage st =>
    simp only [exec] at h
    split at h
    all_goals
      next hv =>
        cases h <;> simp [Op.sends, send, recordDrop] at hc
        try exact .inr (.inl (hc ▸ runStage_bypass hv))
  case ioSend p =>
    simp only [exec, ioSend] at h
    split at h <;> cases h
    · obtain ⟨tallies, ht⟩ := recordBytes_eq_map p.pid p.direction p.chargeLen
      simp [ht, sending, Op.sends] at hc
    · split at hc <;> simp [Op.sends, recordDrop, fail, drainQueue] at hc
  all_goals
    simp only [exec, tryQueue] at h
    repeat' split at h
    all_goals
      cases h
      try simp [Op.sends, stop, drainQueue, discardPending, fail] at hc

/-- The queue's packets have the flows they are filed under, among them is what the sender has
in hand, and no flow of theirs has a packet on the direct path. -/
structure Routed (s : State) : Prop where
  tagged : ∀ packet ∈ s.custody, packet.toCaptured.flowKey? = some packet.flow
  inHand : ∀ c ∈ carried (s.ops .sender), ∃ packet ∈ s.inFlight, packet.toCaptured = c
  direct : ∀ c ∈ sending (s.ops .receiver), ∀ packet ∈ s.custody, c.flowKey? ≠ some packet.flow

/-- The receiver sends a packet itself only when the queue knows none of its flow. -/
theorem dispatch_direct {s s' : State} (hq : s.QueueOk) {a : Admission} {delayMs : UInt32}
    {pushed : List Op} (h : s.dispatch a delayMs = .next s' pushed) {c : Captured}
    (hc : c ∈ sending pushed) {packet : PendingPacket} (hp : packet ∈ s'.custody) :
    c.flowKey? ≠ some packet.flow := by
  rcases dispatch_cases hq a delayMs with ⟨he, hflows⟩ | he | ⟨-, _, ⟨he, -⟩ | ⟨he, -⟩⟩ <;>
    cases he.symm.trans h
  · have hc : c = a.toCaptured := by simpa [Op.sends, send, Admission.outgoing] using hc
    subst hc
    intro hkey
    cases hl : a.isLoopback with
    | true => simp [Captured.flowKey?, hl] at hkey
    | false =>
      rw [Captured.flowKey?_of_parse hl a.parsed, Option.some.injEq] at hkey
      obtain ⟨hqueued, hfl⟩ := hq.consistent.not_mem_of_flows_eq_none (hkey ▸ hflows hl)
      rcases List.mem_append.mp hp with hp | hp
      · exact hqueued (s.queue.inOrder_perm.subset hp)
      · exact hfl hp
  · simp [Op.sends, recordDrop] at hc
  · simp [Op.sends] at hc

theorem Routed.direct_receiver {s : State} (hr : s.Reachable) (hs : s.Routed) {env : Env} {op : Op}
    {rest : List Op} {o : Outcome} (hops : s.ops .receiver = op :: rest)
    (h : s.exec .receiver env op = some o) {c : Captured}
    (hc : c ∈ sending (o.remaining .receiver rest)) {packet : PendingPacket}
    (hp : packet ∈ o.state.custody) : c.flowKey? ≠ some packet.flow := by
  obtain ⟨hall, -, -, hlead, -, -⟩ := hops ▸ hr.shape .receiver
  simp only [List.all_cons, Bool.and_eq_true] at hall
  cases o with
  | panic s' =>
    rw [Outcome.remaining, sending_eq_nil (carried_afterPanic s' .receiver)] at hc
    cases hc
  | next s' pushed =>
    rw [Outcome.remaining, sending_append, List.mem_append] at hc
    by_cases hdispatch : ∃ a delayMs, op = .dispatch a delayMs
    · obtain ⟨a, delayMs, rfl⟩ := hdispatch
      rw [sending_eq_nil (hlead rfl)] at hc
      exact dispatch_direct hr.queueOk (Option.some_injective _ h)
        (hc.resolve_right List.not_mem_nil) hp
    · have hp : packet ∈ s.custody := by
        rcases exec_custody hr.queueOk hops hall.1 h hp with hp | ⟨a, delayMs, rfl, -⟩
        · exact hp
        · exact absurd ⟨a, delayMs, rfl⟩ hdispatch
      have hdirect := hs.direct
      rw [hops] at hdirect
      rcases hc with hc | hc
      · rcases exec_sends h hc with hc | hnone | rfl | hd
        · exact hdirect c (List.mem_append_left _ hc) packet hp
        · simp [hnone]
        · simp [Op.allowed] at hall
        · exact absurd hd hdispatch
      · exact hdirect c (List.mem_append_right _ hc) packet hp

theorem Routed.of_run {s s' : State} (hr : s.Reachable) (hs : s.Routed) {t : Tid} {env : Env}
    {op : Op} {rest : List Op} {o : Outcome} (hops : s.ops t = op :: rest)
    (h : s.exec t env op = some o) (hqueue : s'.queue = o.state.queue)
    (hfl : s'.inFlight = o.state.inFlight)
    (ho : s'.ops = Function.update o.state.ops t (o.remaining t rest)) : s'.Routed := by
  have hq := hr.queueOk
  obtain ⟨hall, hfinal, -, hlead, -, -⟩ := hops ▸ hr.shape t
  simp only [List.all_cons, Bool.and_eq_true] at hall
  have hcustody : s'.custody = o.state.custody := by rw [custody, hqueue, hfl]; rfl
  have hself : s'.ops t = o.remaining t rest := by rw [ho, Function.update_self]
  have hother {t' : Tid} (ht : t' ≠ t) : s'.ops t' = o.state.ops t' := by
    rw [ho, Function.update_of_ne ht]
  refine ⟨fun packet hp => ?_, fun c hc => ?_, fun c hc packet hp => ?_⟩
  · rcases exec_custody hq hops hall.1 h (hcustody ▸ hp) with hp | ⟨a, delayMs, -, hl, rfl⟩
    · exact hs.tagged packet hp
    · exact Captured.flowKey?_of_parse hl a.parsed
  · rw [hfl]
    by_cases ht : t = .sender
    · subst ht
      rw [hself] at hc
      have hc := (carried_remaining o .sender rest).subset hc
      have hrecv : op ≠ .recv := by rintro rfl; simp [Op.allowed] at hall
      cases exec_moves hq hops hall.1 h with
      | keep _ _ hcarried =>
        have hc := ((hcarried hrecv).append (.refl (carried rest))).subset hc
        rcases exec_inFlight h with hfl' | rfl | rfl | ⟨packet, rfl⟩
        · exact hfl' ▸ hs.inHand c (hops ▸ hc)
        · simp [Op.carries, hlead rfl] at hc
        · simp [Op.carries, hlead rfl] at hc
        · simp [Op.carries, hlead rfl] at hc
      | discard hop _ _ hcarried =>
        subst hop
        simp [hcarried, hlead rfl] at hc
      | enqueue a delayMs hop =>
        subst hop
        simp [Op.allowed] at hall
      | pop packet hop hfl' _ hcarried =>
        subst hop
        rw [hcarried, hfinal rfl] at hc
        refine ⟨packet, hfl' ▸ List.mem_cons_self, ?_⟩
        simpa [eq_comm] using hc
    · rw [hother (Ne.symm ht)] at hc
      have hc := (carried_other h).subset hc
      rcases exec_inFlight_other hr hops ht h with hfl' | hidle
      · exact hfl' ▸ hs.inHand c hc
      · simp [hidle] at hc
  · rw [hcustody] at hp
    by_cases ht : t = .receiver
    · subst ht
      exact hs.direct_receiver hr hops h (hself ▸ hc) hp
    · rw [hother (Ne.symm ht)] at hc
      refine hs.direct c ?_ packet ((exec_custody hq hops hall.1 h hp).resolve_right ?_)
      · rcases exec_ops h .receiver with he | ⟨-, ht', -⟩ | ⟨-, -, he⟩
        · exact he ▸ hc
        · cases ht'
        · rw [he] at hc
          cases hc
      · rintro ⟨a, delayMs, rfl, -⟩
        simp [Op.allowed, ht] at hall

theorem Reachable.routed {s : State} (h : s.Reachable) : s.Routed := by
  refine h.invariant (I := Routed) ⟨nofun, nofun, nofun⟩ ?_
  intro s label s' hr hs hstep
  cases hstep with
  | tick elapsed => exact ⟨hs.tagged, hs.inHand, hs.direct⟩
  | @call call s' hops hbegin =>
    rcases begin_eq_some hbegin with ⟨-, hactive, rfl⟩ | ⟨-, rfl⟩
    · have hidle := hr.handles.sender (hr.handles.stopped hactive).2
      refine ⟨nofun, fun c hc => ?_, fun _ _ => nofun⟩
      rw [setOps_of_ne _ (by decide)] at hc
      simp [startWithIo, hidle] at hc
    · refine ⟨hs.tagged, fun c hc => hs.inHand c ?_, fun c hc => hs.direct c ?_⟩
      · rwa [setOps_of_ne _ (by decide)] at hc
      · rwa [setOps_of_ne _ (by decide)] at hc
  | next hops hexec => exact hs.of_run hr hops hexec rfl rfl rfl
  | panic hops hexec => exact hs.of_run hr hops hexec rfl rfl rfl

/-- The packets received and not dropped, each flow's in the order they reach `io.send`. -/
def trail (s : State) : List Captured :=
  s.sent.map (·.toCaptured) ++ carried (s.ops .sender) ++ s.queue.inOrder.map (·.toCaptured)
    ++ carried (s.ops .receiver)

theorem exec_nextCapture {s : State} {t : Tid} {env : Env} {op : Op} {o : Outcome}
    (hrecv : op ≠ .recv) (h : s.exec t env op = some o) :
    o.state.nextCapture = s.nextCapture := by
  cases op
  case recv => exact absurd rfl hrecv
  all_goals
    simp only [exec, dispatch, senderLoop, ioSend, tryQueue] at h
    repeat' split at h
    all_goals cases h <;> rfl

theorem ioSend_pushed {s : State} {t : Tid} {env : Env} {p : Outgoing} {o : Outcome}
    (h : s.exec t env (.ioSend p) = some o) : carried o.pushed = [] := by
  simp only [exec, ioSend] at h
  split at h <;> cases h
  · rfl
  · obtain ⟨tallies, ht⟩ := recordBytes_eq_map p.pid p.direction p.chargeLen
    simp [Outcome.pushed, ht]
  · split <;> rfl

/-- Under each flow, the sender's pop takes the first packet of the queue. -/
theorem thins_pop {s : State} (hs : s.Routed) {packet : PendingPacket} {queue : DelayQueue}
    (hwait : ∀ flow, s.queue.waiting flow =
      (packet :: queue.inOrder).filter (fun packet => packet.flow = flow)) :
    Thins Captured.flowKey? (s.queue.inOrder.map (·.toCaptured))
      (packet.toCaptured :: queue.inOrder.map (·.toCaptured)) := by
  have hperm : s.queue.inOrder.Perm (packet :: queue.inOrder) := perm_of_filter_eq hwait
  have hlane (l : List PendingPacket) (hl : l ⊆ s.queue.inOrder) (flow : FlowKey) :
      lane Captured.flowKey? flow (l.map (·.toCaptured)) =
        (l.filter (fun packet => packet.flow = flow)).map (·.toCaptured) := by
    rw [lane, List.filter_map]
    refine congrArg _ (List.filter_congr fun p hp => ?_)
    simp [hs.tagged p (List.mem_append_left _ (hl hp))]
  refine .pull (hperm.map (·.toCaptured)) fun flow => ?_
  calc lane Captured.flowKey? flow (s.queue.inOrder.map (·.toCaptured))
      = (s.queue.waiting flow).map (·.toCaptured) := hlane _ (List.Subset.refl _) flow
    _ = ((packet :: queue.inOrder).filter (fun packet => packet.flow = flow)).map
          (·.toCaptured) := by rw [hwait]
    _ = lane Captured.flowKey? flow ((packet :: queue.inOrder).map (·.toCaptured)) :=
          (hlane _ hperm.symm.subset flow).symm

/-- A packet that the receiver sends itself overtakes none of its flow. -/
theorem lane_direct {s : State} (hs : s.Routed) {p : Outgoing} {rest : List Op}
    (hops : s.ops .receiver = .ioSend p :: rest) {flow : FlowKey}
    (hk : p.toCaptured.flowKey? = some flow) :
    lane Captured.flowKey? flow
      (carried (s.ops .sender) ++ s.queue.inOrder.map (·.toCaptured)) = [] := by
  have hdirect : ∀ packet ∈ s.custody, packet.toCaptured.flowKey? ≠ some flow := by
    intro packet hp hflow
    have hne := hs.direct p.toCaptured (by simp [hops, Op.sends]) packet hp
    rw [hs.tagged packet hp] at hflow
    exact hne (hk.trans hflow.symm)
  refine List.filter_eq_nil_iff.mpr fun c hc => ?_
  rcases List.mem_append.mp hc with hc | hc
  · obtain ⟨packet, hp, rfl⟩ := hs.inHand c hc
    simpa using hdirect packet (List.mem_append_right _ hp)
  · obtain ⟨packet, hp, rfl⟩ := List.mem_map.mp hc
    simpa using hdirect packet (List.mem_append_left _ hp)

theorem trail_run {s s' : State} (hr : s.Reachable) {t : Tid} {env : Env} {op : Op}
    {rest : List Op} {o : Outcome} (hops : s.ops t = op :: rest) (hrecv : op ≠ .recv)
    (h : s.exec t env op = some o) (hqueue : s'.queue = o.state.queue)
    (hsent : s'.sent = o.state.sent)
    (ho : s'.ops = Function.update o.state.ops t (o.remaining t rest)) :
    Thins Captured.flowKey? s.trail s'.trail := by
  have hs := hr.routed
  obtain ⟨hall, hfinal, -, hlead, -, -⟩ := hops ▸ hr.shape t
  simp only [List.all_cons, Bool.and_eq_true] at hall
  have hself : (carried (s'.ops t)).Sublist (carried o.pushed ++ carried rest) := by
    rw [ho, Function.update_self]
    exact carried_remaining o t rest
  have hother (t' : Tid) (ht : t' ≠ t) : (carried (s'.ops t')).Sublist (carried (s.ops t')) := by
    rw [ho, Function.update_of_ne ht]
    exact carried_other h
  have hsub (hc : (carried o.pushed).Sublist op.carries) (t' : Tid) :
      (carried (s'.ops t')).Sublist (carried (s.ops t')) := by
    by_cases ht : t' = t
    · subst ht
      rw [hops]
      exact hself.trans (hc.append (.refl _))
    · exact hother _ ht
  rcases exec_sent h with hsent' | ⟨p, rfl, hsent'⟩
  · have hsent := hsent.trans hsent'
    cases exec_moves hr.queueOk hops hall.1 h with
    | keep horder _ hcarried =>
      refine .of_sublist ?_
      have hsub := hsub (hcarried hrecv)
      rw [trail, trail, hsent, hqueue, horder]
      exact (((List.Sublist.refl _).append (hsub .sender)).append (.refl _)).append (hsub .receiver)
    | discard hop horder _ hcarried =>
      refine .of_sublist ?_
      have hsub := hsub (hcarried ▸ List.nil_sublist _)
      rw [trail, trail, hsent, hqueue, horder]
      exact (((List.Sublist.refl _).append (hsub .sender)).append (List.nil_sublist _)).append
        (hsub .receiver)
    | enqueue a delayMs hop _ horder _ hcarried =>
      subst hop
      have ht : t = .receiver := by simpa [Op.allowed] using hall.1
      subst ht
      rw [hcarried, hlead rfl] at hself
      refine .of_sublist ?_
      rw [trail, trail, hsent, hqueue, horder, List.sublist_nil.mp hself, hops, carried_cons,
        hlead rfl]
      simpa [Op.carries] using hother .sender (by decide)
    | pop packet hop _ hwait hcarried =>
      subst hop
      have ht : t = .sender := by simpa [Op.allowed] using hall.1
      subst ht
      rw [hcarried, hfinal rfl] at hself
      have hthins := (Thins.refl (s.sent.map (·.toCaptured))).append
        ((thins_pop hs hwait).append (.of_sublist (hother .receiver (by decide))))
      have htrail : s.trail = s.sent.map (·.toCaptured) ++
          (s.queue.inOrder.map (·.toCaptured) ++ carried (s.ops .receiver)) := by
        simp [trail, hops, hfinal rfl, Op.carries]
      rw [htrail]
      refine hthins.trans (.of_sublist ?_)
      rw [trail, hsent, hqueue]
      simpa using hself.append (.refl _)
  · have hpushed := ioSend_pushed h
    rw [hpushed, hlead rfl] at hself
    have hnil : carried (s'.ops t) = [] := List.sublist_nil.mp hself
    have hqueue : s'.queue = s.queue := hqueue.trans (exec_queue rfl h).1
    cases t with
    | ui => simp [Op.allowed] at hall
    | sender =>
      refine .of_sublist ?_
      rw [trail, trail, hsent, hsent', hqueue, hnil, hops, carried_cons, hlead rfl]
      simpa [Op.carries] using hother .receiver (by decide)
    | receiver =>
      have hthins := (Thins.refl (s.sent.map (·.toCaptured))).append
        (.move fun flow => lane_direct hs hops)
      have htrail : s.trail = s.sent.map (·.toCaptured) ++
          (carried (s.ops .sender) ++ s.queue.inOrder.map (·.toCaptured) ++ [p.toCaptured]) := by
        simp [trail, hops, hlead rfl, Op.carries]
      rw [htrail]
      refine hthins.trans (.of_sublist ?_)
      rw [trail, hsent, hsent', hqueue, hnil]
      simpa using hother .sender (by decide)

/-- A received packet comes last. -/
theorem trail_recv {s : State} (hr : s.Reachable) {t : Tid} {env : Env} {rest : List Op}
    {s₁ : State} {pushed : List Op} (hops : s.ops t = .recv :: rest)
    (h : s.exec t env .recv = some (.next s₁ pushed)) :
    (s₁.nextCapture = s.nextCapture ∧ (s₁.setOps t (pushed ++ rest)).trail = s.trail) ∨
      ∃ c, c.capture = s.nextCapture ∧ s₁.nextCapture = s.nextCapture + 1 ∧
        (s₁.setOps t (pushed ++ rest)).trail = s.trail ++ [c] := by
  obtain ⟨hall, -, -, hlead, -, -⟩ := hops ▸ hr.shape t
  have ht : t = .receiver := by simp_all [Op.allowed]
  subst ht
  simp only [exec] at h
  split at h
  · next bytes address _ =>
    cases h
    refine .inr ⟨⟨bytes, address, s.nextCapture⟩, rfl, rfl, ?_⟩
    simp [trail, setOps, hops, hlead rfl, Op.carries, Stage.captured, Function.update]
  · cases h
    refine .inl ⟨rfl, ?_⟩
    simp [trail, setOps, hops, hlead rfl, Op.carries, Function.update]

theorem trail_step {s s' : State} {label : Label} (hr : s.Reachable) (hstep : s.Step label s') :
    (s'.nextCapture = s.nextCapture ∧ Thins Captured.flowKey? s.trail s'.trail) ∨
      ∃ c, c.capture = s.nextCapture ∧ s'.nextCapture = s.nextCapture + 1 ∧
        s'.trail = s.trail ++ [c] := by
  cases hstep with
  | tick elapsed => exact .inl ⟨rfl, .refl _⟩
  | call hops hbegin =>
    rcases begin_eq_some hbegin with ⟨-, -, rfl⟩ | ⟨-, rfl⟩
    · refine .inl ⟨rfl, .of_sublist ?_⟩
      exact ((List.Sublist.refl _).append (List.nil_sublist _)).append (.refl _)
    · exact .inl ⟨rfl, .refl _⟩
  | @next t env op rest pushed s₁ hops hexec =>
    by_cases hrecv : op = .recv
    · subst hrecv
      rcases trail_recv hr hops hexec with ⟨hnext, he⟩ | hnew
      · exact .inl ⟨hnext, .of_eq he⟩
      · exact .inr hnew
    · exact .inl ⟨exec_nextCapture hrecv hexec, trail_run hr hops hrecv hexec rfl rfl rfl⟩
  | @panic t env op rest s₁ hops hexec =>
    have hrecv : op ≠ .recv := by
      rintro rfl
      simp only [exec] at hexec
      split at hexec <;> cases hexec
    exact .inl ⟨exec_nextCapture hrecv hexec, trail_run hr hops hrecv hexec rfl rfl rfl⟩

/-- The trail holds no packet twice, and each flow's in the order of their capture. -/
structure InOrder (s : State) : Prop where
  distinct : (s.trail.map (·.capture)).Nodup
  fresh : ∀ c ∈ s.trail, c.capture < s.nextCapture
  ordered : ∀ flow, ((lane Captured.flowKey? flow s.trail).map (·.capture)).Pairwise (· < ·)

theorem Reachable.inOrder {s : State} (h : s.Reachable) : s.InOrder := by
  refine h.invariant (I := InOrder) ⟨.nil, nofun, fun _ => .nil⟩ ?_
  intro s label s' hr hs hstep
  rcases trail_step hr hstep with ⟨hnext, hthins⟩ | ⟨c, hc, hnext, he⟩
  · refine ⟨hthins.nodup hs.distinct, fun c hc => ?_, fun flow => hthins.pairwise (hs.ordered flow)⟩
    exact hnext ▸ hs.fresh c (hthins.subperm.subset hc)
  · have hlast : ∀ b ∈ s.trail, b.capture < c.capture := fun b hb => hc ▸ hs.fresh b hb
    refine ⟨?_, fun b hb => ?_, fun flow => ?_⟩
    · rw [he, List.map_append, List.nodup_append]
      refine ⟨hs.distinct, by simp, fun x hx y hy => ?_⟩
      obtain ⟨b, hb, rfl⟩ := List.mem_map.mp hx
      obtain rfl : y = c.capture := by simpa using hy
      exact (hlast b hb).ne
    · rw [hnext]
      rcases List.mem_append.mp (he ▸ hb) with hb | hb
      · exact (hs.fresh b hb).trans (Nat.lt_succ_self _)
      · rw [List.mem_singleton.mp hb, hc]
        exact Nat.lt_succ_self _
    · rw [he, lane_append, List.map_append, List.pairwise_append]
      refine ⟨hs.ordered flow, ?_, fun x hx y hy => ?_⟩
      · exact (List.pairwise_singleton (· < ·) c.capture).sublist (List.filter_sublist.map _)
      · obtain ⟨b, hb, rfl⟩ := List.mem_map.mp hx
        obtain ⟨d, hd, rfl⟩ := List.mem_map.mp hy
        obtain rfl : d = c := List.mem_singleton.mp (List.mem_filter.mp hd).1
        exact hlast b (List.mem_filter.mp hb).1

/-- No packet is handed to `io.send` twice, and those of one flow that are not of the loopback
interface are handed over in the order they were received. -/
theorem per_flow_order {s : State} (hr : s.Reachable) :
    (s.sent.map (·.capture)).Nodup ∧
      ∀ flow, ((s.sent.filter fun p => p.toCaptured.flowKey? = some flow).map
        (·.capture)).Pairwise (· < ·) := by
  have htrail : (s.sent.map (·.toCaptured)).Sublist s.trail := by
    rw [trail, List.append_assoc, List.append_assoc]
    exact List.sublist_append_left _ _
  refine ⟨?_, fun flow => ?_⟩
  · have hsub := hr.inOrder.distinct.sublist (htrail.map (·.capture))
    rwa [List.map_map] at hsub
  · have hsub := (hr.inOrder.ordered flow).sublist ((htrail.filter _).map (·.capture))
    rwa [List.filter_map, List.map_map] at hsub

/-- Two packets of a flow that go through the queue, the second after their delay was lifted,
and a third one on the direct path. -/
def bothPathsRun : List Label :=
  let packet : List UInt8 := [0x45, 0, 0, 28, 0, 0, 0, 0, 64, 17, 0, 0, 127, 0, 0, 1,
    192, 0, 2, 1, 0x12, 0x34, 0, 53, 0, 8, 0, 0]
  let arrives : Env := { recv := .ok (packet, ⟨0x00020000⟩) }
  [.call (.apply (.setGlobalRule { uploadDelayMs := some 1 }))] ++ List.replicate 11 (.run .ui {})
    ++ [.call .startWithIo] ++ List.replicate 2 (.run .ui {})
    ++ List.replicate 27 (.run .receiver arrives) ++ [.call (.apply (.setGlobalRule {}))]
    ++ List.replicate 11 (.run .ui {}) ++ List.replicate 26 (.run .receiver arrives)
    ++ List.replicate 23 (.run .sender {}) ++ List.replicate 27 (.run .receiver arrives)

set_option maxRecDepth 4000 in
theorem per_flow_order_bothPathsRun : ∃ s : State, follow {} bothPathsRun = some s ∧
    s.sent.length = 3 ∧ (s.sent.map (·.capture)).Nodup := by
  have hrun : ∃ s, follow {} bothPathsRun = some s ∧ s.sent.length = 3 := ⟨_, rfl, rfl⟩
  obtain ⟨s, hrun, hsent⟩ := hrun
  exact ⟨s, hrun, hsent, (per_flow_order (.of_follow hrun)).1⟩

end State

end FlowBrake.Windows
