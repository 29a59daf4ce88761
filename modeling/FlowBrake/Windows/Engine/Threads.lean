import FlowBrake.Lib.Transition
import FlowBrake.Windows.Engine.Step

/-! Steps of the engine, what each thread may do, and how its remaining operations look. -/
namespace FlowBrake.Windows
open FlowBrake.Core Transition

def Outcome.state : Outcome → State
  | .next s _ | .panic s => s

namespace State

/-- The four kinds of steps. -/
inductive Step (s : State) : Label → State → Prop
  | tick (elapsed : ℕ) : Step s (.tick elapsed) { s with now := s.now + elapsed }
  | call {call : UiCall} {s' : State} : s.ops .ui = [] → s.begin call = some s' →
      Step s (.call call) s'
  | next {t : Tid} {env : Env} {op : Op} {rest pushed : List Op} {s' : State} :
      s.ops t = op :: rest → s.exec t env op = some (.next s' pushed) →
      Step s (.run t env) (s'.setOps t (pushed ++ rest))
  | panic {t : Tid} {env : Env} {op : Op} {rest : List Op} {s' : State} :
      s.ops t = op :: rest → s.exec t env op = some (.panic s') →
      Step s (.run t env) (s'.panicked t)

theorem Step.of_step {s s' : State} {label : Label} (h : s.step label = some s') :
    Step s label s' := by
  cases label with
  | tick elapsed =>
    cases h
    exact .tick elapsed
  | call call =>
    simp only [step, Option.ite_none_right_eq_some, List.isEmpty_iff] at h
    exact .call h.1 h.2
  | run t env =>
    simp only [step] at h
    split at h
    · cases h
    · next op rest hops =>
      obtain ⟨outcome, hexec, h⟩ := Option.bind_eq_some_iff.mp h
      cases outcome with
      | next s₁ pushed =>
        cases h
        exact .next hops hexec
      | panic s₁ =>
        cases h
        exact .panic hops hexec

abbrev Runs : State → List Label → State → Prop := Run fun s label s' => s.step label = some s'

theorem Runs.of_follow {s s' : State} {labels : List Label} (h : s.follow labels = some s') :
    Runs s labels s' := by
  induction labels generalizing s with
  | nil =>
    cases h
    exact .nil _
  | cons label labels ih =>
    obtain ⟨s₁, hstep, h⟩ := Option.bind_eq_some_iff.mp h
    exact .cons hstep (ih h)

/-- The states of a new engine's runs. -/
def Reachable : State → Prop :=
  Transition.Reachable (fun s label s' => s.step label = some s') (· = {})

theorem Reachable.new : Reachable {} := Transition.Reachable.of_init rfl

theorem Reachable.of_follow {s : State} {labels : List Label} (h : follow {} labels = some s) :
    s.Reachable :=
  ⟨{}, labels, rfl, Runs.of_follow h⟩

theorem Reachable.next {s s' : State} {label : Label} (h : s.Reachable)
    (hstep : s.step label = some s') : s'.Reachable :=
  Transition.Reachable.next h hstep

/-- An invariant of `Step` that holds of a new engine holds of every reachable state. -/
theorem Reachable.invariant {I : State → Prop} (h0 : I {})
    (hI : ∀ s label s', s.Reachable → I s → s.Step label s' → I s') {s : State}
    (h : s.Reachable) : I s :=
  Transition.Reachable.invariant (fun _ he => he ▸ h0)
    (fun s label s' hr hs hstep => hI s label s' hr hs (.of_step hstep)) h

@[simp] theorem setOps_self (s : State) (t : Tid) (ops : List Op) : (s.setOps t ops).ops t = ops :=
  Function.update_self ..

theorem setOps_of_ne (s : State) {t t' : Tid} (h : t' ≠ t) (ops : List Op) :
    (s.setOps t ops).ops t' = s.ops t' :=
  Function.update_of_ne h ..

@[simp] theorem panicked_self (s : State) (t : Tid) :
    (s.panicked t).ops t = s.unwind t ++ afterPanic t :=
  Function.update_self ..

theorem panicked_of_ne (s : State) {t t' : Tid} (h : t' ≠ t) :
    (s.panicked t).ops t' = s.ops t' :=
  Function.update_of_ne h ..

end State

/-- Which thread may be at an operation. -/
def Op.allowed (t : Tid) : Op → Bool
  | .lockGate | .unlockGate | .lockQueue | .unlockQueue | .tally _ | .note _ | .releaseAll => true
  | .check c => match c with
    | .sendAborted _ | .sendGlobalBlocks _ | .sendProcessBlocks _ => t ≠ .ui
    | .recvError _ | .recvErrorStopping _ | .admitAborted _ | .processDelay _ | .globalDelay _ =>
      t = .receiver
    | .apply _ | .releaseIfRevised _ | .applySync | .stop | .snapshot => t = .ui
  | .ioSend _ => t ≠ .ui
  | .stage _ | .recvInit _ | .recv | .dispatch _ _ => t = .receiver
  | .senderLoop | .finish _ | .park _ | .awaken _ => t = .sender
  | .discardPending => t ≠ .receiver
  | .edit _ | .releaseRevised | .swapStopping | .shutdownRecv | .spawnSender | .spawnReceiver
  | .joinWorker | .joinSender | .takeActiveWorker | .syncSocketBlock | .snapshotBlock _
  | .snapshotPids _ | .snapshotDownload _ | .snapshotUpload _ | .snapshotCounters _ => t = .ui

/-- The packet an operation is about, where its fate is still open. -/
def Op.carries : Op → List Captured
  | .check (.sendAborted p) | .check (.sendGlobalBlocks p) | .check (.sendProcessBlocks p)
  | .ioSend p => [p.toCaptured]
  | .check (.admitAborted a) | .check (.processDelay a) | .check (.globalDelay a)
  | .dispatch a _ => [a.toCaptured]
  | .stage st => [st.captured]
  | _ => []

def carried (ops : List Op) : List Captured := ops.flatMap Op.carries

/-- The popped packets that a thread still has to finish. -/
def finishes (ops : List Op) : List PendingPacket :=
  ops.filterMap fun
    | .finish packet => some packet
    | _ => none

/-- The operations that end a thread's list. -/
def Op.final : Op → Bool
  | .senderLoop | .park _ | .awaken _ | .spawnSender | .spawnReceiver => true
  | _ => false

/-- The operations that may come before work on a packet. -/
def Op.lead : Op → Bool
  | .lockGate | .unlockGate | .lockQueue | .unlockQueue | .tally _ => true
  | _ => false

/-- The operations that start a thread. -/
def Op.spawns : Op → Bool
  | .spawnSender | .spawnReceiver => true
  | _ => false

/-- The shape of what is left of a program: loops and spawns come last, spawns also first, at
most one packet is being worked on, and the queue is discarded only when none is in flight. -/
def Shape : List Op → Prop
  | [] => True
  | op :: rest =>
    (op.final → rest = []) ∧ rest.all (!·.spawns) ∧ (op.lead = false → carried rest = []) ∧
      (op = .discardPending → finishes rest = []) ∧ Shape rest

section Lists
variable (op : Op) (ops ops' : List Op)

@[simp] theorem carried_nil : carried [] = [] := rfl

@[simp] theorem carried_cons : carried (op :: ops) = op.carries ++ carried ops := rfl

@[simp] theorem carried_append : carried (ops ++ ops') = carried ops ++ carried ops' :=
  List.flatMap_append

@[simp] theorem finishes_append : finishes (ops ++ ops') = finishes ops ++ finishes ops' :=
  List.filterMap_append

@[simp] theorem carried_recordDrop (reason : DropReason) : carried (recordDrop reason) = [] := rfl

@[simp] theorem carried_tallies (tallies : List Tally) : carried (tallies.map .tally) = [] := by
  simp [carried, Op.carries]

@[simp] theorem carried_edits (edits : List Edit) : carried (edits.map .edit) = [] := by
  simp [carried, Op.carries]

@[simp] theorem finishes_edits (edits : List Edit) : finishes (edits.map .edit) = [] := by
  simp [finishes]

@[simp] theorem finishes_tallies (tallies : List Tally) :
    finishes (tallies.map .tally) = [] := by
  simp [finishes]

theorem finishes_of_allowed {t : Tid} (ht : t ≠ .sender) {ops : List Op}
    (h : ops.all (Op.allowed t)) : finishes ops = [] := by
  induction ops with
  | nil => rfl
  | cons op ops ih =>
    simp only [List.all_cons, Bool.and_eq_true] at h
    rw [← ih h.2]
    cases op <;> simp_all [finishes, Op.allowed]

end Lists

namespace State

theorem begin_eq_some {s s' : State} {call : UiCall} (h : s.begin call = some s') :
    (call = .startWithIo ∧ s.activeWorker = false ∧ s' = s.startWithIo.setOps .ui call.program) ∨
      (call ≠ .startWithIo ∧ s' = s.setOps .ui call.program) := by
  cases call
  case startWithIo =>
    simp only [begin, Option.ite_none_left_eq_some, Option.some.injEq] at h
    exact .inl ⟨rfl, by simpa using h.1, h.2.symm⟩
  all_goals exact .inr ⟨by simp, (Option.some_injective _ h).symm⟩

theorem begin_ops {s s' : State} {call : UiCall} (h : s.begin call = some s') :
    s'.ops = Function.update s.ops .ui call.program := by
  rcases begin_eq_some h with ⟨-, -, rfl⟩ | ⟨-, rfl⟩ <;> rfl

/-- Only the spawns touch the operations of another thread. -/
theorem exec_ops {s : State} {t : Tid} {env : Env} {op : Op} {o : Outcome}
    (h : s.exec t env op = some o) (t' : Tid) :
    o.state.ops t' = s.ops t' ∨
      (op = .spawnSender ∧ t' = .sender ∧ o.state.ops t' = runWorker false) ∨
      (op = .spawnReceiver ∧ t' = .receiver ∧ o.state.ops t' = runWorker true) := by
  cases op
  case spawnSender =>
    simp only [exec] at h
    split at h <;> cases h
    · cases t' <;> simp [Outcome.state, Function.update]
    · exact .inl rfl
  case spawnReceiver =>
    simp only [exec] at h
    split at h <;> cases h
    · cases t' <;> simp [Outcome.state, Function.update]
    · exact .inl rfl
  all_goals
    left
    simp only [exec, dispatch, senderLoop, ioSend, tryQueue] at h
    repeat' split at h
    all_goals cases h <;> rfl

theorem exec_ui_ops {s : State} {t : Tid} {env : Env} {op : Op} {o : Outcome}
    (h : s.exec t env op = some o) : o.state.ops .ui = s.ops .ui := by
  rcases exec_ops h .ui with he | ⟨-, ht, -⟩ | ⟨-, ht, -⟩
  · exact he
  · cases ht
  · cases ht

/-- What holds of the programs and is kept by every operation holds of all that a thread still
has to do. -/
theorem Reachable.programs {P : Tid → List Op → Prop} (hnil : ∀ t, P t [])
    (hcall : ∀ call : UiCall, P .ui call.program) (hsend : P .sender (runWorker false))
    (hrecv : P .receiver (runWorker true))
    (hnext : ∀ {s s' : State} {t env op rest pushed}, P t (op :: rest) →
      s.exec t env op = some (.next s' pushed) → P t (pushed ++ rest))
    (hpanic : ∀ {s s' : State} {t env op rest}, P t (op :: rest) →
      s.exec t env op = some (.panic s') → P t (s'.unwind t ++ afterPanic t))
    {s : State} (h : s.Reachable) (t : Tid) : P t (s.ops t) := by
  have hother {s : State} {t env op} {o : Outcome} (hs : ∀ t, P t (s.ops t))
      (h : s.exec t env op = some o) (t' : Tid) : P t' (o.state.ops t') := by
    rcases exec_ops h t' with he | ⟨-, rfl, he⟩ | ⟨-, rfl, he⟩ <;> rw [he]
    exacts [hs t', hsend, hrecv]
  refine h.invariant (I := fun s => ∀ t, P t (s.ops t)) hnil ?_ t
  intro s label s' _ hs hstep t'
  cases hstep with
  | tick elapsed => exact hs t'
  | call _ hbegin =>
    rw [begin_ops hbegin]
    by_cases ht : t' = .ui
    · subst ht
      simpa using hcall _
    · simpa [Function.update_of_ne ht] using hs t'
  | @next t env op rest pushed s₁ hops hexec =>
    by_cases ht : t' = t
    · subst ht
      simpa using hnext (hops ▸ hs t') hexec
    · rw [setOps_of_ne _ ht]
      exact hother hs hexec t'
  | @panic t env op rest s₁ hops hexec =>
    by_cases ht : t' = t
    · subst ht
      simpa using hpanic (hops ▸ hs t') hexec
    · exact (panicked_of_ne _ ht).symm ▸ hother hs hexec t'

theorem recordBytes_eq_map (pid : Option UInt32) (direction : Direction) (bytes : ℕ) :
    ∃ tallies : List Tally, recordBytes pid direction bytes = tallies.map .tally := by
  unfold recordBytes
  split
  · exact ⟨[], rfl⟩
  · cases pid with
    | none => exact ⟨[.recordGlobal direction bytes], rfl⟩
    | some pid => exact ⟨[.recordPid pid direction bytes, .recordGlobal direction bytes], rfl⟩

theorem check_allowed {s : State} {t : Tid} {c : Check} (h : (Op.check c).allowed t) :
    (s.check c).all (Op.allowed t) := by
  cases c <;> simp only [Op.allowed, decide_eq_true_eq] at h <;> simp only [check]
  case apply command =>
    subst h
    simp [Op.allowed]
  all_goals repeat' split
  all_goals simp [Op.allowed, recordDrop, fail, drainQueue, h]

theorem exec_allowed {s s' : State} {t : Tid} {env : Env} {op : Op} {pushed : List Op}
    (hop : op.allowed t) (h : s.exec t env op = some (.next s' pushed)) :
    pushed.all (Op.allowed t) := by
  cases op
  case check c =>
    cases h
    exact check_allowed hop
  case ioSend p =>
    simp only [Op.allowed, decide_eq_true_eq] at hop
    simp only [exec, ioSend] at h
    split at h <;> cases h
    · obtain ⟨tallies, ht⟩ := recordBytes_eq_map p.pid p.direction p.chargeLen
      simp [ht, Op.allowed]
    · split <;> simp [recordDrop, fail, drainQueue, Op.allowed]
  all_goals
    simp only [Op.allowed, decide_eq_true_eq] at hop
    simp only [exec, dispatch, senderLoop, tryQueue] at h
    repeat' split at h
    all_goals
      cases h
      try simp [Op.allowed, recordDrop, send, stop, drainQueue, discardPending, fail, hop]

theorem shape_tallies {tallies : List Tally} {rest : List Op} (hn : rest.all (!·.spawns))
    (h : Shape rest) : Shape (tallies.map .tally ++ rest) := by
  induction tallies with
  | nil => exact h
  | cons tally tallies ih =>
    refine ⟨by simp [Op.final], ?_, by simp [Op.lead], by simp, ih⟩
    simpa [Op.spawns] using hn

theorem shape_edits {edits : List Edit} {rest : List Op} (hn : rest.all (!·.spawns))
    (hc : carried rest = []) (h : Shape rest) : Shape (edits.map .edit ++ rest) := by
  induction edits with
  | nil => exact h
  | cons edit edits ih =>
    refine ⟨by simp [Op.final], ?_, by simp [hc], by simp, ih⟩
    simpa [Op.spawns] using hn

theorem check_shape {s : State} {c : Check} {rest : List Op} (hn : rest.all (!·.spawns))
    (hc : carried rest = []) (h : Shape rest) : Shape (s.check c ++ rest) := by
  cases c <;> simp only [check]
  case apply command =>
    rw [List.append_assoc]
    refine shape_edits ?_ ?_ ?_ <;>
      simp_all [Shape, Op.final, Op.lead, Op.spawns, Op.carries]
  all_goals repeat' split
  all_goals
    simp_all [Shape, Op.final, Op.lead, Op.spawns, Op.carries, recordDrop, fail, drainQueue]

theorem exec_shape {s s' : State} {t : Tid} {env : Env} {op : Op} {rest pushed : List Op}
    (hrest : rest.all (Op.allowed t)) (hop : op.allowed t) (hs : Shape (op :: rest))
    (h : s.exec t env op = some (.next s' pushed)) : Shape (pushed ++ rest) := by
  obtain ⟨hfinal, hspawns, hlead, hdiscard, hshape⟩ := hs
  cases op
  case check c =>
    cases h
    exact check_shape hspawns (hlead rfl) hshape
  case ioSend p =>
    have hc := hlead rfl
    simp only [exec, ioSend] at h
    split at h <;> cases h
    · obtain ⟨tallies, ht⟩ := recordBytes_eq_map p.pid p.direction p.chargeLen
      exact ht ▸ shape_tallies hspawns hshape
    · split <;>
        simp_all [Shape, Op.final, Op.lead, Op.spawns, Op.carries, recordDrop, fail, drainQueue]
  case takeActiveWorker =>
    have hc := hlead rfl
    have hf : finishes rest = [] := finishes_of_allowed (t := t) (by simp_all [Op.allowed]) hrest
    cases h
    split <;>
      simp_all [Shape, Op.final, Op.lead, Op.spawns, Op.carries, discardPending, finishes]
  all_goals
    simp only [exec, dispatch, senderLoop, tryQueue] at h
    repeat' split at h
    all_goals
      cases h <;>
        simp_all [Shape, Op.final, Op.lead, Op.spawns, Op.carries, recordDrop, send, stop,
          drainQueue, fail]

theorem mem_unwind {s : State} {t : Tid} {op : Op} (h : op ∈ s.unwind t) :
    op = .unlockQueue ∨ op = .unlockGate := by
  unfold unwind at h
  split at h <;> split at h <;> simp at h <;> tauto

theorem afterPanic_shape (s : State) (t : Tid) :
    (s.unwind t ++ afterPanic t).all (Op.allowed t) ∧ Shape (s.unwind t ++ afterPanic t) := by
  unfold unwind
  split <;> split <;> cases t <;>
    simp [afterPanic, fail, drainQueue, recvDone, discardPending, Shape, Op.allowed, Op.final,
      Op.lead, Op.spawns, Op.carries, finishes]

theorem carried_afterPanic (s : State) (t : Tid) : carried (s.unwind t ++ afterPanic t) = [] := by
  unfold unwind
  split <;> split <;> cases t <;> rfl

/-- Each thread's remaining operations are its own and have the shape of a program. -/
theorem Reachable.shape {s : State} (h : s.Reachable) (t : Tid) :
    (s.ops t).all (Op.allowed t) ∧ Shape (s.ops t) := by
  refine h.programs (P := fun t ops => ops.all (Op.allowed t) ∧ Shape ops) ?_ ?_ ?_ ?_ ?_ ?_ t
  · exact fun _ => ⟨rfl, trivial⟩
  · intro call
    cases call <;>
      simp [UiCall.program, stop, apply, Shape, Op.allowed, Op.final, Op.lead, Op.spawns,
        Op.carries]
  · simp [runWorker, Shape, Op.allowed, Op.final, Op.lead, Op.spawns]
  · simp [runWorker, recvDone, Shape, Op.allowed, Op.final, Op.lead, Op.spawns, Op.carries]
  · intro s s' t env op rest pushed hops hexec
    obtain ⟨hall, hshape⟩ := hops
    simp only [List.all_cons, Bool.and_eq_true] at hall
    refine ⟨?_, exec_shape hall.2 hall.1 hshape hexec⟩
    rw [List.all_append, exec_allowed hall.1 hexec, hall.2]
    rfl
  · exact fun _ _ => afterPanic_shape _ _

/-- The operation that a thread is at is one of its own. -/
theorem Reachable.allowed {s : State} (h : s.Reachable) {t : Tid} {op : Op} {rest : List Op}
    (hops : s.ops t = op :: rest) : op.allowed t := by
  have hall := (h.shape t).1
  rw [hops, List.all_cons, Bool.and_eq_true] at hall
  exact hall.1

/-- What the owner knows of the threads before an operation. -/
def Joined (s : State) : Op → Prop
  | .spawnSender => s.activeWorker ∧ s.worker = false ∧ s.sender = false
  | .spawnReceiver => s.activeWorker ∧ s.worker = false
  | .joinSender => s.worker = false
  | .takeActiveWorker | .discardPending => s.worker = false ∧ s.sender = false
  | _ => True

/-- A thread without a handle has ended; no handle is left when `stop` returns. -/
structure Handles (s : State) : Prop where
  worker : s.worker = false → s.ops .receiver = []
  sender : s.sender = false → s.ops .sender = []
  stopped : s.activeWorker = false → s.worker = false ∧ s.sender = false
  joined : ∀ op ∈ s.ops .ui, s.Joined op

/-- The handles change only at the owner's operations on threads. -/
theorem exec_handles {s : State} {t : Tid} {env : Env} {op : Op} {o : Outcome}
    (h : s.exec t env op = some o) :
    (o.state.worker = s.worker ∧ o.state.sender = s.sender ∧
        o.state.activeWorker = s.activeWorker ∧ o.state.ops = s.ops) ∨
      op = .spawnSender ∨ op = .spawnReceiver ∨ op = .joinWorker ∨ op = .joinSender ∨
        op = .takeActiveWorker := by
  cases op
  case spawnSender | spawnReceiver | joinWorker | joinSender | takeActiveWorker => simp
  all_goals
    left
    simp only [exec, dispatch, senderLoop, ioSend, tryQueue] at h
    repeat' split at h
    all_goals cases h <;> exact ⟨rfl, rfl, rfl, rfl⟩

/-- Only the spawns set a handle. -/
theorem exec_started {s : State} {t : Tid} {env : Env} {op : Op} {o : Outcome}
    (hop : op.spawns = false) (h : s.exec t env op = some o) :
    (s.worker = false → o.state.worker = false) ∧ (o.state.sender → s.sender) := by
  rcases exec_handles h with ⟨hw, hsd, -⟩ | rfl | rfl | rfl | rfl | rfl
  · exact ⟨hw.trans, hsd.symm.trans⟩
  · cases hop
  · cases hop
  all_goals
    simp only [exec] at h
    repeat' split at h
    all_goals cases h <;> simp [Outcome.state]

/-- Only the owner touches the handles and the operations of another thread. -/
theorem exec_handles_of_ne_ui {s : State} (hr : s.Reachable) {t : Tid} {env : Env} {op : Op}
    {rest : List Op} {o : Outcome} (hops : s.ops t = op :: rest) (ht : t ≠ .ui)
    (h : s.exec t env op = some o) :
    o.state.worker = s.worker ∧ o.state.sender = s.sender ∧
      o.state.activeWorker = s.activeWorker ∧ o.state.ops = s.ops := by
  have hall := hr.allowed hops
  refine (exec_handles h).resolve_right fun hop => ht ?_
  rcases hop with rfl | rfl | rfl | rfl | rfl <;> simpa [Op.allowed] using hall

theorem check_joined {s : State} {c : Check} : ∀ op ∈ s.check c, s.Joined op := by
  cases c <;> simp only [check]
  case apply command =>
    intro op hop
    rcases List.mem_append.mp hop with hop | hop
    · obtain ⟨edit, -, rfl⟩ := List.mem_map.mp hop
      trivial
    · simp only [List.mem_cons, List.not_mem_nil, or_false] at hop
      rcases hop with rfl | rfl | rfl <;> trivial
  all_goals repeat' split
  all_goals simp [Joined, recordDrop, fail, drainQueue]

theorem exec_joined {s s' : State} {t : Tid} {env : Env} {op : Op} {pushed : List Op}
    (hop : s.Joined op) (h : s.exec t env op = some (.next s' pushed)) :
    ∀ op ∈ pushed, s'.Joined op := by
  cases op
  case check c =>
    cases h
    exact check_joined
  case ioSend p =>
    simp only [exec, ioSend] at h
    split at h <;> cases h
    · obtain ⟨tallies, ht⟩ := recordBytes_eq_map p.pid p.direction p.chargeLen
      simp [ht, Joined]
    · split <;> simp [Joined, recordDrop, fail, drainQueue]
  all_goals
    simp only [exec, dispatch, senderLoop, tryQueue] at h
    repeat' split at h
    all_goals
      cases h <;>
        simp_all [Joined, recordDrop, send, stop, drainQueue, discardPending, fail]

/-- A thread that has not started or was joined stays at its end. -/
theorem exec_rest_joined {s : State} {t : Tid} {env : Env} {op op' : Op} {o : Outcome}
    (hop : s.Joined op) (hn : op'.spawns = false) (hop' : s.Joined op')
    (hspawn : op.spawns = false) (h : s.exec t env op = some o) : o.state.Joined op' := by
  rcases exec_handles h with ⟨hw, hs, ha, -⟩ | rfl | rfl | rfl | rfl | rfl
  · cases op' <;> simp_all [Joined, Op.spawns]
  · cases hspawn
  · cases hspawn
  all_goals
    simp only [exec] at h
    repeat' split at h
    all_goals cases h <;> cases op' <;> simp_all [Joined, Op.spawns, Outcome.state]

/-- The owner's next operations know what its step made true. -/
theorem next_joined {s s' : State} {env : Env} {op : Op} {rest pushed : List Op}
    (hshape : Shape (op :: rest)) (hs : ∀ op' ∈ op :: rest, s.Joined op')
    (h : s.exec .ui env op = some (.next s' pushed)) : ∀ op' ∈ pushed ++ rest, s'.Joined op' := by
  intro op' hmem
  have hop := hs op List.mem_cons_self
  rcases List.mem_append.mp hmem with hmem | hmem
  · exact exec_joined hop h op' hmem
  · refine exec_rest_joined hop ?_ (hs op' (List.mem_cons_of_mem _ hmem)) ?_ h
    · simpa using List.all_eq_true.mp hshape.2.1 op' hmem
    · cases hsp : op.spawns with
      | false => rfl
      | true =>
        have hnil := hshape.1 (by cases op <;> simp_all [Op.spawns, Op.final])
        simp [hnil] at hmem

/-- With the handles as they were, only the stepping thread's operations change. -/
theorem Handles.of_unchanged {s s' : State} {t : Tid} {op : Op} {rest ops : List Op}
    (hs : s.Handles) (hops : s.ops t = op :: rest) (hw : s'.worker = s.worker)
    (hsd : s'.sender = s.sender) (ha : s'.activeWorker = s.activeWorker)
    (he : s'.ops = Function.update s.ops t ops)
    (hj : t = .ui → ∀ op' ∈ ops, s'.Joined op') : s'.Handles where
  worker h := by
    have hnil := hs.worker (hw ▸ h)
    have ht : Tid.receiver ≠ t := fun ht => by simp [ht, hops] at hnil
    rwa [he, Function.update_of_ne ht]
  sender h := by
    have hnil := hs.sender (hsd ▸ h)
    have ht : Tid.sender ≠ t := fun ht => by simp [ht, hops] at hnil
    rwa [he, Function.update_of_ne ht]
  stopped h := by
    rw [hw, hsd]
    exact hs.stopped (ha ▸ h)
  joined op' hop' := by
    by_cases ht : t = .ui
    · subst ht
      rw [he, Function.update_self] at hop'
      exact hj rfl op' hop'
    · rw [he, Function.update_of_ne (Ne.symm ht)] at hop'
      have := hs.joined op' hop'
      cases op' <;> simp_all [Joined]

theorem Reachable.handles {s : State} (h : s.Reachable) : s.Handles := by
  refine h.invariant (I := Handles) ?_ ?_
  · exact ⟨fun _ => rfl, fun _ => rfl, fun _ => ⟨rfl, rfl⟩, by simp⟩
  intro s label s' hr hs hstep
  cases hstep with
  | tick elapsed => exact ⟨hs.worker, hs.sender, hs.stopped, hs.joined⟩
  | @call call s' hops hbegin =>
    rcases begin_eq_some hbegin with ⟨rfl, hactive, rfl⟩ | ⟨hcall, rfl⟩
    · obtain ⟨hw, hsd⟩ := hs.stopped hactive
      refine ⟨fun _ => hs.worker hw, fun _ => hs.sender hsd, by simp [startWithIo, setOps], ?_⟩
      simp [UiCall.program, Joined, startWithIo, setOps, hw, hsd]
    · refine ⟨hs.worker, hs.sender, hs.stopped, ?_⟩
      cases call
      case startWithIo => exact absurd rfl hcall
      all_goals simp [UiCall.program, Joined, stop, apply]
  | @next t env op rest pushed s₁ hops hexec =>
    obtain ⟨hall, hshape⟩ := hops ▸ hr.shape t
    have hjoined : t = .ui → ∀ op' ∈ pushed ++ rest, s₁.Joined op' := by
      rintro rfl
      exact next_joined hshape (hops ▸ hs.joined) hexec
    rcases exec_handles hexec with ⟨hw, hsd, ha, ho⟩ | hop
    · refine hs.of_unchanged hops hw hsd ha (congrArg (Function.update · t _) ho) fun ht => ?_
      exact hjoined ht
    · have ht : t = .ui := by
        simp only [List.all_cons, Bool.and_eq_true] at hall
        rcases hop with rfl | rfl | rfl | rfl | rfl <;> simpa [Op.allowed] using hall.1
      have hui := hjoined ht
      subst ht
      have hop₀ := hs.joined op (by simp [hops])
      have hrecv : (s₁.setOps .ui (pushed ++ rest)).ops .receiver = s₁.ops .receiver :=
        setOps_of_ne _ (by decide) _
      have hsend : (s₁.setOps .ui (pushed ++ rest)).ops .sender = s₁.ops .sender :=
        setOps_of_ne _ (by decide) _
      have hj : ∀ op' ∈ (s₁.setOps .ui (pushed ++ rest)).ops .ui, s₁.Joined op' := by
        simpa using hui
      rcases hop with rfl | rfl | rfl | rfl | rfl
      · obtain ⟨ha, hw, hsd⟩ := hop₀
        simp only [exec] at hexec
        split at hexec <;> cases hexec
        · exact ⟨fun _ => hrecv.trans (hs.worker hw), nofun,
            fun h => absurd (h.symm.trans ha) nofun, hj⟩
        · exact ⟨fun _ => hrecv.trans (hs.worker hw),
            fun _ => hsend.trans (hs.sender hsd), hs.stopped, hj⟩
      · obtain ⟨ha, hw⟩ := hop₀
        simp only [exec] at hexec
        split at hexec <;> cases hexec
        · exact ⟨nofun, fun h => hsend.trans (hs.sender h),
            fun h => absurd (h.symm.trans ha) nofun, hj⟩
        · exact ⟨fun _ => hrecv.trans (hs.worker hw),
            fun h => hsend.trans (hs.sender h), hs.stopped, hj⟩
      · simp only [exec, Option.ite_none_left_eq_some] at hexec
        obtain ⟨hdone, hexec⟩ := hexec
        cases hexec
        refine ⟨fun _ => hrecv.trans ?_, fun h => hsend.trans (hs.sender h),
          fun h => ⟨rfl, (hs.stopped h).2⟩, hj⟩
        cases hw : s.worker with
        | false => exact hs.worker hw
        | true => simpa [hw] using hdone
      · simp only [exec, Option.ite_none_left_eq_some] at hexec
        obtain ⟨hdone, hexec⟩ := hexec
        cases hexec
        refine ⟨fun h => hrecv.trans (hs.worker h), fun _ => hsend.trans ?_,
          fun h => ⟨(hs.stopped h).1, rfl⟩, hj⟩
        cases hsd : s.sender with
        | false => exact hs.sender hsd
        | true => simpa [hsd] using hdone
      · cases hexec
        exact ⟨fun h => hrecv.trans (hs.worker h),
          fun h => hsend.trans (hs.sender h), fun _ => hop₀, hj⟩
  | @panic t env op rest s₁ hops hexec =>
    rcases exec_handles hexec with ⟨hw, hsd, ha, ho⟩ | rfl | rfl | rfl | rfl | rfl
    · refine hs.of_unchanged hops hw hsd ha (congrArg (Function.update · t _) ho) ?_
      rintro rfl op' hop'
      simp only [afterPanic, List.append_nil] at hop'
      rcases mem_unwind hop' with rfl | rfl <;> trivial
    all_goals
      simp only [exec] at hexec
      repeat' split at hexec
      all_goals cases hexec

end State

end FlowBrake.Windows
