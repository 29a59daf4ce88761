import FlowBrake.Windows.Engine.Locks
import FlowBrake.Windows.Engine.Pipeline

/-! The receiver's turns at a packet: which of them decide on it, and what the pipeline still has to
do at each point of its program. -/
namespace FlowBrake.Windows
open FlowBrake.Core Transition

/-- The moment of an operation at which the receiver looks. -/
def Op.moment : Op → Option Moment
  | .stage (.aborted _) => some .aborted
  | .stage (.elapsed _ _) => some .elapsed
  | .stage (.readPorts _ _) => some .readPorts
  | .stage (.refreshed _ _) => some .refreshed
  | .stage (.resolve _) => some .resolve
  | .stage (.chargeLen _ _) => some .chargeLen
  | .stage (.limitGlobal _) => some .limitGlobal
  | .stage (.limitProcess _) => some .limitProcess
  | .check (.admitAborted _) => some .gate
  | .dispatch _ _ => some .queue
  | _ => none

/-- The moments that are not yet past at a stage. -/
def Stage.ahead : Stage → List Moment
  | .aborted _ => [.aborted, .elapsed, .readPorts, .refreshed, .resolve, .chargeLen, .limitGlobal,
      .limitProcess, .gate, .queue]
  | .refresh _ | .elapsed _ _ => [.elapsed, .readPorts, .refreshed, .resolve, .chargeLen,
      .limitGlobal, .limitProcess, .gate, .queue]
  | .readPorts _ _ =>
    [.readPorts, .refreshed, .resolve, .chargeLen, .limitGlobal, .limitProcess, .gate, .queue]
  | .refreshed _ _ =>
    [.refreshed, .resolve, .chargeLen, .limitGlobal, .limitProcess, .gate, .queue]
  | .globalBlocks _ | .attribute _ | .resolve _ =>
    [.resolve, .chargeLen, .limitGlobal, .limitProcess, .gate, .queue]
  | .processBlocks _ _ | .processLoss _ _ | .globalLoss _ _ | .sampleLoss _ _ _ | .chargeLen _ _ =>
    [.chargeLen, .limitGlobal, .limitProcess, .gate, .queue]
  | .limitGlobal _ => [.limitGlobal, .limitProcess, .gate, .queue]
  | .limitProcess _ => [.limitProcess, .gate, .queue]

def Verdict.ahead : Verdict → List Moment
  | .continue stage => stage.ahead
  | .admitted _ => [.gate, .queue]
  | _ => []

/-- The moments that are not yet past at a point of the receiver's program. -/
def ahead : List Op → List Moment
  | .stage stage :: _ => stage.ahead
  | .lockGate :: _ | .check (.admitAborted _) :: _ => [.gate, .queue]
  | _ => [.queue]

theorem mem_ahead_of_moment {op : Op} {m : Moment} (h : op.moment = some m) (rest : List Op) :
    m ∈ ahead (op :: rest) := by
  cases op
  case stage stage => cases stage <;> simp_all [Op.moment, ahead, Stage.ahead]
  case check c => cases c <;> simp_all [Op.moment, ahead]
  all_goals simp_all [Op.moment, ahead]

/-- What becomes of a packet by a turn that decides on it. -/
def Decision.Taken (s : State) (o : Outcome) : Decision → Prop
  | .drop reason => ∃ s' ops, o = .next s' (recordDrop reason ++ ops)
  | .send p => ∃ s' ops, o = .next s' (ops ++ Windows.send p)
  | .delay packet deadline =>
    match s.queue.enqueue packet deadline with
    | .ok (true, queue) =>
      o = .next { s with queue } [.tally .delayed, .note .notify, .unlockQueue, .unlockGate]
    | .ok (false, queue) =>
      o = .next { s with queue } (recordDrop .queue ++ [.unlockQueue, .unlockGate])
    | .error _ => ∃ s', o = .panic s'
  | .panic => ∃ s', o = .panic s'

namespace State

def view (s : State) (env : Env) : View where
  now := s.now
  aborted := s.status.aborted
  ipv6Enabled := s.status.ipv6Enabled
  draining := s.status.draining
  hasFlow := s.queue.hasFlow
  ports := env.ports

/-- The decision that the receiver takes by its turn at an operation, if it takes one. -/
def decision (s : State) (env : Env) : Op → Option Decision
  | .stage stage =>
    match (s.runStage env stage).1 with
    | .continue _ | .admitted _ => none
    | .drop reason => some (.drop reason)
    | .bypass c => some (.send c.unattributed)
    | .panic => some .panic
  | .check (.admitAborted _) => if s.status.aborted then some (.drop .shutdown) else none
  | .dispatch a delayMs =>
    if !a.isLoopback && (delayMs > 0 || s.queue.hasFlow a.packet.flowKey) then
      some (.delay a.pending (if s.status.draining then a.receivedAt
        else a.receivedAt + delayMs.toNat * 1000000))
    else some (.send a.outgoing)
  | _ => none

end State

/-- What the receiver sees at an operation. -/
def Readings.Agrees (r : Readings) (s : State) (env : Env) (op : Op) : Prop :=
  ∀ moment, op.moment = some moment → r moment = s.view env

/-- The same with `n` more packets counted as eligible. -/
def Handling.counted (h : Handling) (n : ℕ) : Handling := { h with eligible := h.eligible + n }

/-- The packet is blocked by no rule. -/
def Policy.Clears (policy : Policy) (isLoopback : Bool) (pid : Option UInt32) : Prop :=
  policy.globalBlocksPacket isLoopback = false ∧ policy.processBlocksPacket pid isLoopback = false

/-- What the pipeline still has to do at each point of the receiver's program. -/
inductive Point (r : Readings) (policy : Policy) : List Op → RecvLocals → Handling → Prop
  | aborted (c : Received) (rest : List Op) (locals : RecvLocals) :
      Point r policy (.stage (.aborted c) :: rest) locals (r.pipeline policy c locals)
  | refresh (c : Received) (rest : List Op) (locals : RecvLocals) :
      Point r policy (.stage (.refresh c) :: rest) locals
        (r.blockGlobal policy c (r.refreshed policy locals))
  | elapsed (c : Received) (rest : List Op) (locals : RecvLocals) :
      Point r policy (.stage (.elapsed c policy.ruleRevision) :: rest) locals
        (r.blockGlobal policy c (r.refreshed policy locals))
  | readPorts (c : Received) (rest : List Op) (locals : RecvLocals) :
      Point r policy (.stage (.readPorts c policy.ruleRevision) :: rest) locals
        (r.blockGlobal policy c { locals with
          portPid := (r .readPorts).ports
          lastMapRefresh := (r .refreshed).now
          ruleRevision := policy.ruleRevision
          unresolvedPorts := [] })
  | refreshed (c : Received) (rest : List Op) (locals : RecvLocals) :
      Point r policy (.stage (.refreshed c policy.ruleRevision) :: rest) locals
        (r.blockGlobal policy c { locals with
          lastMapRefresh := (r .refreshed).now
          ruleRevision := policy.ruleRevision
          unresolvedPorts := [] })
  | globalBlocks (c : Received) (rest : List Op) (locals : RecvLocals) :
      Point r policy (.stage (.globalBlocks c) :: rest) locals (r.blockGlobal policy c locals)
  | «attribute» {p : Parsed} (rest : List Op) (locals : RecvLocals) :
      policy.globalBlocksPacket p.isLoopback = false →
      Point r policy (.stage (.attribute p) :: rest) locals (r.resolve policy p locals)
  | resolve {p : Parsed} (rest : List Op) (locals : RecvLocals) :
      policy.globalBlocksPacket p.isLoopback = false →
      Point r policy (.stage (.resolve p) :: rest) locals
        (r.blockProcess policy p
          ((r .resolve).ports p.packet.protocol (p.packet.localPort p.direction) p.address.isIpv6)
          { locals with portPid := (r .resolve).ports })
  | processBlocks {p : Parsed} (pid : Option UInt32) (rest : List Op) (locals : RecvLocals) :
      policy.globalBlocksPacket p.isLoopback = false →
      Point r policy (.stage (.processBlocks p pid) :: rest) locals
        (r.blockProcess policy p pid locals)
  | processLoss {p : Parsed} {pid : Option UInt32} (rest : List Op) (locals : RecvLocals) :
      policy.Clears p.isLoopback pid →
      Point r policy (.stage (.processLoss p pid) :: rest) locals
        (r.sample policy p pid (policy.effectiveLoss pid p.direction) locals)
  | globalLoss {p : Parsed} {pid : Option UInt32} (rest : List Op) (locals : RecvLocals) :
      policy.Clears p.isLoopback pid →
      Point r policy (.stage (.globalLoss p pid) :: rest) locals
        (r.sample policy p pid (policy.globalLoss p.direction) locals)
  | sampleLoss {p : Parsed} {pid : Option UInt32} (loss : UInt16) (rest : List Op)
      (locals : RecvLocals) : policy.Clears p.isLoopback pid →
      Point r policy (.stage (.sampleLoss p pid loss) :: rest) locals
        (r.sample policy p pid loss locals)
  | chargeLen {p : Parsed} {pid : Option UInt32} (rest : List Op) (locals : RecvLocals) :
      policy.Clears p.isLoopback pid →
      Point r policy (.stage (.chargeLen p pid) :: rest) locals (r.limit policy p pid locals)
  | limitGlobal {a : Admission} (rest : List Op) (locals : RecvLocals) :
      policy.Clears a.isLoopback a.pid →
      Point r policy (.stage (.limitGlobal a) :: rest) locals (r.limitGlobal policy a locals)
  | limitProcess {a : Admission} (rest : List Op) (locals : RecvLocals) :
      policy.Clears a.isLoopback a.pid →
      Point r policy (.stage (.limitProcess a) :: rest) locals (r.limitProcess policy a locals)
  | lockGate (a : Admission) (rest : List Op) (locals : RecvLocals) :
      Point r policy (.lockGate :: .check (.admitAborted a) :: rest) locals
        (r.delay policy a locals)
  | admitAborted (a : Admission) (rest : List Op) (locals : RecvLocals) :
      Point r policy (.check (.admitAborted a) :: rest) locals (r.delay policy a locals)
  | processDelay (a : Admission) (rest : List Op) (locals : RecvLocals) :
      (r .gate).aborted = false →
      Point r policy (.check (.processDelay a) :: rest) locals (r.delay policy a locals)
  | globalDelay {a : Admission} (rest : List Op) (locals : RecvLocals) :
      (r .gate).aborted = false → a.isLoopback = false →
      policy.processDelayMs a.pid a.direction = none →
      Point r policy (.check (.globalDelay a) :: rest) locals (r.delay policy a locals)
  | lockQueue (a : Admission) (rest : List Op) (locals : RecvLocals) :
      (r .gate).aborted = false →
      Point r policy (.lockQueue ::
        .dispatch a (policy.effectiveDelayMs a.pid a.direction a.isLoopback) :: rest) locals
        (r.delay policy a locals)
  | dispatch (a : Admission) (rest : List Op) (locals : RecvLocals) :
      (r .gate).aborted = false →
      Point r policy (.dispatch a (policy.effectiveDelayMs a.pid a.direction a.isLoopback) :: rest)
        locals (r.delay policy a locals)

namespace State
variable {s : State} {t : Tid} {env : Env} {op : Op} {o : Outcome}

/-- A stage does not lead back to a moment that is past. -/
theorem runStage_ahead (stage : Stage) {m : Moment} (hm : m ∈ (s.runStage env stage).1.ahead) :
    m ∈ stage.ahead ∧ (Op.stage stage).moment ≠ some m := by
  cases stage <;> simp only [runStage] at hm
  all_goals repeat' split at hm
  all_goals cases m <;> simp_all [Verdict.ahead, Stage.ahead, Op.moment]

/-- A stage leaves its verdict to the next operations and its variables in the state. -/
theorem exec_stage {stage : Stage} (h : s.exec t env (.stage stage) = some o) :
    o.state.policy = s.policy ∧ o.state.locals = (s.runStage env stage).2.1 ∧
      o.state.counters.packetsLossEligible = s.counters.packetsLossEligible +
        (if (s.runStage env stage).2.2 then 1 else 0) ∧
      o = match (s.runStage env stage).1 with
        | .continue stage => .next o.state [.stage stage]
        | .drop reason => .next o.state (recordDrop reason)
        | .bypass c => .next o.state (send c.unattributed)
        | .admitted a => .next o.state [.lockGate, .check (.admitAborted a)]
        | .panic => .panic o.state := by
  cases hverdict : (s.runStage env stage).1
  all_goals
    simp only [exec, hverdict, Option.some.injEq] at h
    subst h
    refine ⟨rfl, rfl, ?_, rfl⟩
    simp only [Outcome.state]
    split <;> rfl

theorem dispatch_state (s : State) (a : Admission) (delayMs : UInt32) :
    (s.dispatch a delayMs).state.policy = s.policy ∧
      (s.dispatch a delayMs).state.locals = s.locals ∧
      (s.dispatch a delayMs).state.counters.packetsLossEligible =
        s.counters.packetsLossEligible := by
  simp only [dispatch]
  split
  · split <;> exact ⟨rfl, rfl, rfl⟩
  · exact ⟨rfl, rfl, rfl⟩

/-- What a decision says is what the receiver does. -/
theorem exec_of_decision {d : Decision} (hd : s.decision env op = some d)
    (h : s.exec .receiver env op = some o) : d.Taken s o := by
  cases op
  case stage stage =>
    obtain ⟨-, -, -, ho⟩ := exec_stage h
    simp only [decision] at hd
    cases hverdict : (s.runStage env stage).1 with
    | «continue» _ | admitted _ => simp [hverdict] at hd
    | drop reason =>
      simp only [hverdict, Option.some.injEq] at hd ho
      exact hd ▸ ⟨_, [], by rw [List.append_nil]; exact ho⟩
    | bypass c =>
      simp only [hverdict, Option.some.injEq] at hd ho
      exact hd ▸ ⟨_, [], ho⟩
    | panic =>
      simp only [hverdict, Option.some.injEq] at hd ho
      exact hd ▸ ⟨_, ho⟩
  case check c =>
    cases c
    case admitAborted a =>
      cases h
      simp only [decision, Option.ite_none_right_eq_some, Option.some.injEq] at hd
      obtain ⟨haborted, rfl⟩ := hd
      exact ⟨s, [.unlockGate], by simp only [check, haborted, if_true]⟩
    all_goals cases hd
  case dispatch a delayMs =>
    simp only [exec, dispatch, Option.some.injEq] at h
    subst h
    simp only [decision] at hd
    split at hd
    next hwait =>
      cases hd
      simp only [Decision.Taken, hwait, if_true]
      cases s.queue.enqueue a.pending (if s.status.draining then a.receivedAt
        else a.receivedAt + delayMs.toNat * 1000000) with
      | ok result =>
        obtain ⟨accepted, queue⟩ := result
        cases accepted <;> rfl
      | error e => cases e <;> exact ⟨_, rfl⟩
    next hpass =>
      cases hd
      simp only [hpass, Bool.false_eq_true, if_false]
      exact ⟨_, [.unlockQueue, .unlockGate], rfl⟩
  all_goals cases hd

end State

namespace Point
variable {r : Readings} {s : State} {env : Env} {rest : List Op} {h : Handling}

/-- The headers are read once for all: they are at fault, not supported, or the packet's. -/
theorem globalBlocks_cases (c : Received)
    (hpass : s.policy.globalBlocksPacket c.isLoopback = false) :
    (s.runStage env (.globalBlocks c) = (.panic, s.locals, false) ∧
        r.blockGlobal s.policy c s.locals = { decision := .panic, locals := s.locals }) ∨
      (s.runStage env (.globalBlocks c) = (.bypass c.toCaptured, s.locals, false) ∧
        r.blockGlobal s.policy c s.locals =
          { decision := .send c.unattributed, locals := s.locals }) ∨
      ∃ p : Parsed, p.toReceived = c ∧
        s.runStage env (.globalBlocks c) = (.continue (.attribute p), s.locals, false) ∧
        r.blockGlobal s.policy c s.locals = r.resolve s.policy p s.locals := by
  cases hparse : IpPacket.parse c.bytes c.address.isIpv6 with
  | error e =>
    left
    simp only [State.runStage, Readings.blockGlobal, hpass, Bool.false_eq_true, if_false]
    constructor
    all_goals
      split
      · rfl
      next h => cases hparse.symm.trans h
      next h => cases hparse.symm.trans h
  | ok result =>
    right
    cases result with
    | none =>
      left
      simp only [State.runStage, Readings.blockGlobal, hpass, Bool.false_eq_true, if_false]
      constructor
      all_goals
        split
        next h => cases hparse.symm.trans h
        · rfl
        next h => cases hparse.symm.trans h
    | some packet =>
      right
      refine ⟨{ toReceived := c, packet, parsed := hparse }, rfl, ?_⟩
      simp only [State.runStage, Readings.blockGlobal, hpass, Bool.false_eq_true, if_false]
      constructor
      all_goals
        split
        next h => cases hparse.symm.trans h
        next h => cases hparse.symm.trans h
        next h =>
          cases hparse.symm.trans h
          rfl

/-- The global limit is the limiter's, once the packet is known not to be blocked. -/
theorem limitGlobal_eq {a : Admission} (hview : r .limitGlobal = s.view env)
    (hclear : s.policy.Clears a.isLoopback a.pid) :
    r.limitGlobal s.policy a s.locals = match (s.offer a).shouldDropGlobal s.locals with
      | (some reason, locals) => { decision := .drop reason, locals }
      | (none, locals) => r.limitProcess s.policy a locals := by
  have hblock : (s.policy.globalRule.blockAll && !a.isLoopback) = false := by
    rw [Bool.and_comm]
    exact hclear.1
  simp only [Readings.limitGlobal, Offer.shouldDropGlobal, State.offer, Admission.heldTo, hblock,
    Bool.false_eq_true, if_false, Option.bind_some]
  by_cases hempty : a.chargeLen = 0
  · simp only [hempty, if_true]
  simp only [hempty, if_false]
  cases s.policy.globalRule.effectiveBps a.direction with
  | none => rfl
  | some rate =>
    simp only [hview, State.view]
    by_cases hover :
        (consumeBucket s.now (s.locals.globalBucket a.direction) rate a.chargeLen).1 = true
    · simp only [hover, if_true]
    · simp only [hover, Bool.false_eq_true, if_false]

/-- So is the limit of the process. -/
theorem limitProcess_eq {a : Admission} (hview : r .limitProcess = s.view env)
    (hclear : s.policy.Clears a.isLoopback a.pid) :
    r.limitProcess s.policy a s.locals = match (s.offer a).shouldDropProcess s.locals with
      | (some reason, locals) => { decision := .drop reason, locals }
      | (none, locals) => r.delay s.policy a locals := by
  simp only [Readings.limitProcess, Offer.shouldDropProcess, State.offer, Admission.heldTo]
  cases hpid : a.pid with
  | none => rfl
  | some pid =>
    dsimp only
    cases hrule : s.policy.rules[pid]? with
    | none => simp only [Option.bind_none, ite_self]
    | some rule =>
      have hblock : (rule.blockAll && !a.isLoopback) = false := by
        have hnot := hclear.2
        simp only [Policy.processBlocksPacket, hpid, Option.any_some, hrule] at hnot
        rw [Bool.and_comm]
        exact hnot
      simp only [hblock, Bool.false_eq_true, if_false, Option.bind_some]
      by_cases hempty : a.chargeLen = 0
      · simp only [hempty, if_true]
      simp only [hempty, if_false]
      cases rule.effectiveBps a.direction with
      | none => rfl
      | some rate =>
        simp only [hview, State.view]
        by_cases hover :
            (consumeBucket s.now (s.locals.buckets (pid, a.direction)) rate a.chargeLen).1 = true
        · simp only [hover, if_true]
        · simp only [hover, Bool.false_eq_true, if_false]

/-- A stage of the receiver does its part of the pipeline and leaves the rest to the next one. -/
theorem runStage {stage : Stage} (hp : Point r s.policy (.stage stage :: rest) s.locals h)
    (hr : r.Agrees s env (.stage stage)) :
    ∃ h', h = h'.counted (if (s.runStage env stage).2.2 then 1 else 0) ∧
      match (s.runStage env stage).1 with
      | .continue next =>
        Point r s.policy (.stage next :: rest) (s.runStage env stage).2.1 h'
      | .admitted a =>
        Point r s.policy (.lockGate :: .check (.admitAborted a) :: rest)
          (s.runStage env stage).2.1 h'
      | .drop reason => h' = { decision := .drop reason, locals := (s.runStage env stage).2.1 }
      | .bypass c =>
        h' = { decision := .send c.unattributed, locals := (s.runStage env stage).2.1 }
      | .panic => h' = { decision := .panic, locals := (s.runStage env stage).2.1 } := by
  cases hp with
  | aborted c =>
    have hview := hr _ rfl
    by_cases haborted : s.status.aborted = true
    · simp only [State.runStage, Readings.pipeline, hview, State.view, haborted, if_true]
      exact ⟨_, rfl, rfl⟩
    · simp only [State.runStage, Readings.pipeline, hview, State.view, haborted,
        Bool.false_eq_true, if_false]
      exact ⟨_, rfl, .refresh c rest s.locals⟩
  | refresh c => exact ⟨_, rfl, .elapsed c rest _⟩
  | elapsed c =>
    have hview := hr _ rfl
    simp only [State.runStage, Readings.refreshed, hview, State.view]
    split
    · exact ⟨_, rfl, .readPorts c rest _⟩
    · exact ⟨_, rfl, .globalBlocks c rest _⟩
  | readPorts c =>
    have hview := hr _ rfl
    simp only [State.runStage, hview, State.view]
    exact ⟨_, rfl, .refreshed c rest _⟩
  | refreshed c =>
    have hview := hr _ rfl
    simp only [State.runStage, hview, State.view]
    exact ⟨_, rfl, .globalBlocks c rest _⟩
  | globalBlocks c =>
    cases hblock : s.policy.globalBlocksPacket c.isLoopback with
    | true =>
      simp only [State.runStage, Readings.blockGlobal, hblock, if_true]
      exact ⟨_, rfl, rfl⟩
    | false =>
      rcases globalBlocks_cases c hblock with ⟨hrun, hh⟩ | ⟨hrun, hh⟩ | ⟨p, rfl, hrun, hh⟩
      · rw [hrun, hh]
        exact ⟨_, rfl, rfl⟩
      · rw [hrun, hh]
        exact ⟨_, rfl, rfl⟩
      · rw [hrun, hh]
        exact ⟨_, rfl, .attribute rest s.locals hblock⟩
  | @«attribute» p _ _ hclear =>
    simp only [State.runStage, Readings.resolve, Readings.attribution]
    cases s.locals.portPid p.packet.protocol (p.packet.localPort p.direction) p.address.isIpv6 with
    | some pid =>
      simp only [Option.isNone_some, Bool.false_and, Bool.false_eq_true, if_false]
      exact ⟨_, rfl, .processBlocks _ rest _ hclear⟩
    | none =>
      simp only [Option.isNone_none, Bool.true_and]
      split
      · exact ⟨_, rfl, .resolve rest _ hclear⟩
      · exact ⟨_, rfl, .processBlocks _ rest _ hclear⟩
  | @resolve p _ _ hclear =>
    have hview := hr _ rfl
    simp only [State.runStage, hview, State.view]
    exact ⟨_, rfl, .processBlocks _ rest _ hclear⟩
  | @processBlocks p pid _ _ hclear =>
    cases hblock : s.policy.processBlocksPacket pid p.isLoopback with
    | true =>
      simp only [State.runStage, Readings.blockProcess, hblock, if_true]
      exact ⟨_, rfl, rfl⟩
    | false =>
      simp only [State.runStage, Readings.blockProcess, hblock, Bool.false_eq_true, if_false,
        Readings.lose]
      split
      · exact ⟨_, rfl, .chargeLen rest _ ⟨hclear, hblock⟩⟩
      · exact ⟨_, rfl, .processLoss rest _ ⟨hclear, hblock⟩⟩
  | @processLoss p pid _ _ hclear =>
    cases hloss : s.policy.processLoss pid p.direction with
    | none =>
      simp only [State.runStage, Policy.effectiveLoss, hloss]
      exact ⟨_, rfl, .globalLoss rest _ hclear⟩
    | some loss =>
      simp only [State.runStage, Policy.effectiveLoss, hloss]
      exact ⟨_, rfl, .sampleLoss loss rest _ hclear⟩
  | globalLoss _ _ hclear => exact ⟨_, rfl, .sampleLoss _ rest _ hclear⟩
  | @sampleLoss p pid loss _ _ hclear =>
    simp only [State.runStage, Readings.sample]
    by_cases hzero : loss = 0
    · simp only [hzero, if_true]
      exact ⟨_, rfl, .chargeLen rest _ hclear⟩
    · simp only [hzero, if_false, if_true]
      cases (s.locals.lossSampler.shouldDrop loss).1 with
      | true =>
        simp only [if_true]
        exact ⟨{ decision := .drop .loss, locals := _ }, rfl, rfl⟩
      | false =>
        simp only [Bool.false_eq_true, if_false]
        refine ⟨_, ?_, .chargeLen rest _ hclear⟩
        rw [Handling.counted, (r.limit_limits s.policy p pid _).eligible]
  | chargeLen _ _ hclear =>
    have hview := hr _ rfl
    simp only [State.runStage, Readings.limit, Parsed.charge, hview, State.view]
    exact ⟨_, rfl, .limitGlobal rest _ hclear⟩
  | @limitGlobal a _ _ hclear =>
    rw [s.runStage_limitGlobal env a, limitGlobal_eq (hr _ rfl) hclear]
    cases (s.offer a).shouldDropGlobal s.locals with
    | mk reason locals =>
      cases reason with
      | none => exact ⟨_, rfl, .limitProcess rest _ hclear⟩
      | some reason => exact ⟨_, rfl, rfl⟩
  | @limitProcess a _ _ hclear =>
    rw [s.runStage_limitProcess env a, limitProcess_eq (hr _ rfl) hclear]
    cases (s.offer a).shouldDropProcess s.locals with
    | mk reason locals =>
      cases reason with
      | none => exact ⟨_, rfl, .lockGate a rest _⟩
      | some reason => exact ⟨_, rfl, rfl⟩

/-- A stage without a decision leads to the next point. -/
theorem stage {stage : Stage} {o : Outcome}
    (hp : Point r s.policy (.stage stage :: rest) s.locals h) (hr : r.Agrees s env (.stage stage))
    (hd : s.decision env (.stage stage) = none)
    (hexec : s.exec .receiver env (.stage stage) = some o) :
    ∃ s' pushed h', o = .next s' pushed ∧ Point r s.policy (pushed ++ rest) s'.locals h' ∧
      h'.counted s'.counters.packetsLossEligible = h.counted s.counters.packetsLossEligible ∧
      ∀ m ∈ ahead (pushed ++ rest), m ∈ stage.ahead ∧ (Op.stage stage).moment ≠ some m := by
  obtain ⟨-, hlocals, heligible, ho⟩ := State.exec_stage hexec
  obtain ⟨h', rfl, hmatch⟩ := hp.runStage hr
  have htotal : h'.counted o.state.counters.packetsLossEligible =
      (h'.counted (if (s.runStage env stage).2.2 then 1 else 0)).counted
        s.counters.packetsLossEligible := by
    rw [heligible, Nat.add_comm]
    simp only [Handling.counted, Nat.add_assoc]
  have hahead {m : Moment} (hm : m ∈ (s.runStage env stage).1.ahead) := s.runStage_ahead stage hm
  simp only [State.decision] at hd
  cases hverdict : (s.runStage env stage).1 with
  | «continue» next =>
    simp only [hverdict] at hmatch ho hahead
    exact ⟨_, _, h', ho, hlocals ▸ hmatch, htotal, fun m hm => hahead hm⟩
  | admitted a =>
    simp only [hverdict] at hmatch ho hahead
    exact ⟨_, _, h', ho, hlocals ▸ hmatch, htotal, fun m hm => hahead hm⟩
  | drop _ | bypass _ | panic => simp [hverdict] at hd

/-- So does a check without one. -/
theorem check {c : Check} (hp : Point r s.policy (.check c :: rest) s.locals h)
    (hr : r.Agrees s env (.check c)) (hd : s.decision env (.check c) = none) :
    Point r s.policy (s.check c ++ rest) s.locals h ∧
      ∀ m ∈ ahead (s.check c ++ rest), m ∈ ahead (.check c :: rest) ∧
        (Op.check c).moment ≠ some m := by
  have hlock {a : Admission} (hgate : (r .gate).aborted = false) :
      Point r s.policy (.lockQueue :: .dispatch a
        (s.policy.effectiveDelayMs a.pid a.direction a.isLoopback) :: rest) s.locals
        (r.delay s.policy a s.locals) := .lockQueue a rest s.locals hgate
  cases hp with
  | admitAborted a =>
    have hview := hr _ rfl
    have haborted : s.status.aborted = false := by simpa [State.decision] using hd
    simp only [State.check, haborted, Bool.false_eq_true, if_false]
    refine ⟨.processDelay a _ _ (hview ▸ haborted), fun m hm => ?_⟩
    cases List.mem_singleton.mp hm
    simp [ahead, Op.moment]
  | processDelay a _ _ hgate =>
    have hpoint := hlock (a := a) hgate
    cases hloop : a.isLoopback with
    | true =>
      simp only [Policy.effectiveDelayMs, hloop, if_true] at hpoint
      simp only [State.check, hloop, if_true]
      exact ⟨hpoint, fun m hm => ⟨hm, by simp [Op.moment]⟩⟩
    | false =>
      cases hdelay : s.policy.processDelayMs a.pid a.direction with
      | some delayMs =>
        simp only [Policy.effectiveDelayMs, hloop, hdelay, Bool.false_eq_true, if_false,
          Option.getD_some] at hpoint
        simp only [State.check, hloop, hdelay, Bool.false_eq_true, if_false]
        exact ⟨hpoint, fun m hm => ⟨hm, by simp [Op.moment]⟩⟩
      | none =>
        simp only [State.check, hloop, hdelay, Bool.false_eq_true, if_false]
        exact ⟨.globalDelay _ _ hgate hloop hdelay, fun m hm => ⟨hm, by simp [Op.moment]⟩⟩
  | @globalDelay a _ _ hgate hloop hnone =>
    have hpoint := hlock (a := a) hgate
    simp only [Policy.effectiveDelayMs, hloop, hnone, Bool.false_eq_true, if_false,
      Option.getD_none] at hpoint
    exact ⟨hpoint, fun m hm => ⟨hm, by simp [Op.moment]⟩⟩

/-- A turn without a decision leads to the next point. -/
theorem next {op : Op} {o : Outcome} (hp : Point r s.policy (op :: rest) s.locals h)
    (hr : r.Agrees s env op) (hd : s.decision env op = none)
    (hexec : s.exec .receiver env op = some o) :
    ∃ s' pushed h', o = .next s' pushed ∧ Point r s.policy (pushed ++ rest) s'.locals h' ∧
      h'.counted s'.counters.packetsLossEligible = h.counted s.counters.packetsLossEligible ∧
      ∀ m ∈ ahead (pushed ++ rest), m ∈ ahead (op :: rest) ∧ op.moment ≠ some m := by
  cases op
  case stage stage => exact hp.stage hr hd hexec
  case check c =>
    obtain ⟨hpoint, hahead⟩ := hp.check hr hd
    cases hexec
    exact ⟨_, _, h, rfl, hpoint, rfl, hahead⟩
  case lockGate =>
    cases hp
    simp only [State.exec, Option.ite_none_right_eq_some, Option.some.injEq] at hexec
    obtain ⟨-, rfl⟩ := hexec
    exact ⟨_, _, _, rfl, .admitAborted _ _ _, rfl, fun m hm => ⟨hm, by simp [Op.moment]⟩⟩
  case lockQueue =>
    cases hp with
    | lockQueue a _ _ hgate =>
      simp only [State.exec, Option.ite_none_right_eq_some, Option.some.injEq] at hexec
      obtain ⟨-, rfl⟩ := hexec
      exact ⟨_, _, _, rfl, .dispatch a _ _ hgate, rfl, fun m hm => ⟨hm, by simp [Op.moment]⟩⟩
  case dispatch a delayMs =>
    simp only [State.decision] at hd
    split at hd <;> cases hd
  all_goals cases hp

/-- A turn with a decision takes the pipeline's. -/
theorem decided {op : Op} {o : Outcome} {d : Decision}
    (hp : Point r s.policy (op :: rest) s.locals h) (hr : r.Agrees s env op)
    (hd : s.decision env op = some d) (hexec : s.exec .receiver env op = some o) :
    h.counted s.counters.packetsLossEligible =
      { decision := d, locals := o.state.locals
        eligible := o.state.counters.packetsLossEligible } := by
  cases op
  case stage stage =>
    obtain ⟨-, hlocals, heligible, -⟩ := State.exec_stage hexec
    obtain ⟨h', rfl, hmatch⟩ := hp.runStage hr
    rw [hlocals, heligible, Nat.add_comm]
    simp only [State.decision] at hd
    cases hverdict : (s.runStage env stage).1 with
    | «continue» _ | admitted _ => simp [hverdict] at hd
    | drop _ | bypass _ | panic =>
      simp only [hverdict, Option.some.injEq] at hd hmatch
      rw [hmatch, ← hd]
      simp only [Handling.counted, Nat.zero_add]
  case check c =>
    cases hexec
    cases hp with
    | admitAborted a =>
      have hview := hr _ rfl
      simp only [State.decision, Option.ite_none_right_eq_some, Option.some.injEq] at hd
      obtain ⟨haborted, rfl⟩ := hd
      simp only [Readings.delay, hview, State.view, haborted, if_true, Handling.counted,
        Nat.zero_add, Outcome.state]
    | processDelay | globalDelay => cases hd
  case dispatch a delayMs =>
    cases hexec
    obtain ⟨-, hlocals, heligible⟩ := State.dispatch_state s a delayMs
    rw [hlocals, heligible]
    have hview := hr _ rfl
    cases hp with
    | dispatch _ _ _ hgate =>
      simp only [State.decision] at hd
      simp only [Readings.delay, hgate, hview, State.view, Bool.false_eq_true, if_false,
        Handling.counted, Nat.zero_add]
      split at hd
      next hwait =>
        cases hd
        simp only [hwait, if_true]
      next hpass =>
        cases hd
        simp only [hpass, Bool.false_eq_true, if_false]
  case lockGate | lockQueue => cases hd
  all_goals cases hp

end Point

end FlowBrake.Windows
