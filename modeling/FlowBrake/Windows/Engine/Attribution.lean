import FlowBrake.Lib.History
import FlowBrake.Windows.Engine.Held

/-! How the receiver attributes packets to processes: what it reads of the tables of ports, and what
it hands on. -/
namespace FlowBrake.Windows
open FlowBrake.Core Transition

abbrev Endpoint := Protocol × UInt16 × Bool

/-- `PORT_MAP_REFRESH` -/
def portMapRefresh : Instant := 1500000000

def Parsed.endpoint (p : Parsed) : Endpoint :=
  (p.packet.protocol, p.packet.localPort p.direction, p.address.isIpv6)

section Reading

/-- Why the tables of ports were read. -/
inductive ReadCause
  | started
  | outdated
  | missed (endpoint : Endpoint)

/-- The endpoint that was looked for in vain. -/
def ReadCause.missed? : ReadCause → Option Endpoint
  | started | outdated => none
  | missed endpoint => some endpoint

structure PortRead where
  cause : ReadCause
  time : Instant
  revision : ℕ
  ports : PortPidMap
  /-- The clock as the receiver took it after the read, or else the time of the read. -/
  clock : Instant
  /-- The revision of the rules that the receiver takes the tables to belong to. -/
  known : ℕ

/-- A read that was not for a missing endpoint. -/
def PortRead.periodic (read : PortRead) : Bool := read.cause.missed?.isNone

def PortRead.pidAt (read : PortRead) (endpoint : Endpoint) : Option UInt32 :=
  read.ports endpoint.1 endpoint.2.1 endpoint.2.2

/-- What the receiver has still to do: to take the clock after a read of the tables, or to read them
for an endpoint. -/
inductive ReadPhase
  | settled
  | stamping (revision : ℕ)
  | seeking (endpoint : Endpoint)

/-- The reads of the tables since the receiver began, the last one first, and the revision of the
rules when each packet was received. -/
structure ReadLog where
  reads : List PortRead := []
  phase : ReadPhase := .settled
  revisions : ℕ → ℕ := fun _ => 0

/-- What the receiver knows of the tables. -/
structure PortView where
  portPid : PortPidMap
  lastMapRefresh : Instant
  ruleRevision : ℕ
  unresolvedPorts : List Endpoint

def RecvLocals.view (locals : RecvLocals) : PortView where
  portPid := locals.portPid
  lastMapRefresh := locals.lastMapRefresh
  ruleRevision := locals.ruleRevision
  unresolvedPorts := locals.unresolvedPorts

namespace State

def mapOutdated (s : State) (revision : ℕ) : Bool :=
  s.now - s.locals.lastMapRefresh ≥ portMapRefresh || revision != s.locals.ruleRevision

def pidAt (s : State) (endpoint : Endpoint) : Option UInt32 :=
  s.locals.portPid endpoint.1 endpoint.2.1 endpoint.2.2

/-- The packet's endpoint is looked for in the tables at once. -/
def misses (s : State) (endpoint : Endpoint) : Bool :=
  (s.pidAt endpoint).isNone && s.policy.needsAttribution &&
    !s.locals.unresolvedPorts.contains endpoint

/-- What the receiver knows of the tables after an operation. -/
def viewAfter (s : State) (env : Env) : Op → PortView
  | .recvInit .ports => ⟨env.ports, 0, 0, []⟩
  | .recvInit .clock => { s.locals.view with lastMapRefresh := s.now }
  | .recvInit .revision => { s.locals.view with ruleRevision := s.policy.ruleRevision }
  | .stage (.readPorts _ _) | .stage (.resolve _) => { s.locals.view with portPid := env.ports }
  | .stage (.refreshed _ revision) => ⟨s.locals.portPid, s.now, revision, []⟩
  | .stage (.attribute p) =>
    if s.misses p.endpoint then
      { s.locals.view with unresolvedPorts := p.endpoint :: s.locals.unresolvedPorts }
    else s.locals.view
  | _ => s.locals.view

end State

namespace ReadLog

def read (log : ReadLog) (s : State) (env : Env) (cause : ReadCause) (known : ℕ) : ReadLog :=
  let read : PortRead := {
    cause, known
    time := s.now
    revision := s.policy.ruleRevision
    ports := env.ports
    clock := s.now }
  { log with reads := read :: log.reads }

/-- The receiver takes the clock. -/
def stamp (log : ReadLog) (now : Instant) : ReadLog :=
  { log with reads := log.reads.modifyHead fun read => { read with clock := now } }

/-- The log after an operation that begins in `s`. -/
def after (log : ReadLog) (s : State) (env : Env) : Op → ReadLog
  | .recvInit .ports =>
    { log with reads := [], phase := .settled }.read s env .started s.policy.ruleRevision
  | .recvInit .clock => log.stamp s.now
  | .recvInit .revision => { log with
      reads := log.reads.modifyHead fun read => { read with known := s.policy.ruleRevision } }
  | .recv => { log with
      revisions := Function.update log.revisions s.nextCapture s.policy.ruleRevision }
  | .stage (.readPorts _ revision) =>
    { log.read s env .outdated revision with phase := .stamping revision }
  | .stage (.refreshed _ _) => { log.stamp s.now with phase := .settled }
  | .stage (.attribute p) =>
    if s.misses p.endpoint then { log with phase := .seeking p.endpoint } else log
  | .stage (.resolve p) =>
    { log.read s env (.missed p.endpoint) s.locals.ruleRevision with phase := .settled }
  | _ => log

def record (s : State) (label : Label) (log : ReadLog) : ReadLog :=
  match label with
  | .run t env => ((s.ops t).head?.map (log.after s env)).getD log
  | _ => log

end ReadLog

/-- The operations by which the receiver learns something. -/
def Op.learns : Op → Bool
  | .recvInit _ | .recv | .stage (.readPorts _ _) | .stage (.refreshed _ _)
  | .stage (.attribute _) | .stage (.resolve _) => true
  | _ => false

/-- A packet in the receiver's hands: as it was received, with the revision of the rules, with a map
of ports that is outdated or not yet stamped, with the map brought up to date, with an endpoint that
is looked for, or attributed to a process. -/
inductive Hand
  | fresh (c : Received)
  | checked (c : Received) (revision : ℕ)
  | outdated (c : Received) (revision : ℕ)
  | stamping (c : Received) (revision : ℕ)
  | mapped (c : Received)
  | seeking (p : Parsed)
  | attributed (p : Parsed) (pid : Option UInt32)

def Op.hands : Op → List Hand
  | .stage (.aborted c) | .stage (.refresh c) => [.fresh c]
  | .stage (.elapsed c revision) => [.checked c revision]
  | .stage (.readPorts c revision) => [.outdated c revision]
  | .stage (.refreshed c revision) => [.stamping c revision]
  | .stage (.globalBlocks c) => [.mapped c]
  | .stage (.attribute p) => [.mapped p.toReceived]
  | .stage (.resolve p) => [.seeking p]
  | .stage (.processBlocks p pid) | .stage (.processLoss p pid) | .stage (.globalLoss p pid)
  | .stage (.sampleLoss p pid _) | .stage (.chargeLen p pid) => [.attributed p pid]
  | .stage (.limitGlobal a) | .stage (.limitProcess a) | .check (.admitAborted a)
  | .check (.processDelay a) | .check (.globalDelay a) | .dispatch a _ =>
    [.attributed a.toParsed a.pid]
  | _ => []

end Reading

section Steps

/-- Commands only ever raise the revision. -/
theorem Edit.le_ruleRevision (edit : Edit) (policy : Policy) :
    policy.ruleRevision ≤ (edit.apply policy).ruleRevision := by
  cases edit with
  | updateRule pid rule => exact policy.ruleRevision_le_updateRule pid rule
  | setGlobalRule rule =>
    simp only [apply, Policy.setGlobalRule]
    split
    · exact Nat.le_succ _
    · exact le_rfl
  | bumpRevision => exact Nat.le_succ _
  | clearRules | clearGlobalRule => exact le_rfl

theorem State.exec_ruleRevision {s : State} {t : Tid} {env : Env} {op : Op} {o : Outcome}
    (h : s.exec t env op = some o) : s.policy.ruleRevision ≤ o.state.policy.ruleRevision := by
  rcases exec_policy h with hp | ⟨edit, -, rfl⟩
  · rw [hp]
  · exact edit.le_ruleRevision s.policy

theorem Op.hands_of_carried {ops : List Op} (h : carried ops = []) {op : Op} (hm : op ∈ ops) :
    op.hands = [] := by
  have hnone := List.flatMap_eq_nil_iff.mp h op hm
  cases op
  case check c =>
    cases c
    case admitAborted | processDelay | globalDelay => cases hnone
    all_goals rfl
  case stage | dispatch => cases hnone
  all_goals rfl

namespace State

theorem runStage_elapsed (s : State) (env : Env) (c : Received) (revision : ℕ) :
    s.runStage env (.elapsed c revision) = (.continue (if s.mapOutdated revision then
      .readPorts c revision else .globalBlocks c), s.locals, false) := by
  unfold runStage
  change (if s.mapOutdated revision then _ else _) = _
  split <;> rfl

theorem runStage_attribute (s : State) (env : Env) (p : Parsed) :
    s.runStage env (.attribute p) = (.continue (if s.misses p.endpoint then
      .resolve p else .processBlocks p (s.pidAt p.endpoint)), if s.misses p.endpoint then
        { s.locals with unresolvedPorts := p.endpoint :: s.locals.unresolvedPorts }
      else s.locals, false) := by
  unfold runStage
  change (if s.misses p.endpoint then _ else _) = _
  split <;> rfl

theorem exec_view {s : State} {t : Tid} {env : Env} {op : Op} {o : Outcome}
    (h : s.exec t env op = some o) : o.state.locals.view = s.viewAfter env op := by
  cases op
  case recvInit init =>
    cases h
    cases init <;> rfl
  case stage st =>
    have hview : (s.runStage env st).2.1.view = s.viewAfter env (.stage st) := by
      cases st
      case «attribute» p =>
        rw [runStage_attribute, viewAfter]
        split <;> rfl
      all_goals
        simp only [runStage, viewAfter]
        repeat' split
      all_goals rfl
    simp only [exec] at h
    split at h <;> cases h <;> exact hview
  all_goals
    simp only [exec, dispatch, senderLoop, ioSend, tryQueue] at h
    repeat' split at h
  all_goals cases h <;> rfl

/-- The packets that an operation hands on. -/
inductive Passes (s : State) (env : Env) : Op → Hand → Prop
  | same {op : Op} {hand : Hand} : op.learns = false → hand ∈ op.hands → Passes s env op hand
  | received {c : Received} : c.capture = s.nextCapture → c.receivedAt = s.now →
      Passes s env .recv (.fresh c)
  | checked (c : Received) :
      Passes s env (.stage (.refresh c)) (.checked c s.policy.ruleRevision)
  | outdated (c : Received) {revision : ℕ} : s.mapOutdated revision = true →
      Passes s env (.stage (.elapsed c revision)) (.outdated c revision)
  | current (c : Received) {revision : ℕ} : s.mapOutdated revision = false →
      Passes s env (.stage (.elapsed c revision)) (.mapped c)
  | stamping (c : Received) (revision : ℕ) :
      Passes s env (.stage (.readPorts c revision)) (.stamping c revision)
  | mapped (c : Received) (revision : ℕ) :
      Passes s env (.stage (.refreshed c revision)) (.mapped c)
  | seeking {p : Parsed} : s.misses p.endpoint = true →
      Passes s env (.stage (.attribute p)) (.seeking p)
  | found {p : Parsed} : s.misses p.endpoint = false →
      Passes s env (.stage (.attribute p)) (.attributed p (s.pidAt p.endpoint))
  | resolved (p : Parsed) : Passes s env (.stage (.resolve p))
      (.attributed p (env.ports p.endpoint.1 p.endpoint.2.1 p.endpoint.2.2))

def Verdict.hands : Verdict → List Hand
  | .continue st => (Op.stage st).hands
  | .admitted a => [.attributed a.toParsed a.pid]
  | .drop _ | .bypass _ | .panic => []

theorem runStage_passes (s : State) (env : Env) (st : Stage) :
    ∀ hand ∈ Verdict.hands (s.runStage env st).1, Passes s env (.stage st) hand := by
  cases st
  case refresh c =>
    intro hand hhand
    obtain rfl := List.mem_singleton.mp hhand
    exact .checked c
  case elapsed c revision =>
    rw [runStage_elapsed]
    split
    · next hout =>
      intro hand hhand
      obtain rfl := List.mem_singleton.mp hhand
      exact .outdated c hout
    · next hout =>
      intro hand hhand
      obtain rfl := List.mem_singleton.mp hhand
      exact .current c (Bool.not_eq_true _ ▸ hout)
  case readPorts c revision =>
    intro hand hhand
    obtain rfl := List.mem_singleton.mp hhand
    exact .stamping c revision
  case refreshed c revision =>
    intro hand hhand
    obtain rfl := List.mem_singleton.mp hhand
    exact .mapped c revision
  case «attribute» p =>
    rw [runStage_attribute]
    split
    · next hmiss =>
      intro hand hhand
      obtain rfl := List.mem_singleton.mp hhand
      exact .seeking hmiss
    · next hmiss =>
      intro hand hhand
      obtain rfl := List.mem_singleton.mp hhand
      exact .found (Bool.not_eq_true _ ▸ hmiss)
  case resolve p =>
    intro hand hhand
    obtain rfl := List.mem_singleton.mp hhand
    exact .resolved p
  all_goals
    simp only [runStage]
    repeat' split
  all_goals
    first
      | exact fun hand hhand => .same rfl hhand
      | exact fun hand hhand => absurd hhand List.not_mem_nil

theorem check_hands (s : State) (c : Check) :
    ∀ op ∈ s.check c, ∀ hand ∈ op.hands, hand ∈ (Op.check c).hands := by
  cases c <;> simp only [check]
  case apply command =>
    intro op hm
    rcases List.mem_append.mp hm with hm | hm
    · obtain ⟨edit, -, rfl⟩ := List.mem_map.mp hm
      simp [Op.hands]
    · simp only [List.mem_cons, List.not_mem_nil, or_false] at hm
      rcases hm with rfl | rfl | rfl <;> simp [Op.hands]
  all_goals repeat' split
  all_goals simp [Op.hands, recordDrop, fail, drainQueue]

theorem exec_passes {s s' : State} {t : Tid} {env : Env} {op : Op} {pushed : List Op}
    (h : s.exec t env op = some (.next s' pushed)) :
    ∀ op' ∈ pushed, ∀ hand ∈ op'.hands, Passes s env op hand := by
  cases op
  case check c =>
    cases h
    exact fun op' hm hand hhand => .same rfl (check_hands s c op' hm hand hhand)
  case stage st =>
    have hpasses := s.runStage_passes env st
    simp only [exec] at h
    split at h
    · next hv =>
      cases h
      rw [hv] at hpasses
      intro op' hm
      obtain rfl := List.mem_singleton.mp hm
      exact hpasses
    · cases h
      exact fun op' hm => by simp [Op.hands_of_carried (carried_recordDrop _) hm]
    · cases h
      simp [send, Op.hands]
    · next hv =>
      cases h
      rw [hv] at hpasses
      intro op' hm
      rcases List.mem_cons.mp hm with rfl | hm
      · exact fun _ hhand => absurd hhand List.not_mem_nil
      · obtain rfl := List.mem_singleton.mp hm
        exact hpasses
    · cases h
  case recv =>
    simp only [exec] at h
    split at h <;> cases h
    · intro op' hm
      simp only [List.mem_cons, List.not_mem_nil, or_false] at hm
      rcases hm with rfl | rfl | rfl
      · exact fun _ hhand => absurd hhand List.not_mem_nil
      · intro hand hhand
        obtain rfl := List.mem_singleton.mp hhand
        exact .received rfl rfl
      · exact fun _ hhand => absurd hhand List.not_mem_nil
    · exact fun op' hm => by simp [Op.hands_of_carried rfl hm]
  case ioSend p =>
    simp only [exec, ioSend] at h
    split at h <;> cases h
    · obtain ⟨tallies, ht⟩ := recordBytes_eq_map p.pid p.direction p.chargeLen
      exact fun op' hm => by simp [Op.hands_of_carried (ht ▸ carried_tallies tallies) hm]
    · split <;> exact fun op' hm => by simp [Op.hands_of_carried rfl hm]
  all_goals
    simp only [exec, dispatch, senderLoop, tryQueue] at h
    repeat' split at h
  all_goals
    cases h <;> simp [Op.hands, recordDrop, send, stop, drainQueue, discardPending, fail]

end State

end Steps

end FlowBrake.Windows
