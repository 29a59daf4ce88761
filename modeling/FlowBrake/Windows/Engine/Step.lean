import FlowBrake.Windows.Engine.State

/-! The engine as threads that take turns. A thread is the list of the operations it still has
to do; each operation is one access to the shared state and may put further ones in its place. -/
namespace FlowBrake.Windows
open FlowBrake.Core

/-- Updates of the counters. -/
inductive Tally
  | processed
  | delayed
  | dropReason (reason : DropReason)
  | dropTotal
  | recordPid (pid : UInt32) (direction : Direction) (bytes : ℕ)
  | recordGlobal (direction : Direction) (bytes : ℕ)

def Tally.apply (counters : Counters) : Tally → Counters
  | .processed => { counters with packetsProcessed := counters.packetsProcessed + 1 }
  | .delayed => { counters with packetsDelayed := counters.packetsDelayed + 1 }
  | .dropReason reason => counters.add reason
  | .dropTotal => { counters with packetsDropped := counters.packetsDropped + 1 }
  | .recordPid pid direction bytes => counters.addPid pid direction bytes
  | .recordGlobal direction bytes => counters.addGlobal direction bytes

/-- Updates of the flags. -/
inductive Note
  | error (message : Text)
  | abort
  | stopping
  | close
  | clearSocketBlock
  | draining
  | recvDone
  | notify
  | ipv6Enabled (enabled : Bool)

def Note.apply (status : Status) : Note → Status
  | .error message => { status with error := some message }
  | .abort => { status with aborted := true }
  | .stopping => { status with stopping := true }
  | .close => { status with closed := true }
  | .clearSocketBlock => { status with socketBlock := {} }
  | .draining => { status with draining := true }
  | .recvDone => { status with recvDone := true }
  | .notify => { status with notified := true }
  | .ipv6Enabled enabled => { status with ipv6Enabled := enabled }

/-- Updates of the rules. -/
inductive Edit
  | updateRule (pid : UInt32) (rule : ProcessRule)
  | setGlobalRule (rule : GlobalRule)
  | bumpRevision
  | clearRules
  | clearGlobalRule

def Edit.apply (policy : Policy) : Edit → Policy
  | .updateRule pid rule => policy.updateRule pid rule
  | .setGlobalRule rule => policy.setGlobalRule rule
  | .bumpRevision => { policy with ruleRevision := policy.ruleRevision + 1 }
  | .clearRules => { policy with rules := ∅ }
  | .clearGlobalRule => { policy with globalRule := {} }

def EngineCommand.edits : EngineCommand → List Edit
  | .updateRule pid rule => [.updateRule pid rule]
  | .updateRuleForPids pids rule => pids.map fun pid => .updateRule pid rule
  | .setGlobalRule rule => [.setGlobalRule rule]
  | .clearRules => [.bumpRevision, .clearRules, .clearGlobalRule]

/-- The receiver's work before its loop: the tables of ports, then the clock, then the revision. -/
inductive RecvInit
  | ports
  | clock
  | revision
  deriving DecidableEq

/-- The receiver's work on a packet before the final gate, one access at a time. -/
inductive Stage
  | aborted (c : Received)
  | refresh (c : Received)
  | elapsed (c : Received) (revision : ℕ)
  | readPorts (c : Received) (revision : ℕ)
  | refreshed (c : Received) (revision : ℕ)
  | globalBlocks (c : Received)
  | attribute (p : Parsed)
  | resolve (p : Parsed)
  | processBlocks (p : Parsed) (pid : Option UInt32)
  | processLoss (p : Parsed) (pid : Option UInt32)
  | globalLoss (p : Parsed) (pid : Option UInt32)
  | sampleLoss (p : Parsed) (pid : Option UInt32) (loss : UInt16)
  | chargeLen (p : Parsed) (pid : Option UInt32)
  | limitGlobal (a : Admission)
  | limitProcess (a : Admission)

def Stage.captured : Stage → Captured
  | .aborted c | .refresh c | .elapsed c _ | .readPorts c _ | .refreshed c _ | .globalBlocks c =>
    c.toCaptured
  | .attribute p | .resolve p | .processBlocks p _ | .processLoss p _ | .globalLoss p _
  | .sampleLoss p _ _ | .chargeLen p _ => p.toCaptured
  | .limitGlobal a | .limitProcess a => a.toCaptured

/-- Decisions that read the shared state and write nothing. -/
inductive Check
  | recvError (error : IoError)
  | recvErrorStopping (error : IoError)
  | sendAborted (p : Outgoing)
  | sendGlobalBlocks (p : Outgoing)
  | sendProcessBlocks (p : Outgoing)
  | admitAborted (a : Admission)
  | processDelay (a : Admission)
  | globalDelay (a : Admission)
  | apply (command : EngineCommand)
  | releaseIfRevised (revision : ℕ)
  | applySync
  | stop
  | snapshot

inductive Op
  | lockGate
  | unlockGate
  | lockQueue
  | unlockQueue
  | tally (tally : Tally)
  | note (note : Note)
  | edit (edit : Edit)
  | check (check : Check)
  | stage (stage : Stage)
  | recvInit (init : RecvInit)
  | recv
  | dispatch (a : Admission) (delayMs : UInt32)
  | ioSend (p : Outgoing)
  | senderLoop
  | finish (packet : PendingPacket)
  | park (deadline : Option Instant)
  | awaken (deadline : Option Instant)
  | releaseAll
  | releaseRevised
  | discardPending
  | swapStopping
  | shutdownRecv
  | spawnSender
  | spawnReceiver
  | joinWorker
  | joinSender
  | takeActiveWorker
  | syncSocketBlock
  | snapshotBlock (running : Bool)
  | snapshotPids (snapshot : EngineSnapshot)
  | snapshotDownload (snapshot : EngineSnapshot)
  | snapshotUpload (snapshot : EngineSnapshot)
  | snapshotCounters (snapshot : EngineSnapshot)

section Programs

def recordDrop (reason : DropReason) : List Op := [.tally (.dropReason reason), .tally .dropTotal]

def recordBytes (pid : Option UInt32) (direction : Direction) (bytes : ℕ) : List Op :=
  if bytes = 0 then []
  else
    (pid.map fun pid => .tally (.recordPid pid direction bytes)).toList
      ++ [.tally (.recordGlobal direction bytes)]

def discardPending : List Op := [.lockQueue, .discardPending, .note .notify, .unlockQueue]

/-- `draining = true`, releasing every packet and waking the sender, under the queue lock. -/
def drainQueue : List Op :=
  [.lockQueue, .note .draining, .releaseAll, .note .notify, .unlockQueue]

def fail (error : Text) : List Op :=
  [.note (.error error), .note .abort, .note .stopping, .note .close, .note .clearSocketBlock]
    ++ drainQueue

/-- `PacketWorker::send` -/
def send (p : Outgoing) : List Op := [.lockGate, .check (.sendAborted p), .unlockGate]

def recvDone : List Op := [.lockQueue, .note .recvDone, .note .notify, .unlockQueue]

/-- `run_worker` -/
def runWorker (receiving : Bool) : List Op :=
  if receiving then
    [.recvInit .ports, .recvInit .clock, .recvInit .revision, .recv] ++ recvDone
  else [.lockQueue, .senderLoop]

/-- What a thread does after its loop panicked. -/
def afterPanic : Tid → List Op
  | .receiver => fail "Packet receive worker panicked".toList ++ recvDone
  | .sender =>
    fail "Packet send worker panicked".toList ++ [.lockGate] ++ discardPending ++ [.unlockGate]
  | .ui => []

def apply (command : EngineCommand) : List Op := [.lockGate, .check (.apply command)]

def stop : List Op := [.check .stop]

end Programs

/-- The world's answers to an operation. -/
structure Env where
  recv : Except IoError (List UInt8 × WinDivertAddress) := .error ⟨none, []⟩
  /-- `none` stands for a panic. -/
  send : Option (Except IoError Unit) := some (.ok ())
  shutdownRecv : Option IoError := none
  ports : PortPidMap := fun _ _ _ => none
  spawned : Bool := true
  opened : Option Text := none
  seed : UInt64 := 0

structure State where
  policy : Policy := {}
  counters : Counters := {}
  status : Status := {}
  queue : DelayQueue := {}
  /-- The holder of the send gate. -/
  gate : Option Tid := none
  /-- The holder of the queue lock. -/
  queueLock : Option Tid := none
  /-- Whether the engine holds a handle of the receiver thread. -/
  worker : Bool := false
  /-- Whether the engine holds a handle of the sender thread. -/
  sender : Bool := false
  activeWorker : Bool := false
  locals : RecvLocals := {}
  now : Instant := 0
  ops : Tid → List Op := fun _ => []
  /-- History: the packets handed to `io.send`, in order. -/
  sent : List Outgoing := []
  /-- History: how many calls of `io.send` returned `Ok` since the start. -/
  sentOk : ℕ := 0
  /-- History: the number of packets received. -/
  nextCapture : ℕ := 0
  /-- History: the packets popped and not finished. -/
  inFlight : List PendingPacket := []
  /-- History: the packets lost to an exhausted sequence. -/
  lost : List PendingPacket := []
  /-- History: whether the receiver panicked since the start. -/
  receiverPanicked : Bool := false
  /-- History: the snapshots taken since the start. -/
  snapshots : List EngineSnapshot := []

/-- What the receiver does with a packet after a stage. -/
inductive Verdict
  | continue (stage : Stage)
  | drop (reason : DropReason)
  /-- No process, no charge: the headers are not those of a supported packet. -/
  | bypass (c : Captured)
  | admitted (a : Admission)
  | panic

namespace State

def isRunning (s : State) : Bool :=
  !s.status.stopping && (s.worker && !(s.ops .receiver).isEmpty)
    && (s.sender && !(s.ops .sender).isEmpty)

/-- The variables of `recv_loop` as they are set up. -/
def recvInit (s : State) (env : Env) : RecvInit → RecvLocals
  | .ports => { portPid := env.ports }
  | .clock => { s.locals with lastMapRefresh := s.now }
  | .revision => { s.locals with
      ruleRevision := s.policy.ruleRevision
      lossSampler := ⟨env.seed⟩ }

/-- One stage of `recv_loop`; the flag says whether the packet was eligible for loss. -/
def runStage (s : State) (env : Env) : Stage → Verdict × RecvLocals × Bool
  | .aborted c =>
    if s.status.aborted then (.drop .shutdown, s.locals, false)
    else (.continue (.refresh c), s.locals, false)
  | .refresh c => (.continue (.elapsed c s.policy.ruleRevision), s.locals, false)
  | .elapsed c revision =>
    let elapsed := s.now - s.locals.lastMapRefresh
    if elapsed ≥ 1500000000 || revision != s.locals.ruleRevision then
      (.continue (.readPorts c revision), s.locals, false)
    else (.continue (.globalBlocks c), s.locals, false)
  | .readPorts c revision =>
    (.continue (.refreshed c revision), { s.locals with portPid := env.ports }, false)
  | .refreshed c revision =>
    (.continue (.globalBlocks c), { s.locals with
      lastMapRefresh := s.now
      ruleRevision := revision
      unresolvedPorts := [] }, false)
  | .globalBlocks c =>
    if s.policy.globalBlocksPacket c.isLoopback then (.drop .block, s.locals, false)
    else
      match h : IpPacket.parse c.bytes c.address.isIpv6 with
      | .error _ => (.panic, s.locals, false)
      | .ok none => (.bypass c.toCaptured, s.locals, false)
      | .ok (some packet) =>
        (.continue (.attribute { toReceived := c, packet, parsed := h }), s.locals, false)
  | .attribute p =>
    let isIpv6 := p.address.isIpv6
    let localPort := p.packet.localPort p.direction
    let pid := s.locals.portPid p.packet.protocol localPort isIpv6
    let endpoint := (p.packet.protocol, localPort, isIpv6)
    if pid.isNone && s.policy.needsAttribution && !s.locals.unresolvedPorts.contains endpoint then
      (.continue (.resolve p), { s.locals with
        unresolvedPorts := endpoint :: s.locals.unresolvedPorts }, false)
    else (.continue (.processBlocks p pid), s.locals, false)
  | .resolve p =>
    let pid := env.ports p.packet.protocol (p.packet.localPort p.direction) p.address.isIpv6
    (.continue (.processBlocks p pid), { s.locals with portPid := env.ports }, false)
  | .processBlocks p pid =>
    if s.policy.processBlocksPacket pid p.isLoopback then (.drop .block, s.locals, false)
    else
      (.continue (if p.isLoopback then .chargeLen p pid else .processLoss p pid), s.locals, false)
  | .processLoss p pid =>
    match s.policy.processLoss pid p.direction with
    | some loss => (.continue (.sampleLoss p pid loss), s.locals, false)
    | none => (.continue (.globalLoss p pid), s.locals, false)
  | .globalLoss p pid =>
    (.continue (.sampleLoss p pid (s.policy.globalLoss p.direction)), s.locals, false)
  | .sampleLoss p pid loss =>
    if loss = 0 then (.continue (.chargeLen p pid), s.locals, false)
    else
      let (dropped, lossSampler) := s.locals.lossSampler.shouldDrop loss
      (if dropped then .drop .loss else .continue (.chargeLen p pid),
        { s.locals with lossSampler }, true)
  | .chargeLen p pid =>
    let chargeLen := if p.address.isIpv6 && !s.status.ipv6Enabled then 0 else p.packet.payloadLen
    (.continue (.limitGlobal { toParsed := p, pid, chargeLen }), s.locals, false)
  | .limitGlobal a =>
    let rule := s.policy.globalRule
    if rule.blockAll && !a.isLoopback then (.drop .block, s.locals, false)
    else if a.chargeLen = 0 then (.continue (.limitProcess a), s.locals, false)
    else
      match rule.effectiveBps a.direction with
      | none => (.continue (.limitProcess a), s.locals, false)
      | some rate =>
        let slot := match a.direction with
          | .download => s.locals.globalDlBucket
          | .upload => s.locals.globalUlBucket
        let (exceeded, slot) := consumeBucket s.now slot rate a.chargeLen
        let locals := match a.direction with
          | .download => { s.locals with globalDlBucket := some slot }
          | .upload => { s.locals with globalUlBucket := some slot }
        (if exceeded then .drop .rate else .continue (.limitProcess a), locals, false)
  | .limitProcess a =>
    match a.pid with
    | none => (.admitted a, s.locals, false)
    | some pid =>
      match s.policy.rules[pid]? with
      | none => (.admitted a, s.locals, false)
      | some rule =>
        if rule.blockAll && !a.isLoopback then (.drop .block, s.locals, false)
        else if a.chargeLen = 0 then (.admitted a, s.locals, false)
        else
          match rule.effectiveBps a.direction with
          | none => (.admitted a, s.locals, false)
          | some rate =>
            let key := (pid, a.direction)
            let (exceeded, slot) := consumeBucket s.now (s.locals.buckets key) rate a.chargeLen
            (if exceeded then .drop .rate else .admitted a,
              { s.locals with buckets := Function.update s.locals.buckets key (some slot) }, false)

def check (s : State) : Check → List Op
  | .recvError error => if s.status.aborted then [] else [.check (.recvErrorStopping error)]
  | .recvErrorStopping error =>
    if s.status.stopping && error.rawOsError == some 232 then []
    else fail ("Packet receive failed: ".toList ++ error.text)
  | .sendAborted p =>
    if s.status.aborted then recordDrop .shutdown else [.check (.sendGlobalBlocks p)]
  | .sendGlobalBlocks p =>
    if s.policy.globalBlocksPacket p.isLoopback then recordDrop .block
    else [.check (.sendProcessBlocks p)]
  | .sendProcessBlocks p =>
    if s.policy.processBlocksPacket p.pid p.isLoopback then recordDrop .block else [.ioSend p]
  | .admitAborted a =>
    if s.status.aborted then recordDrop .shutdown ++ [.unlockGate] else [.check (.processDelay a)]
  | .processDelay a =>
    if a.isLoopback then [.lockQueue, .dispatch a 0]
    else
      match s.policy.processDelayMs a.pid a.direction with
      | some delayMs => [.lockQueue, .dispatch a (min delayMs maxDelayMs)]
      | none => [.check (.globalDelay a)]
  | .globalDelay a =>
    [.lockQueue, .dispatch a (min (s.policy.globalDelayMs a.direction) maxDelayMs)]
  | .apply command =>
    command.edits.map .edit
      ++ [.check (.releaseIfRevised s.policy.ruleRevision), .unlockGate, .check .applySync]
  | .releaseIfRevised revision =>
    if s.policy.ruleRevision != revision then
      [.lockQueue, .releaseRevised, .note .notify, .unlockQueue]
    else []
  | .applySync => if s.isRunning then [.syncSocketBlock] else [.note .clearSocketBlock]
  | .stop => (if s.activeWorker then [.swapStopping] else [.note .stopping]) ++ [.joinWorker]
  | .snapshot => [.snapshotBlock s.isRunning]

end State

/-- The result of an operation: the new state and the operations put in its place, or a panic. -/
inductive Outcome
  | next (s : State) (pushed : List Op)
  | panic (s : State)

namespace State

/-- The outcome of an operation that may panic on the queue. -/
def tryQueue {α : Type} (s : State) (result : Except Panic α) (next : α → Outcome) : Outcome :=
  match result with
  | .ok a => next a
  | .error _ => .panic s

/-- The last step of `recv_loop`, with the send gate and the queue lock held. -/
def dispatch (s : State) (a : Admission) (delayMs : UInt32) : Outcome :=
  if !a.isLoopback && (delayMs > 0 || s.queue.hasFlow a.packet.flowKey) then
    let deadline := if s.status.draining then a.receivedAt
      else a.receivedAt + delayMs.toNat * 1000000
    match s.queue.enqueue a.pending deadline with
    | .ok (true, queue) =>
      .next { s with queue } [.tally .delayed, .note .notify, .unlockQueue, .unlockGate]
    | .ok (false, queue) =>
      .next { s with queue } (recordDrop .queue ++ [.unlockQueue, .unlockGate])
    | .error (.sequenceExhausted queue) => .panic { s with queue, lost := a.pending :: s.lost }
    | .error _ => .panic s
  else .next s ([.unlockQueue, .unlockGate] ++ send a.outgoing)

/-- One round of `send_loop`, with the queue lock held. The deadline that the sender parks for is the
one that it computes here, before it parks. -/
def senderLoop (s : State) : Outcome :=
  s.tryQueue (s.queue.popDue s.now) fun
    | (some packet, queue) =>
      .next { s with queue, inFlight := packet :: s.inFlight }
        ([.unlockQueue] ++ send packet.toOutgoing ++ [.lockQueue, .finish packet, .senderLoop])
    | (none, queue) =>
      let s := { s with queue }
      if s.status.recvDone && queue.nextDeadline.isNone then .next s [.unlockQueue]
      else .next s [.park queue.nextDeadline]

def ioSend (s : State) (env : Env) (p : Outgoing) : Outcome :=
  let s := { s with sent := s.sent ++ [p] }
  match env.send with
  | none => .panic s
  | some (.ok ()) =>
    .next { s with sentOk := s.sentOk + 1 } (recordBytes p.pid p.direction p.chargeLen)
  | some (.error error) =>
    let message := "Packet send failed: ".toList ++ error.text
    .next s (recordDrop .send ++
      if error.rawOsError = some 6 ∨ error.rawOsError = some 995 then fail message
      else [.note (.error message)])

/-- One operation of thread `t`; `none` while it has to wait. -/
def exec (s : State) (t : Tid) (env : Env) : Op → Option Outcome
  | .lockGate => if s.gate = none then some (.next { s with gate := some t } []) else none
  | .unlockGate => some (.next { s with gate := none } [])
  | .lockQueue =>
    if s.queueLock = none then some (.next { s with queueLock := some t } []) else none
  | .unlockQueue => some (.next { s with queueLock := none } [])
  | .tally tally => some (.next { s with counters := tally.apply s.counters } [])
  | .note note => some (.next { s with status := note.apply s.status } [])
  | .edit edit => some (.next { s with policy := edit.apply s.policy } [])
  | .check check => some (.next s (s.check check))
  | .stage stage =>
    let (verdict, locals, eligible) := s.runStage env stage
    let counters := if eligible then
      { s.counters with packetsLossEligible := s.counters.packetsLossEligible + 1 } else s.counters
    let s := { s with locals, counters }
    match verdict with
    | .continue stage => some (.next s [.stage stage])
    | .drop reason => some (.next s (recordDrop reason))
    | .bypass c =>
      some (.next s (send
        { toCaptured := c, pid := none, direction := c.direction, chargeLen := 0 }))
    | .admitted a => some (.next s [.lockGate, .check (.admitAborted a)])
    | .panic => some (.panic s)
  | .recvInit init => some (.next { s with locals := s.recvInit env init } [])
  | .recv =>
    match env.recv with
    | .ok (bytes, address) =>
      let c : Received := { bytes, address, capture := s.nextCapture, receivedAt := s.now }
      some (.next { s with nextCapture := s.nextCapture + 1 }
        [.tally .processed, .stage (.aborted c), .recv])
    | .error error => some (.next s [.check (.recvError error)])
  | .dispatch a delayMs => some (s.dispatch a delayMs)
  | .ioSend p => some (s.ioSend env p)
  | .senderLoop => some s.senderLoop
  | .finish packet => some (s.tryQueue (s.queue.finish packet) fun queue =>
      .next { s with queue, inFlight := s.inFlight.erase packet } [])
  -- `wait_timeout` is given what was left of the deadline when the queue was looked at.
  | .park deadline => some (.next
      { s with queueLock := none, status := { s.status with notified := false } }
      [.awaken deadline])
  -- A condition variable may also wake up without a notification or before the deadline.
  | .awaken _ =>
    if s.queueLock = none then some (.next { s with queueLock := some t } [.senderLoop]) else none
  | .releaseAll => some (s.tryQueue (s.queue.releaseMatching s.now fun _ => true) fun queue =>
      .next { s with queue } [])
  | .releaseRevised =>
    some (s.tryQueue (s.queue.releaseMatching s.now s.policy.releases) fun queue =>
      .next { s with queue } [])
  -- No one reads the two counters without the queue lock.
  | .discardPending =>
    let remaining := s.queue.packetCount
    some (.next { s with
      counters := { s.counters with
        packetsShutdownDropped := s.counters.packetsShutdownDropped + remaining
        packetsDropped := s.counters.packetsDropped + remaining }
      queue := {}
      inFlight := []
      lost := [] } [])
  | .swapStopping => some (.next { s with status := { s.status with stopping := true } }
      (drainQueue ++ if s.status.stopping then [] else [.shutdownRecv]))
  | .shutdownRecv =>
    match env.shutdownRecv with
    | none => some (.next s [])
    | some error => some (.next s (fail ("Packet receive shutdown failed: ".toList ++ error.text)))
  | .spawnSender =>
    if env.spawned then
      some (.next { s with
        sender := true
        ops := Function.update s.ops .sender (runWorker false) } [.spawnReceiver])
    else some (.next s stop)
  | .spawnReceiver =>
    if env.spawned then
      some (.next { s with
        worker := true
        ops := Function.update s.ops .receiver (runWorker true) } [])
    else some (.next s ([.lockQueue, .note .recvDone, .unlockQueue] ++ stop))
  | .joinWorker =>
    if s.worker && !(s.ops .receiver).isEmpty then none
    else some (.next { s with worker := false } [.joinSender])
  | .joinSender =>
    if s.sender && !(s.ops .sender).isEmpty then none
    else some (.next { s with sender := false } [.takeActiveWorker])
  | .takeActiveWorker => some (.next { s with activeWorker := false }
      ((if s.activeWorker then [.note .close] else []) ++ discardPending
        ++ [.note .clearSocketBlock]))
  | .syncSocketBlock => some (.next { s with
      status := { s.status with
        socketBlock := Windows.syncSocketBlock s.policy s.status.socketBlock env.opened } } [])
  | .snapshotBlock running =>
    let block := s.status.socketBlock
    let block := { block with active := if running then block.active else none }
    some (.next { s with status := { s.status with socketBlock := block } }
      [.snapshotPids { running, blockError := block.error }])
  | .snapshotPids snapshot => some (.next
      { s with counters := { s.counters with perPid := s.counters.perPid.map fun _ _ => {} } }
      [.lockQueue, .snapshotDownload { snapshot with perPid := s.counters.perPid }, .unlockQueue])
  | .snapshotDownload snapshot => some (.next
      { s with counters := { s.counters with globalDownload := 0 } }
      [.snapshotUpload { snapshot with globalDownloadBytes := s.counters.globalDownload }])
  | .snapshotUpload snapshot => some (.next
      { s with counters := { s.counters with globalUpload := 0 } }
      [.snapshotCounters { snapshot with globalUploadBytes := s.counters.globalUpload }])
  | .snapshotCounters snapshot =>
    let counters := s.counters
    some (.next { s with snapshots := s.snapshots ++ [{ snapshot with
      packetsProcessed := counters.packetsProcessed
      packetsDropped := counters.packetsDropped
      packetsBlocked := counters.packetsBlocked
      packetsLossDropped := counters.packetsLossDropped
      packetsRateDropped := counters.packetsRateDropped
      packetsLossEligible := counters.packetsLossEligible
      packetsDelayed := counters.packetsDelayed
      delayQueuePackets := s.queue.packetCount
      delayQueueBytes := s.queue.byteCount
      packetsQueueDropped := counters.packetsQueueDropped
      packetsSendFailed := counters.packetsSendFailed
      packetsShutdownDropped := counters.packetsShutdownDropped
      engineError := s.status.error }] } [])

end State

/-- A call on the engine by its owner. `start` is made of three of them: `stop`, `syncSocketBlock`
and `startWithIo`. -/
inductive UiCall
  | startWithIo
  | syncSocketBlock
  | stop
  | apply (command : EngineCommand)
  | snapshotAndReset
  | setIpv6Enabled (enabled : Bool)

def UiCall.program : UiCall → List Op
  | .startWithIo => [.spawnSender]
  | .syncSocketBlock => [.syncSocketBlock]
  | .stop => Windows.stop
  | .apply command => Windows.apply command
  | .snapshotAndReset => [.check .snapshot]
  | .setIpv6Enabled enabled => [.note (.ipv6Enabled enabled)]

inductive Label
  | run (t : Tid) (env : Env)
  | tick (elapsed : ℕ)
  | call (call : UiCall)

namespace State

def setOps (s : State) (t : Tid) (ops : List Op) : State :=
  { s with ops := Function.update s.ops t ops }

/-- The guards that a panicking thread drops. -/
def unwind (s : State) (t : Tid) : List Op :=
  (if s.queueLock = some t then [.unlockQueue] else [])
    ++ if s.gate = some t then [.unlockGate] else []

/-- Thread `t` drops its guards and goes on where its panic is caught. -/
def panicked (s : State) (t : Tid) : State :=
  { s.setOps t (s.unwind t ++ afterPanic t) with
    receiverPanicked := s.receiverPanicked || t = .receiver }

/-- `start_with_io` up to the first spawn. No other thread runs until then, so its resets are
one step. -/
def startWithIo (s : State) : State :=
  { s with
    counters := {}
    status := { s.status with
      stopping := false
      aborted := false
      error := none
      draining := false
      recvDone := false
      closed := false }
    queue := {}
    activeWorker := true
    sentOk := 0
    inFlight := []
    lost := []
    receiverPanicked := false
    snapshots := [] }

/-- The state after the owner begins a call. -/
def begin (s : State) (call : UiCall) : Option State :=
  match call with
  | .startWithIo => if s.activeWorker then none else some (s.startWithIo.setOps .ui call.program)
  | _ => some (s.setOps .ui call.program)

def step (s : State) : Label → Option State
  | .tick elapsed => some { s with now := s.now + elapsed }
  | .call call => if (s.ops .ui).isEmpty then s.begin call else none
  | .run t env =>
    match s.ops t with
    | [] => none
    | op :: rest => do
      match ← s.exec t env op with
      | .next s pushed => return s.setOps t (pushed ++ rest)
      | .panic s => return s.panicked t

/-- The state after the steps with the given labels, in order. -/
def follow (s : State) : List Label → Option State
  | [] => some s
  | label :: labels => (s.step label).bind (·.follow labels)

/-- `stop` has returned, or the engine was never started. -/
def Stopped (s : State) : Prop := s.ops .ui = [] ∧ s.activeWorker = false

instance (s : State) : Decidable s.Stopped := inferInstanceAs (Decidable (_ ∧ _))

end State

end FlowBrake.Windows
