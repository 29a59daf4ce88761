import Std.Data.ExtTreeMap
import FlowBrake.Lib.Text
import FlowBrake.Windows.DelayQueue

/-! The engine's shared state and the decisions its threads take on it. -/
namespace FlowBrake.Windows
open FlowBrake.Core

/-- The threads: the packet receiver, the packet sender, and the owner of the engine. -/
inductive Tid
  | receiver
  | sender
  | ui
  deriving DecidableEq

structure IoError where
  rawOsError : Option ℤ
  text : Text
  deriving DecidableEq

inductive DropReason
  | block
  | loss
  | rate
  | queue
  | send
  | shutdown
  deriving DecidableEq

inductive EngineCommand
  | updateRule (pid : UInt32) (rule : ProcessRule)
  | updateRuleForPids (pids : List UInt32) (rule : ProcessRule)
  | setGlobalRule (rule : GlobalRule)
  | clearRules

structure ByteCounters where
  download : ℕ := 0
  upload : ℕ := 0
  deriving DecidableEq

/-- The rules and their revision. They change only under the send gate. -/
structure Policy where
  rules : RuleMap := ∅
  globalRule : GlobalRule := {}
  ruleRevision : ℕ := 0

structure Counters where
  perPid : Std.ExtTreeMap UInt32 ByteCounters := ∅
  globalDownload : ℕ := 0
  globalUpload : ℕ := 0
  packetsProcessed : ℕ := 0
  packetsDropped : ℕ := 0
  packetsBlocked : ℕ := 0
  packetsLossDropped : ℕ := 0
  packetsRateDropped : ℕ := 0
  packetsLossEligible : ℕ := 0
  packetsDelayed : ℕ := 0
  packetsQueueDropped : ℕ := 0
  packetsSendFailed : ℕ := 0
  packetsShutdownDropped : ℕ := 0

/-- The text of the installed socket filter, and the error of the last attempt. -/
structure SocketBlock where
  active : Option Text := none
  error : Option Text := none
  deriving DecidableEq

/-- The flags of the engine, its delay runtime and its driver handle. `notified` is set by a
notification of the condition variable since the sender last parked. -/
structure Status where
  error : Option Text := none
  aborted : Bool := false
  stopping : Bool := false
  ipv6Enabled : Bool := true
  draining : Bool := false
  recvDone : Bool := false
  notified : Bool := false
  closed : Bool := false
  socketBlock : SocketBlock := {}

structure EngineSnapshot where
  perPid : Std.ExtTreeMap UInt32 ByteCounters := ∅
  globalDownloadBytes : ℕ := 0
  globalUploadBytes : ℕ := 0
  packetsProcessed : ℕ := 0
  packetsDropped : ℕ := 0
  packetsBlocked : ℕ := 0
  packetsLossDropped : ℕ := 0
  packetsRateDropped : ℕ := 0
  packetsLossEligible : ℕ := 0
  packetsDelayed : ℕ := 0
  packetsQueueDropped : ℕ := 0
  packetsSendFailed : ℕ := 0
  packetsShutdownDropped : ℕ := 0
  delayQueuePackets : ℕ := 0
  delayQueueBytes : ℕ := 0
  engineError : Option Text := none
  running : Bool := false
  blockError : Option Text := none

abbrev PortPidMap := Protocol → UInt16 → Bool → Option UInt32

/-- A packet with the time at which it was received. -/
structure Received extends Captured where
  receivedAt : Instant

/-- A packet whose headers were read. -/
structure Parsed extends Received where
  packet : IpPacket
  parsed : IpPacket.parse bytes address.isIpv6 = .ok (some packet)

/-- A packet that passed the receiver's checks. -/
structure Admission extends Parsed where
  pid : Option UInt32
  chargeLen : ℕ

namespace Captured

def isLoopback (c : Captured) : Bool := c.address.isLoopback

def direction (c : Captured) : Direction := if c.address.isOutbound then .upload else .download

end Captured

namespace Admission

def outgoing (a : Admission) : Outgoing where
  toCaptured := a.toCaptured
  pid := a.pid
  direction := a.direction
  chargeLen := a.chargeLen

def pending (a : Admission) : PendingPacket where
  toOutgoing := a.outgoing
  flow := a.packet.flowKey

end Admission

/-- SplitMix64. -/
structure LossSampler where
  state : UInt64

namespace LossSampler

def shouldDrop (sampler : LossSampler) (basisPoints : UInt16) : Bool × LossSampler :=
  if basisPoints = 0 then (false, sampler)
  else if basisPoints ≥ 10000 then (true, sampler)
  else
    let state := sampler.state + 0x9e3779b97f4a7c15
    let value := (state ^^^ (state >>> 30)) * 0xbf58476d1ce4e5b9
    let value := (value ^^^ (value >>> 27)) * 0x94d049bb133111eb
    let value := value ^^^ (value >>> 31)
    (value.toNat * 10000 < basisPoints.toNat * 2 ^ 64, ⟨state⟩)

end LossSampler

abbrev BucketSlot := TokenBucket × Instant

/-- Whether the packet is over the rate, and the bucket after the access. -/
def consumeExistingBucket (now : Instant) (slot : BucketSlot) (rate : ℚ) (packetLen : ℕ) :
    Bool × BucketSlot :=
  let elapsed : ℚ := ((now - slot.2 : ℕ) : ℚ) / 10 ^ 9
  let (admitted, bucket) := (slot.1.setRate rate).tryConsume packetLen elapsed
  (!admitted, (bucket, now))

def consumeBucket (now : Instant) (slot : Option BucketSlot) (rate : ℚ) (packetLen : ℕ) :
    Bool × BucketSlot :=
  consumeExistingBucket now (slot.getD (.new rate, now)) rate packetLen

/-- The variables of `recv_loop` that outlive an iteration. -/
structure RecvLocals where
  portPid : PortPidMap := fun _ _ _ => none
  lastMapRefresh : Instant := 0
  ruleRevision : ℕ := 0
  unresolvedPorts : List (Protocol × UInt16 × Bool) := []
  buckets : UInt32 × Direction → Option BucketSlot := fun _ => none
  globalDlBucket : Option BucketSlot := none
  globalUlBucket : Option BucketSlot := none
  lossSampler : LossSampler := ⟨0⟩

namespace Policy

def globalBlocksPacket (policy : Policy) (isLoopback : Bool) : Bool :=
  !isLoopback && policy.globalRule.blockAll

def processBlocksPacket (policy : Policy) (pid : Option UInt32) (isLoopback : Bool) : Bool :=
  !isLoopback && pid.any fun pid => policy.rules[pid]?.any (·.blockAll)

/-- The process rule's delay; `none` defers to the global rule. -/
def processDelayMs (policy : Policy) (pid : Option UInt32) (direction : Direction) :
    Option UInt32 := do
  let rule ← policy.rules[← pid]?
  rule.delayMs direction

def globalDelayMs (policy : Policy) (direction : Direction) : UInt32 :=
  (policy.globalRule.delayMs direction).getD 0

def effectiveDelayMs (policy : Policy) (pid : Option UInt32) (direction : Direction)
    (isLoopback : Bool) : UInt32 :=
  if isLoopback then 0
  else min ((policy.processDelayMs pid direction).getD (policy.globalDelayMs direction)) maxDelayMs

def processLoss (policy : Policy) (pid : Option UInt32) (direction : Direction) :
    Option UInt16 := do
  let rule ← policy.rules[← pid]?
  rule.lossBasisPoints direction

def globalLoss (policy : Policy) (direction : Direction) : UInt16 :=
  (policy.globalRule.lossBasisPoints direction).getD 0

/-- Whether some rule depends on the process a packet belongs to. -/
def needsAttribution (policy : Policy) : Bool :=
  policy.rules.toList.any fun (_, rule) =>
    rule.blockAll
      || rule.downloadLossBasisPoints.isSome
      || rule.uploadLossBasisPoints.isSome
      || rule.downloadDelayMs.isSome
      || rule.uploadDelayMs.isSome

/-- The predicate with which `apply` releases queued packets. -/
def releases (policy : Policy) (packet : PendingPacket) : Bool :=
  policy.globalBlocksPacket false
    || policy.processBlocksPacket packet.pid false
    || policy.effectiveDelayMs packet.pid packet.direction false == 0

def updateRule (policy : Policy) (pid : UInt32) (rule : ProcessRule) : Policy :=
  let current := policy.rules[pid]?
  let revised := current.any (·.blockAll) != rule.blockAll
    || current.bind (·.downloadLossBasisPoints) != rule.downloadLossBasisPoints
    || current.bind (·.uploadLossBasisPoints) != rule.uploadLossBasisPoints
    || current.bind (·.downloadDelayMs) != rule.downloadDelayMs
    || current.bind (·.uploadDelayMs) != rule.uploadDelayMs
  { policy with
    ruleRevision := if revised then policy.ruleRevision + 1 else policy.ruleRevision
    rules := if rule.hasAnyRule then policy.rules.insert pid rule else policy.rules.erase pid }

def setGlobalRule (policy : Policy) (rule : GlobalRule) : Policy :=
  let current := policy.globalRule
  let revised := current.blockAll != rule.blockAll
    || current.downloadDelayMs != rule.downloadDelayMs
    || current.uploadDelayMs != rule.uploadDelayMs
  { policy with
    ruleRevision := if revised then policy.ruleRevision + 1 else policy.ruleRevision
    globalRule := rule }

end Policy

def socketBlockFilter (globalRule : GlobalRule) (rules : RuleMap) : Option Text :=
  let events := "!loopback and (event == CONNECT or event == ACCEPT)".toList
  if globalRule.blockAll then some events
  else
    let pids := rules.toList.filterMap fun (pid, rule) => if rule.blockAll then some pid else none
    if pids.isEmpty then none
    else
      let processes := List.intercalate " or ".toList
        (pids.map fun pid => "processId == ".toList ++ Nat.toDigits 10 pid.toNat)
      some (events ++ " and (".toList ++ processes ++ ")".toList)

/-- The socket filter after an attempt to install the one the rules ask for; `opened` is the
error of that attempt. -/
def syncSocketBlock (policy : Policy) (block : SocketBlock) (opened : Option Text) : SocketBlock :=
  match socketBlockFilter policy.globalRule policy.rules with
  | none => {}
  | some filter =>
    if block.active = some filter then block
    else
      match opened with
      | none => { active := some filter, error := none }
      | some error => { active := none, error := some error }

namespace Counters

def add (counters : Counters) : DropReason → Counters
  | .block => { counters with packetsBlocked := counters.packetsBlocked + 1 }
  | .loss => { counters with packetsLossDropped := counters.packetsLossDropped + 1 }
  | .rate => { counters with packetsRateDropped := counters.packetsRateDropped + 1 }
  | .queue => { counters with packetsQueueDropped := counters.packetsQueueDropped + 1 }
  | .send => { counters with packetsSendFailed := counters.packetsSendFailed + 1 }
  | .shutdown => { counters with packetsShutdownDropped := counters.packetsShutdownDropped + 1 }

def addPid (counters : Counters) (pid : UInt32) (direction : Direction) (bytes : ℕ) : Counters :=
  let counter := counters.perPid[pid]?.getD {}
  { counters with
    perPid := counters.perPid.insert pid (match direction with
      | .download => { counter with download := counter.download + bytes }
      | .upload => { counter with upload := counter.upload + bytes }) }

def addGlobal (counters : Counters) (direction : Direction) (bytes : ℕ) : Counters :=
  match direction with
  | .download => { counters with globalDownload := counters.globalDownload + bytes }
  | .upload => { counters with globalUpload := counters.globalUpload + bytes }

/-- The sum of the counters that name a reason for a drop. -/
def dropReasons (counters : Counters) : ℕ :=
  counters.packetsBlocked + counters.packetsLossDropped + counters.packetsRateDropped
    + counters.packetsQueueDropped + counters.packetsSendFailed + counters.packetsShutdownDropped

end Counters

end FlowBrake.Windows
