import FlowBrake.Windows.Engine.Limiter

/-! What is to become of a received packet: the order in which the rules apply to it, and what a
rule that applies earlier keeps from the later ones. -/
namespace FlowBrake.Windows
open FlowBrake.Core

/-- When the receiver looks at what the other threads and the system may change meanwhile. -/
inductive Moment
  | aborted
  | elapsed
  | readPorts
  | refreshed
  | resolve
  | chargeLen
  | limitGlobal
  | limitProcess
  | gate
  | queue
  deriving DecidableEq

/-- What there is to see at a moment beside the rules. -/
structure View where
  now : Instant
  aborted : Bool
  ipv6Enabled : Bool
  draining : Bool
  hasFlow : FlowKey → Bool
  ports : PortPidMap

abbrev Readings := Moment → View

inductive Decision
  | drop (reason : DropReason)
  | send (p : Outgoing)
  | delay (packet : PendingPacket) (deadline : Instant)
  | panic

/-- The decision on a packet, the receiver's variables after it, and how often the packet was
counted as eligible for loss. -/
structure Handling where
  decision : Decision
  locals : RecvLocals
  eligible : ℕ := 0

namespace Policy

/-- A process's own loss rate counts even if it is 0. -/
def effectiveLoss (policy : Policy) (pid : Option UInt32) (direction : Direction) : UInt16 :=
  (policy.processLoss pid direction).getD (policy.globalLoss direction)

end Policy

/-- A packet sent on as it is: no process, no charge. -/
def Captured.unattributed (c : Captured) : Outgoing where
  toCaptured := c
  pid := none
  direction := c.direction
  chargeLen := 0

/-- The rate to which a rule holds a packet. A packet without a charge is held to none. -/
def Admission.heldTo (a : Admission) (rule : Option ProcessRule) : Option ℚ :=
  if a.chargeLen = 0 then none else rule.bind (·.effectiveBps a.direction)

/-- The charge of a packet: its payload, unless IPv6 is left out. -/
def Parsed.charge (p : Parsed) (ipv6Enabled : Bool) : ℕ :=
  if p.address.isIpv6 && !ipv6Enabled then 0 else p.packet.payloadLen

-- Each stage is defined with all that come after it.
namespace Readings
variable (r : Readings) (policy : Policy)

/-- Delay: a packet waits for its own delay or behind the packets of its flow. -/
def delay (a : Admission) (locals : RecvLocals) : Handling where
  decision :=
    if (r .gate).aborted then .drop .shutdown
    else
      let delayMs := policy.effectiveDelayMs a.pid a.direction a.isLoopback
      if !a.isLoopback && (delayMs > 0 || (r .queue).hasFlow a.packet.flowKey) then
        .delay a.pending (if (r .queue).draining then a.receivedAt
          else a.receivedAt + delayMs.toNat * 1000000)
      else .send a.outgoing
  locals := locals

/-- The limit of the packet's process. -/
def limitProcess (a : Admission) (locals : RecvLocals) : Handling :=
  match a.pid with
  | none => r.delay policy a locals
  | some pid =>
    match a.heldTo policy.rules[pid]? with
    | none => r.delay policy a locals
    | some rate =>
      let key := (pid, a.direction)
      let (exceeded, slot) :=
        consumeBucket (r .limitProcess).now (locals.buckets key) rate a.chargeLen
      let locals := { locals with buckets := Function.update locals.buckets key (some slot) }
      if exceeded then { decision := .drop .rate, locals } else r.delay policy a locals

/-- The global limit. -/
def limitGlobal (a : Admission) (locals : RecvLocals) : Handling :=
  match a.heldTo policy.globalRule with
  | none => r.limitProcess policy a locals
  | some rate =>
    let (exceeded, slot) :=
      consumeBucket (r .limitGlobal).now (locals.globalBucket a.direction) rate a.chargeLen
    let locals := locals.setGlobalBucket slot a.direction
    if exceeded then { decision := .drop .rate, locals } else r.limitProcess policy a locals

def limit (p : Parsed) (pid : Option UInt32) (locals : RecvLocals) : Handling :=
  let chargeLen := p.charge (r .chargeLen).ipv6Enabled
  r.limitGlobal policy { toParsed := p, pid, chargeLen } locals

/-- Loss at the rate `loss`. -/
def sample (p : Parsed) (pid : Option UInt32) (loss : UInt16) (locals : RecvLocals) : Handling :=
  if loss = 0 then r.limit policy p pid locals
  else
    let (dropped, lossSampler) := locals.lossSampler.shouldDrop loss
    let locals := { locals with lossSampler }
    if dropped then { decision := .drop .loss, locals, eligible := 1 }
    else { r.limit policy p pid locals with eligible := 1 }

/-- Loss, with the process's rate before the global one. -/
def lose (p : Parsed) (pid : Option UInt32) (locals : RecvLocals) : Handling :=
  if p.isLoopback then r.limit policy p pid locals
  else r.sample policy p pid (policy.effectiveLoss pid p.direction) locals

/-- Block by the rule of the packet's process. -/
def blockProcess (p : Parsed) (pid : Option UInt32) (locals : RecvLocals) : Handling :=
  if policy.processBlocksPacket pid p.isLoopback then { decision := .drop .block, locals }
  else r.lose policy p pid locals

/-- The packet's process, for an unknown endpoint looked up once in a new table. -/
def attribution (p : Parsed) (locals : RecvLocals) : Option UInt32 × RecvLocals :=
  let isIpv6 := p.address.isIpv6
  let localPort := p.packet.localPort p.direction
  let endpoint := (p.packet.protocol, localPort, isIpv6)
  match locals.portPid p.packet.protocol localPort isIpv6 with
  | some pid => (some pid, locals)
  | none =>
    if policy.needsAttribution && !locals.unresolvedPorts.contains endpoint then
      let ports := (r .resolve).ports
      (ports p.packet.protocol localPort isIpv6, { locals with
        portPid := ports
        unresolvedPorts := endpoint :: locals.unresolvedPorts })
    else (none, locals)

def resolve (p : Parsed) (locals : RecvLocals) : Handling :=
  let (pid, locals) := r.attribution policy p locals
  r.blockProcess policy p pid locals

/-- Block by the global rule, before the headers are read. Headers that cannot be read end the
handling. -/
def blockGlobal (c : Received) (locals : RecvLocals) : Handling :=
  if policy.globalBlocksPacket c.isLoopback then { decision := .drop .block, locals }
  else
    match h : IpPacket.parse c.bytes c.address.isIpv6 with
    | .error _ => { decision := .panic, locals }
    | .ok none =>
      { decision := .send c.unattributed, locals }
    | .ok (some packet) => r.resolve policy { toReceived := c, packet, parsed := h } locals

/-- The receiver's variables after the periodic refresh of its table of ports. -/
def refreshed (locals : RecvLocals) : RecvLocals :=
  let elapsed := (r .elapsed).now - locals.lastMapRefresh
  if elapsed ≥ 1500000000 || policy.ruleRevision != locals.ruleRevision then
    { locals with
      portPid := (r .readPorts).ports
      lastMapRefresh := (r .refreshed).now
      ruleRevision := policy.ruleRevision
      unresolvedPorts := [] }
  else locals

/-- Block, loss, the two limits and delay, in this order. -/
def pipeline (c : Received) (locals : RecvLocals) : Handling :=
  if (r .aborted).aborted then { decision := .drop .shutdown, locals }
  else r.blockGlobal policy c (r.refreshed policy locals)

end Readings

/-- The packet with its headers, if they can be read. -/
def Received.parse (c : Received) : Option Parsed :=
  match h : IpPacket.parse c.bytes c.address.isIpv6 with
  | .ok (some packet) => some { toReceived := c, packet, parsed := h }
  | _ => none

/-- The process a packet is put down to. -/
def Readings.pid (r : Readings) (policy : Policy) (c : Received) (locals : RecvLocals) :
    Option UInt32 :=
  c.parse.bind fun p => (r.attribution policy p (r.refreshed policy locals)).1

/-- What a packet takes from the buckets that pass it. -/
def Readings.charge (r : Readings) (c : Received) : ℕ :=
  (c.parse.map (·.charge (r .chargeLen).ipv6Enabled)).getD 0

/-- All buckets are as they were. -/
structure RecvLocals.SameBuckets (locals locals' : RecvLocals) : Prop where
  global : ∀ direction, locals'.globalBucket direction = locals.globalBucket direction
  process : locals'.buckets = locals.buckets

theorem RecvLocals.SameBuckets.refl (locals : RecvLocals) : locals.SameBuckets locals :=
  ⟨fun _ => rfl, rfl⟩

theorem RecvLocals.SameBuckets.trans {locals locals' locals'' : RecvLocals}
    (h : locals.SameBuckets locals') (h' : locals'.SameBuckets locals'') :
    locals.SameBuckets locals'' :=
  ⟨fun direction => (h'.global direction).trans (h.global direction), h'.process.trans h.process⟩

namespace Handling
variable {h : Handling} {locals locals' : RecvLocals}

/-- What the limits and the delay do to a packet and to the receiver's variables. -/
structure Limits (h : Handling) (a : Admission) (locals : RecvLocals) : Prop where
  ne_block : h.decision ≠ .drop .block
  ne_loss : h.decision ≠ .drop .loss
  lossSampler : h.locals.lossSampler = locals.lossSampler
  eligible : h.eligible = 0
  loopback : a.isLoopback → ∀ packet deadline, h.decision ≠ .delay packet deadline
  uncharged : a.chargeLen = 0 → locals.SameBuckets h.locals
  global : ∀ direction, direction ≠ a.direction →
    h.locals.globalBucket direction = locals.globalBucket direction
  process : ∀ key : UInt32 × Direction, (a.pid ≠ some key.1 ∨ key.2 ≠ a.direction) →
    h.locals.buckets key = locals.buckets key

/-- What the handling of a packet leaves as it was: an earlier stage shields the later ones. -/
structure Shields (h : Handling) (locals : RecvLocals) (isLoopback : Bool) (direction : Direction)
    (pid : Option UInt32) (chargeLen : ℕ) : Prop where
  block : h.decision = .drop .block →
    h.locals.lossSampler = locals.lossSampler ∧ h.eligible = 0 ∧ locals.SameBuckets h.locals
  loss : h.decision = .drop .loss → locals.SameBuckets h.locals
  uncharged : chargeLen = 0 → locals.SameBuckets h.locals
  loopback : isLoopback → h.decision ≠ .drop .block ∧ h.decision ≠ .drop .loss ∧
    (∀ packet deadline, h.decision ≠ .delay packet deadline) ∧
    h.locals.lossSampler = locals.lossSampler ∧ h.eligible = 0
  global : ∀ direction', direction' ≠ direction →
    h.locals.globalBucket direction' = locals.globalBucket direction'
  process : ∀ key : UInt32 × Direction, (pid ≠ some key.1 ∨ key.2 ≠ direction) →
    h.locals.buckets key = locals.buckets key

/-- A packet over a rate. -/
theorem Limits.exceeded (a : Admission) (locals : RecvLocals) :
    ({ decision := .drop .rate, locals } : Handling).Limits a locals where
  ne_block := nofun
  ne_loss := nofun
  lossSampler := rfl
  eligible := rfl
  loopback _ _ _ := nofun
  uncharged _ := .refl _
  global _ _ := rfl
  process _ _ := rfl

/-- A charge goes to the buckets of the packet. -/
theorem Limits.of_charge {a : Admission} (hl : h.Limits a locals') (hcharge : a.chargeLen ≠ 0)
    (hsampler : locals'.lossSampler = locals.lossSampler)
    (hglobal : ∀ direction, direction ≠ a.direction →
      locals'.globalBucket direction = locals.globalBucket direction)
    (hprocess : ∀ key : UInt32 × Direction, (a.pid ≠ some key.1 ∨ key.2 ≠ a.direction) →
      locals'.buckets key = locals.buckets key) : h.Limits a locals where
  ne_block := hl.ne_block
  ne_loss := hl.ne_loss
  lossSampler := hl.lossSampler.trans hsampler
  eligible := hl.eligible
  loopback := hl.loopback
  uncharged hzero := absurd hzero hcharge
  global direction hd := (hl.global direction hd).trans (hglobal direction hd)
  process key hk := (hl.process key hk).trans (hprocess key hk)

theorem Limits.shields {a : Admission} (hl : h.Limits a locals) :
    h.Shields locals a.isLoopback a.direction a.pid a.chargeLen where
  block hd := absurd hd hl.ne_block
  loss hd := absurd hd hl.ne_loss
  uncharged := hl.uncharged
  loopback hloop := ⟨hl.ne_block, hl.ne_loss, hl.loopback hloop, hl.lossSampler, hl.eligible⟩
  global := hl.global
  process := hl.process

/-- A decision that touches neither the sampler nor a bucket. -/
theorem Shields.untouched {isLoopback : Bool} {direction : Direction} {pid : Option UInt32}
    {chargeLen : ℕ} {decision : Decision} (hblock : isLoopback → decision ≠ .drop .block)
    (hloss : decision ≠ .drop .loss) (hdelay : ∀ packet deadline, decision ≠ .delay packet deadline)
    (locals : RecvLocals) :
    ({ decision, locals } : Handling).Shields locals isLoopback direction pid chargeLen where
  block _ := ⟨rfl, rfl, .refl _⟩
  loss _ := .refl _
  uncharged _ := .refl _
  loopback hloop := ⟨hblock hloop, hloss, hdelay, rfl, rfl⟩
  global _ _ := rfl
  process _ _ := rfl

theorem Shields.of_same {isLoopback : Bool} {direction : Direction} {pid : Option UInt32}
    {chargeLen : ℕ} (hs : h.Shields locals' isLoopback direction pid chargeLen)
    (hsame : locals.SameBuckets locals') (hsampler : locals'.lossSampler = locals.lossSampler) :
    h.Shields locals isLoopback direction pid chargeLen where
  block hd := by
    obtain ⟨hkept, hzero, hbuckets⟩ := hs.block hd
    exact ⟨hkept.trans hsampler, hzero, hsame.trans hbuckets⟩
  loss hd := hsame.trans (hs.loss hd)
  uncharged hzero := hsame.trans (hs.uncharged hzero)
  loopback hloop := by
    obtain ⟨hblock, hloss, hdelay, hkept, hzero⟩ := hs.loopback hloop
    exact ⟨hblock, hloss, hdelay, hkept.trans hsampler, hzero⟩
  global direction hd := (hs.global direction hd).trans (hsame.global direction)
  process key hk := (hs.process key hk).trans (congrFun hsame.process key)

end Handling

theorem Admission.chargeLen_of_heldTo {a : Admission} {rule : Option ProcessRule} {rate : ℚ}
    (h : a.heldTo rule = some rate) : a.chargeLen ≠ 0 := by
  intro hzero
  rw [Admission.heldTo, if_pos hzero] at h
  cases h

namespace Readings
variable (r : Readings) (policy : Policy)

theorem delay_limits (a : Admission) (locals : RecvLocals) :
    (r.delay policy a locals).Limits a locals := by
  have hdecision : (r.delay policy a locals).decision = .drop .shutdown ∨
      (r.delay policy a locals).decision = .send a.outgoing ∨
      a.isLoopback = false ∧
        ∃ packet deadline, (r.delay policy a locals).decision = .delay packet deadline := by
    simp only [delay]
    split
    · exact .inl rfl
    · split
      next hwait =>
        have hloop : a.isLoopback = false := by
          rw [Bool.and_eq_true, Bool.not_eq_true'] at hwait
          exact hwait.1
        exact .inr (.inr ⟨hloop, _, _, rfl⟩)
      · exact .inr (.inl rfl)
  refine ⟨?_, ?_, rfl, rfl, ?_, fun _ => .refl _, fun _ _ => rfl, fun _ _ => rfl⟩
  · rcases hdecision with hd | hd | ⟨-, _, _, hd⟩ <;> rw [hd] <;> nofun
  · rcases hdecision with hd | hd | ⟨-, _, _, hd⟩ <;> rw [hd] <;> nofun
  · intro hloop packet deadline
    rcases hdecision with hd | hd | ⟨hnot, -⟩
    · rw [hd]
      nofun
    · rw [hd]
      nofun
    · cases hnot.symm.trans hloop

theorem limitProcess_limits (a : Admission) (locals : RecvLocals) :
    (r.limitProcess policy a locals).Limits a locals := by
  unfold limitProcess
  split
  · exact r.delay_limits policy a locals
  next pid hpid =>
    split
    · exact r.delay_limits policy a locals
    next rate hrate =>
      have hother (slot : BucketSlot) (key : UInt32 × Direction)
          (hk : a.pid ≠ some key.1 ∨ key.2 ≠ a.direction) :
          Function.update locals.buckets (pid, a.direction) (some slot) key =
            locals.buckets key := by
        refine Function.update_of_ne ?_ _ _
        rintro rfl
        exact hk.elim (absurd hpid) (absurd rfl)
      dsimp only
      split
      · exact (Handling.Limits.exceeded a _).of_charge (a.chargeLen_of_heldTo hrate) rfl
          (fun _ _ => rfl) (hother _)
      · exact (r.delay_limits policy a _).of_charge (a.chargeLen_of_heldTo hrate) rfl
          (fun _ _ => rfl) (hother _)

theorem limitGlobal_limits (a : Admission) (locals : RecvLocals) :
    (r.limitGlobal policy a locals).Limits a locals := by
  unfold limitGlobal
  split
  · exact r.limitProcess_limits policy a locals
  next rate hrate =>
    have hother (slot : BucketSlot) (direction : Direction) (hd : direction ≠ a.direction) :
        (locals.setGlobalBucket slot a.direction).globalBucket direction =
          locals.globalBucket direction := by
      rw [RecvLocals.globalBucket_setGlobalBucket, if_neg hd]
    have hsampler (slot : BucketSlot) :
        (locals.setGlobalBucket slot a.direction).lossSampler = locals.lossSampler := by
      cases a.direction <;> rfl
    dsimp only
    split
    · exact (Handling.Limits.exceeded a _).of_charge (a.chargeLen_of_heldTo hrate) (hsampler _)
        (hother _) (fun _ _ => by rw [RecvLocals.buckets_setGlobalBucket])
    · exact (r.limitProcess_limits policy a _).of_charge (a.chargeLen_of_heldTo hrate) (hsampler _)
        (hother _) (fun _ _ => by rw [RecvLocals.buckets_setGlobalBucket])

variable (p : Parsed) (pid : Option UInt32) (locals : RecvLocals)

theorem limit_limits : (r.limit policy p pid locals).Limits
    { toParsed := p, pid, chargeLen := p.charge (r .chargeLen).ipv6Enabled } locals :=
  r.limitGlobal_limits policy _ locals

theorem lose_shields : (r.lose policy p pid locals).Shields locals p.isLoopback p.direction pid
    (p.charge (r .chargeLen).ipv6Enabled) := by
  unfold lose
  split
  · exact (r.limit_limits policy p pid locals).shields
  next hloop =>
    unfold sample
    split
    · exact (r.limit_limits policy p pid locals).shields
    · dsimp only
      split
      · have hsame (lossSampler : LossSampler) :
            locals.SameBuckets { locals with lossSampler } :=
          ⟨fun direction => by cases direction <;> rfl, rfl⟩
        exact ⟨by simp, fun _ => hsame _, fun _ => hsame _, fun h => absurd h hloop,
          fun direction _ => (hsame _).global direction, fun _ _ => rfl⟩
      · have hl := r.limit_limits policy p pid
          { locals with lossSampler := (locals.lossSampler.shouldDrop
            (policy.effectiveLoss pid p.direction)).2 }
        exact ⟨fun h => absurd h hl.ne_block, fun h => absurd h hl.ne_loss,
          fun hzero => ⟨(hl.uncharged hzero).global, (hl.uncharged hzero).process⟩,
          fun h => absurd h hloop, hl.global, hl.process⟩

theorem blockProcess_shields : (r.blockProcess policy p pid locals).Shields locals p.isLoopback
    p.direction pid (p.charge (r .chargeLen).ipv6Enabled) := by
  unfold blockProcess
  split
  next hblock =>
    refine .untouched (fun hloop => ?_) (by simp) (by simp) locals
    simp [Policy.processBlocksPacket, hloop] at hblock
  · exact r.lose_shields policy p pid locals

theorem resolve_shields : (r.resolve policy p locals).Shields locals p.isLoopback p.direction
    (r.attribution policy p locals).1 (p.charge (r .chargeLen).ipv6Enabled) := by
  have hsame : locals.SameBuckets (r.attribution policy p locals).2 ∧
      (r.attribution policy p locals).2.lossSampler = locals.lossSampler := by
    unfold attribution
    dsimp only
    split
    · exact ⟨.refl _, rfl⟩
    · split
      · exact ⟨⟨fun direction => by cases direction <;> rfl, rfl⟩, rfl⟩
      · exact ⟨.refl _, rfl⟩
  exact (r.blockProcess_shields policy p _ _).of_same hsame.1 hsame.2

/-- An earlier stage shields the later ones. -/
theorem pipeline_shields (c : Received) : (r.pipeline policy c locals).Shields locals c.isLoopback
    c.direction (r.pid policy c locals) (r.charge c) := by
  have hsame : locals.SameBuckets (r.refreshed policy locals) ∧
      (r.refreshed policy locals).lossSampler = locals.lossSampler := by
    unfold refreshed
    dsimp only
    split
    · exact ⟨⟨fun direction => by cases direction <;> rfl, rfl⟩, rfl⟩
    · exact ⟨.refl _, rfl⟩
  unfold pipeline
  split
  · exact .untouched (by simp) (by simp) (by simp) locals
  refine Handling.Shields.of_same ?_ hsame.1 hsame.2
  unfold blockGlobal
  split
  next hblock =>
    refine .untouched (fun hloop => ?_) (by simp) (by simp) _
    simp [Policy.globalBlocksPacket, hloop] at hblock
  · split
    · exact .untouched (by simp) (by simp) (by simp) _
    · exact .untouched (by simp) (by simp) (by simp) _
    next packet hparse =>
      have hparsed : c.parse = some { toReceived := c, packet, parsed := hparse } := by
        unfold Received.parse
        split
        next packet' hparse' =>
          cases hparse.symm.trans hparse'
          rfl
        next hne => exact absurd hparse (hne packet)
      simp only [pid, charge, hparsed, Option.bind_some, Option.map_some, Option.getD_some]
      exact r.resolve_shields policy _ _

end Readings

end FlowBrake.Windows
