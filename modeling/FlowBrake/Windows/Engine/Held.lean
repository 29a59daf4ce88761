import FlowBrake.Windows.Engine.Deadlines
import FlowBrake.Windows.Engine.Gate
import FlowBrake.Windows.Engine.Wake

/-! No packet stays in the queue for a delay that the rules no longer ask for. -/
namespace FlowBrake.Windows
open FlowBrake.Core Transition

namespace Policy

/-- The packets that the rules delay. -/
def delays (policy : Policy) (packet : PendingPacket) : Bool :=
  0 < policy.effectiveDelayMs packet.pid packet.direction false

theorem releases_of_not_delays {policy : Policy} {packet : PendingPacket}
    (h : policy.delays packet = false) : policy.releases packet = true := by
  have hzero : policy.effectiveDelayMs packet.pid packet.direction false = 0 := by
    simpa [delays, UInt32.not_lt] using h
  simp [releases, hzero]

/-- Two sets of rules ask for the same delays. -/
def SameDelays (policy policy' : Policy) : Prop :=
  ∀ pid direction, policy'.processDelayMs pid direction = policy.processDelayMs pid direction ∧
    policy'.globalDelayMs direction = policy.globalDelayMs direction

theorem SameDelays.delays_eq {policy policy' : Policy} (h : policy.SameDelays policy') :
    policy'.delays = policy.delays := by
  funext packet
  obtain ⟨hprocess, hglobal⟩ := h packet.pid packet.direction
  unfold delays effectiveDelayMs
  rw [hprocess, hglobal]

theorem ruleRevision_le_updateRule (policy : Policy) (pid : UInt32) (rule : ProcessRule) :
    policy.ruleRevision ≤ (policy.updateRule pid rule).ruleRevision := by
  unfold updateRule
  dsimp only
  split <;> omega

/-- A change of a process rule's delay is a new revision. -/
theorem sameDelays_updateRule {policy : Policy} {pid : UInt32} {rule : ProcessRule}
    (h : (policy.updateRule pid rule).ruleRevision = policy.ruleRevision) :
    policy.SameDelays (policy.updateRule pid rule) := by
  have hdelay : ∀ direction, policy.rules[pid]?.bind (·.delayMs direction) =
      rule.delayMs direction := by
    unfold updateRule at h
    dsimp only at h
    split at h
    · omega
    · next hsame =>
      simp only [Bool.or_eq_true, bne_iff_ne, not_or, not_not] at hsame
      obtain ⟨⟨⟨⟨-, -⟩, -⟩, hdownload⟩, hupload⟩ := hsame
      intro direction
      cases direction
      · exact hdownload
      · exact hupload
  refine fun pid' direction => ⟨?_, rfl⟩
  cases pid' with
  | none => rfl
  | some pid' =>
    have hrules : (policy.updateRule pid rule).rules =
      if rule.hasAnyRule then policy.rules.insert pid rule else policy.rules.erase pid := rfl
    change (policy.updateRule pid rule).rules[pid']?.bind _ = policy.rules[pid']?.bind _
    rw [hrules]
    by_cases hp : pid = pid'
    · subst hp
      rw [hdelay]
      cases hany : rule.hasAnyRule with
      | true => simp
      | false =>
        simp only [ProcessRule.hasAnyRule, Bool.or_eq_false_iff, Option.isSome_eq_false_iff,
          Option.isNone_iff_eq_none] at hany
        cases direction <;> simp [ProcessRule.delayMs, hany]
    · cases rule.hasAnyRule <;>
        simp [Std.ExtTreeMap.getElem?_insert, Std.ExtTreeMap.getElem?_erase, hp]

theorem sameDelays_setGlobalRule {policy : Policy} {rule : GlobalRule}
    (h : (policy.setGlobalRule rule).ruleRevision = policy.ruleRevision) :
    policy.SameDelays (policy.setGlobalRule rule) := by
  unfold setGlobalRule at h
  dsimp only at h
  split at h
  · omega
  · next hsame =>
    simp only [Bool.or_eq_true, bne_iff_ne, not_or, not_not] at hsame
    obtain ⟨⟨-, hdownload⟩, hupload⟩ := hsame
    intro pid direction
    refine ⟨rfl, ?_⟩
    cases direction <;>
      simp [globalDelayMs, setGlobalRule, ProcessRule.delayMs, hdownload, hupload]

end Policy

/-- A command that leaves the revision as it was leaves all delays as they were. -/
theorem EngineCommand.sameDelays {command : EngineCommand} {policy : Policy}
    (h : (command.edits.foldl Edit.apply policy).ruleRevision = policy.ruleRevision) :
    policy.SameDelays (command.edits.foldl Edit.apply policy) := by
  cases command with
  | updateRule pid rule => exact Policy.sameDelays_updateRule h
  | setGlobalRule rule => exact Policy.sameDelays_setGlobalRule h
  | clearRules => simp [edits, Edit.apply] at h
  | updateRuleForPids pids rule =>
    have hle (pids : List UInt32) (policy : Policy) : policy.ruleRevision ≤
        ((pids.map fun pid => Edit.updateRule pid rule).foldl Edit.apply policy).ruleRevision := by
      induction pids generalizing policy with
      | nil => exact le_rfl
      | cons pid pids ih =>
        exact (policy.ruleRevision_le_updateRule pid rule).trans (ih _)
    simp only [edits] at h ⊢
    induction pids generalizing policy with
    | nil => exact fun _ _ => ⟨rfl, rfl⟩
    | cons pid pids ih =>
      simp only [List.map_cons, List.foldl_cons, Edit.apply] at h ⊢
      have hfirst := policy.ruleRevision_le_updateRule pid rule
      have hrest := hle pids (policy.updateRule pid rule)
      have hone : policy.SameDelays (policy.updateRule pid rule) :=
        Policy.sameDelays_updateRule (by omega)
      have hmany : (policy.updateRule pid rule).SameDelays
          ((pids.map fun pid => Edit.updateRule pid rule).foldl Edit.apply
            (policy.updateRule pid rule)) := ih (by omega)
      intro pid' direction
      obtain ⟨hp, hg⟩ := hone pid' direction
      obtain ⟨hp', hg'⟩ := hmany pid' direction
      exact ⟨hp'.trans hp, hg'.trans hg⟩

/-- The operations of the receiver between its read of the rules and the queue. -/
def Op.decided : Op → Bool
  | .dispatch _ _ | .check (.globalDelay _) => true
  | _ => false

/-- What the receiver has read of the rules since it took the gate is what they still say. -/
inductive Deciding (policy : Policy) : List Op → Prop
  | idle {ops : List Op} : ops.all (!·.decided) → Deciding policy ops
  | globalDelay {a : Admission} {rest : List Op} :
      a.isLoopback = false → policy.processDelayMs a.pid a.direction = none →
      rest.all (!·.decided) → Deciding policy (.check (.globalDelay a) :: rest)
  | lockQueue {a : Admission} {delayMs : UInt32} {rest : List Op} :
      delayMs = policy.effectiveDelayMs a.pid a.direction a.isLoopback →
      rest.all (!·.decided) → Deciding policy (.lockQueue :: .dispatch a delayMs :: rest)
  | dispatch {a : Admission} {delayMs : UInt32} {rest : List Op} :
      delayMs = policy.effectiveDelayMs a.pid a.direction a.isLoopback →
      rest.all (!·.decided) → Deciding policy (.dispatch a delayMs :: rest)

theorem Deciding.tail {policy : Policy} {op : Op} {rest : List Op}
    (h : Deciding policy (op :: rest)) (hop : op ≠ .lockQueue) : rest.all (!·.decided) := by
  cases h with
  | idle hall =>
    rw [List.all_cons, Bool.and_eq_true] at hall
    exact hall.2
  | globalDelay _ _ hrest | dispatch _ hrest => exact hrest
  | lockQueue => exact absurd rfl hop

namespace State

theorem check_deciding {s : State} {c : Check} {rest : List Op}
    (h : Deciding s.policy (.check c :: rest)) : Deciding s.policy (s.check c ++ rest) := by
  have hrest := h.tail (by simp)
  cases c
  case processDelay a =>
    simp only [check]
    split
    · next hloop => exact .lockQueue (by simp [Policy.effectiveDelayMs, hloop]) hrest
    · next hloop =>
      split
      · next delayMs hdelay =>
        exact .lockQueue (by simp [Policy.effectiveDelayMs, hloop, hdelay]) hrest
      · next hdelay => exact .globalDelay (by simpa using hloop) hdelay hrest
  case globalDelay a =>
    cases h with
    | idle hall => simp [Op.decided] at hall
    | globalDelay hloop hdelay =>
      exact .lockQueue (by simp [Policy.effectiveDelayMs, hloop, hdelay]) hrest
  case apply command =>
    refine .idle ?_
    simpa [check, Op.decided] using hrest
  all_goals
    refine .idle ?_
    simp only [check]
    repeat' split
    all_goals simp_all [Op.decided, recordDrop, fail, drainQueue]

theorem exec_deciding {s s' : State} {t : Tid} {env : Env} {op : Op} {rest pushed : List Op}
    (hs : Deciding s.policy (op :: rest)) (h : s.exec t env op = some (.next s' pushed)) :
    Deciding s'.policy (pushed ++ rest) := by
  by_cases hlock : op = .lockQueue
  · subst hlock
    simp only [exec, Option.ite_none_right_eq_some] at h
    obtain ⟨-, h⟩ := h
    cases h
    cases hs with
    | idle hall => exact .idle (by simpa [Op.decided] using hall)
    | lockQueue hdelay hrest => exact .dispatch hdelay hrest
  have hrest := hs.tail hlock
  cases op
  case check c =>
    cases h
    exact check_deciding hs
  case ioSend p =>
    refine .idle ?_
    simp only [exec, ioSend] at h
    split at h <;> cases h
    · obtain ⟨tallies, ht⟩ := recordBytes_eq_map p.pid p.direction p.chargeLen
      simpa [ht, Op.decided] using hrest
    · split <;> simpa [Op.decided, recordDrop, fail, drainQueue] using hrest
  all_goals
    refine .idle ?_
    simp only [exec, dispatch, senderLoop, tryQueue] at h
    repeat' split at h
    all_goals
      cases h <;>
        simpa [Op.decided, recordDrop, send, stop, drainQueue, discardPending, fail] using hrest

/-- Between its read of the rules and the queue the receiver holds the gate. -/
theorem gate_of_deciding {s : State} (hl : s.Locked) {t : Tid}
    (h : Deciding s.policy (s.ops t)) : (s.ops t).all (!·.decided) ∨ s.gate = some t := by
  have hlocked := hl t
  cases hops : s.ops t with
  | nil => exact .inl rfl
  | cons op rest =>
    rw [hops] at h hlocked
    cases h with
    | idle hall => exact .inl hall
    | globalDelay =>
      right
      obtain ⟨_, hafter, -⟩ := Option.bind_eq_some_iff.mp hlocked
      simp only [Op.after, Option.ite_none_right_eq_some] at hafter
      exact gate_of_held hafter.1
    | lockQueue =>
      right
      obtain ⟨_, hafter, hlocked⟩ := Option.bind_eq_some_iff.mp hlocked
      obtain ⟨_, hafter', -⟩ := Option.bind_eq_some_iff.mp hlocked
      simp only [Op.after, Option.ite_none_left_eq_some, Option.some.injEq] at hafter
      simp only [Op.after, Option.ite_none_right_eq_some] at hafter'
      have hgate := congrArg Held.gate (hafter.2.trans hafter'.1)
      simpa [held] using hgate
    | dispatch =>
      right
      obtain ⟨_, hafter, -⟩ := Option.bind_eq_some_iff.mp hlocked
      simp only [Op.after, Option.ite_none_right_eq_some] at hafter
      simpa [held] using congrArg Held.gate hafter.1

theorem Reachable.deciding {s : State} (h : s.Reachable) (t : Tid) :
    Deciding s.policy (s.ops t) := by
  refine h.invariant (I := fun s => ∀ t, Deciding s.policy (s.ops t)) (fun _ => .idle rfl) ?_ t
  intro s label s' hr hs hstep t'
  have hother {t : Tid} {env : Env} {op : Op} {rest : List Op} {o : Outcome}
      (hops : s.ops t = op :: rest) (hexec : s.exec t env op = some o) (ht : t' ≠ t) :
      Deciding o.state.policy (o.state.ops t') := by
    rcases exec_ops hexec t' with he | ⟨-, -, he⟩ | ⟨-, -, he⟩ <;> rw [he]
    · rcases exec_policy hexec with hp | ⟨edit, rfl, -⟩
      · exact hp ▸ hs t'
      · obtain ⟨_, hafter, -⟩ := hr.locked.after_head hops
        have hgate := gate_of_edit hafter
        refine .idle ((gate_of_deciding hr.locked (hs t')).resolve_right fun hgate' => ?_)
        exact ht (Option.some_injective _ (hgate'.symm.trans hgate))
    · exact .idle rfl
    · exact .idle rfl
  cases hstep with
  | tick elapsed => exact hs t'
  | @call call s' hops hbegin =>
    have hpolicy : s'.policy = s.policy := by
      rcases begin_eq_some hbegin with ⟨-, -, rfl⟩ | ⟨-, rfl⟩ <;> rfl
    rw [begin_ops hbegin, hpolicy]
    by_cases ht : t' = .ui
    · subst ht
      rw [Function.update_self]
      exact .idle (by cases call <;> rfl)
    · rw [Function.update_of_ne ht]
      exact hs t'
  | @next t env op rest pushed s₁ hops hexec =>
    by_cases ht : t' = t
    · subst ht
      rw [setOps_self]
      exact (exec_deciding (hops ▸ hs t') hexec :)
    · rw [setOps_of_ne _ ht]
      exact hother hops hexec ht
  | @panic t env op rest s₁ hops hexec =>
    by_cases ht : t' = t
    · subst ht
      rw [panicked_self]
      refine .idle ?_
      unfold unwind
      split <;> split <;> cases t' <;> rfl
    · exact (panicked_of_ne s₁ ht).symm ▸ hother hops hexec ht

/-- Until the sequence is exhausted, a flow's tail after now is that of an entry. -/
theorem Reachable.backed {s : State} (h : s.Reachable) :
    s.queue.nextSequence + 1 < 2 ^ 64 → s.queue.Backed s.now := by
  refine h.queue_invariant
    (P := fun queue now => queue.nextSequence + 1 < 2 ^ 64 → queue.Backed now) ?_ ?_ ?_
  · intro now _ flow state hs
    cases hs
  · exact fun queue now now' hnow hs hseq => (hs hseq).mono hnow
  intro s op queue hr hs hstep hseq
  cases hstep with
  | keep => exact hs hseq
  | enqueue a delayMs _ hlt => exact (hs hlt).admitted a.pending (s.requestedDeadline a delayMs)
  | exhaust a delayMs hle => exact absurd hseq (not_lt.mpr hle)
  | pop entry heap state hpop hdue hstate => exact (hs hseq).popped hstate hpop hdue
  | finish packet queue hq =>
    rw [(DelayQueue.finish_eq_ok hq).2.1] at hseq
    exact (hs hseq).finish hq
  | releaseAll queue hq =>
    have hall : ∀ packet : PendingPacket, (fun _ => false) packet = false → true = true :=
      fun _ _ => rfl
    exact (DelayQueue.settled_of_releaseMatching hr.queueOk.consistent hr.queueOk.ordered
      hr.flightDue hq hall).2.2
  | releaseRevised queue hq =>
    have hall : ∀ packet, (!s.policy.releases packet) = false → s.policy.releases packet = true :=
      fun _ h => by simpa using h
    exact (DelayQueue.settled_of_releaseMatching hr.queueOk.consistent hr.queueOk.ordered
      hr.flightDue hq hall).2.2
  | discard =>
    intro flow state hs
    cases hs

/-- Only a packet that the rules do not delay and that asks to wait could be stuck. -/
theorem QueueStep.settled {s : State} (hr : s.Reachable) {op : Op} {queue : DelayQueue}
    (hstep : s.QueueStep op queue) {delayed : PendingPacket → Bool}
    (hs : s.queue.Settled s.now delayed) (hrelease : op ≠ .releaseRevised)
    (hrequest : ∀ a delayMs, op = .dispatch a delayMs → a.isLoopback = false →
      delayed a.pending = false → s.requestedDeadline a delayMs ≤ s.now) :
    queue.Settled s.now delayed := by
  cases hstep with
  | keep => exact hs
  | enqueue a delayMs hloop hlt =>
    exact hs.admitted hr.queueOk.ordered (hr.backed hlt) (hrequest a delayMs rfl hloop)
  | exhaust a delayMs => exact hs
  | pop entry heap state hpop hdue => exact hs.popped hpop hdue
  | finish packet queue hq => exact hs.finish hq
  | releaseAll queue hq =>
    exact (DelayQueue.settled_of_releaseMatching hr.queueOk.consistent hr.queueOk.ordered
      hr.flightDue hq fun _ _ => rfl).1
  | releaseRevised => exact absurd rfl hrelease
  | discard =>
    intro entry hm
    cases hm

/-- A packet that is about to be put into the queue has the delay that the rules ask for. -/
theorem delayMs_of_dispatch {s : State} (hr : s.Reachable) {t : Tid} {a : Admission}
    {delayMs : UInt32} {rest : List Op} (hops : s.ops t = .dispatch a delayMs :: rest) :
    delayMs = s.policy.effectiveDelayMs a.pid a.direction a.isLoopback := by
  have hdeciding := hops ▸ hr.deciding t
  cases hdeciding with
  | idle hall => simp [Op.decided] at hall
  | dispatch hdelay => exact hdelay

/-- A packet that the rules do not delay asks for no deadline after now. -/
theorem requestedDeadline_le {s : State} (hr : s.Reachable) {t : Tid} {a : Admission}
    {delayMs : UInt32} {rest : List Op} (hops : s.ops t = .dispatch a delayMs :: rest)
    (hloop : a.isLoopback = false) (hd : s.policy.delays a.pending = false) :
    s.requestedDeadline a delayMs ≤ s.now := by
  have hmem : .dispatch a delayMs ∈ s.ops t := by
    rw [hops]
    exact List.mem_cons_self
  have harrived : a.receivedAt ≤ s.now := hr.arrived hmem
  have hzero : delayMs = 0 := by
    have hnot : s.policy.effectiveDelayMs a.pending.pid a.pending.direction false = 0 := by
      simpa [Policy.delays, UInt32.not_lt] using hd
    rw [delayMs_of_dispatch hr hops, hloop]
    exact hnot
  subst hzero
  unfold requestedDeadline
  split
  · exact harrived
  · simpa using harrived

end State

/-- The operations of an apply from its first edit to its release of the queue. -/
def Op.revises : Op → Bool
  | .edit _ | .check (.releaseIfRevised _) | .releaseRevised => true
  | _ => false

namespace State

/-- How far the owner is with an apply: while it edits the rules, the queue is settled under
those from which it began. -/
inductive Phase (s : State) : Prop
  | calm : (s.ops .ui).all (!·.revises) → s.queue.Settled s.now s.policy.delays → Phase s
  | editing (policy : Policy) (edits : List Edit) (rest : List Op) :
      s.ops .ui = edits.map .edit ++ .check (.releaseIfRevised policy.ruleRevision) :: rest →
      rest.all (!·.revises) → s.queue.Settled s.now policy.delays →
      ((edits.foldl Edit.apply s.policy).ruleRevision = policy.ruleRevision →
        policy.SameDelays (edits.foldl Edit.apply s.policy)) → Phase s
  | locking (rest : List Op) : s.ops .ui = .lockQueue :: .releaseRevised :: rest →
      rest.all (!·.revises) → Phase s
  | releasing (rest : List Op) : s.ops .ui = .releaseRevised :: rest →
      rest.all (!·.revises) → Phase s

theorem check_revises (s : State) {c : Check} (hop : (Op.check c).revises = false)
    (happly : ∀ command, c ≠ .apply command) : (s.check c).all (!·.revises) := by
  cases c <;> simp only [check]
  case apply command => exact absurd rfl (happly command)
  case releaseIfRevised => cases hop
  all_goals repeat' split
  all_goals simp [Op.revises, recordDrop, fail, drainQueue]

theorem exec_revises {s s' : State} {t : Tid} {env : Env} {op : Op} {pushed : List Op}
    (hop : op.revises = false) (happly : ∀ command, op ≠ .check (.apply command))
    (h : s.exec t env op = some (.next s' pushed)) : pushed.all (!·.revises) := by
  cases op
  case check c =>
    cases h
    exact check_revises s hop fun command hc => happly command (by rw [hc])
  case ioSend p =>
    simp only [exec, ioSend] at h
    split at h <;> cases h
    · obtain ⟨tallies, ht⟩ := recordBytes_eq_map p.pid p.direction p.chargeLen
      simp [ht, Op.revises]
    · split <;> simp [Op.revises, recordDrop, fail, drainQueue]
  all_goals
    simp only [exec, dispatch, senderLoop, tryQueue] at h
    repeat' split at h
    all_goals
      cases h <;> simp [Op.revises, recordDrop, send, stop, drainQueue, discardPending, fail]

/-- While the owner edits the rules it holds the gate. -/
theorem gate_of_editing {s : State} (hl : s.Locked) {edits : List Edit} {revision : ℕ}
    {rest : List Op}
    (hops : s.ops .ui = edits.map .edit ++ .check (.releaseIfRevised revision) :: rest) :
    s.gate = some .ui := by
  cases edits with
  | nil =>
    obtain ⟨_, hafter, -⟩ := hl.after_head hops
    simp only [Op.after, Option.ite_none_right_eq_some] at hafter
    exact gate_of_held hafter.1
  | cons edit edits =>
    obtain ⟨_, hafter, -⟩ := hl.after_head hops
    exact gate_of_edit hafter

theorem gate_of_dispatch {s : State} (hl : s.Locked) {t : Tid} {a : Admission}
    {delayMs : UInt32} {rest : List Op} (hops : s.ops t = .dispatch a delayMs :: rest) :
    s.gate = some t := by
  obtain ⟨_, hafter, -⟩ := hl.after_head hops
  simp only [Op.after, Option.ite_none_right_eq_some] at hafter
  simpa [held] using congrArg Held.gate hafter.1

theorem Phase.congr {s s' : State} (hs : s.Phase) (hui : s'.ops .ui = s.ops .ui)
    (hqueue : s'.queue = s.queue) (hnow : s'.now = s.now) (hpolicy : s'.policy = s.policy) :
    s'.Phase := by
  cases hs with
  | calm hcalm hset =>
    refine .calm (hui ▸ hcalm) ?_
    rw [hqueue, hnow, hpolicy]
    exact hset
  | editing policy edits rest hedit hrest hset hsame =>
    refine .editing policy edits rest (hui.trans hedit) hrest ?_ (hpolicy ▸ hsame)
    rw [hqueue, hnow]
    exact hset
  | locking rest hlock hrest => exact .locking rest (hui.trans hlock) hrest
  | releasing rest hlock hrest => exact .releasing rest (hui.trans hlock) hrest

/-- A step of another thread leaves an apply where it is. -/
theorem Phase.other {s : State} (hs : s.Phase) (hr : s.Reachable) {t : Tid} {env : Env} {op : Op}
    {rest : List Op} {o : Outcome} (hops : s.ops t = op :: rest) (ht : t ≠ .ui)
    (h : s.exec t env op = some o) : o.state.Phase := by
  have hui : o.state.ops .ui = s.ops .ui := exec_ui_ops h
  have hnow : o.state.now = s.now := exec_now h
  have hstep := exec_queueStep hr hops h
  have hall := hr.allowed hops
  have hrelease : op ≠ .releaseRevised := by
    rintro rfl
    exact ht (by simpa [Op.allowed] using hall)
  have hpolicy : o.state.policy = s.policy := by
    rcases exec_policy h with hp | ⟨edit, rfl, -⟩
    · exact hp
    · exact absurd (by simpa [Op.allowed] using hall) ht
  cases hs with
  | calm hcalm hset =>
    refine .calm (hui ▸ hcalm) ?_
    rw [hnow, hpolicy]
    refine hstep.settled hr hset hrelease fun a delayMs hop hloop hd => ?_
    subst hop
    exact requestedDeadline_le hr hops hloop hd
  | editing policy edits rest' hedit hrest hset hsame =>
    refine .editing policy edits rest' (hui.trans hedit) hrest ?_ (hpolicy ▸ hsame)
    rw [hnow]
    refine hstep.settled hr hset hrelease fun a delayMs hop _ _ => ?_
    subst hop
    have hgate := gate_of_editing hr.locked hedit
    have hgate' := gate_of_dispatch hr.locked hops
    exact absurd (Option.some_injective _ (hgate'.symm.trans hgate)) ht
  | locking rest' hlock hrest => exact .locking rest' (hui.trans hlock) hrest
  | releasing rest' hlock hrest => exact .releasing rest' (hui.trans hlock) hrest

/-- An operation of the owner that is not part of an apply keeps the queue settled. -/
theorem settled_next_ui {s s' : State} (hr : s.Reachable) {env : Env} {op : Op}
    {rest pushed : List Op} (hops : s.ops .ui = op :: rest) (hop : op.revises = false)
    (h : s.exec .ui env op = some (.next s' pushed))
    (hs : s.queue.Settled s.now s.policy.delays) : s'.queue.Settled s'.now s'.policy.delays := by
  have hall := hr.allowed hops
  have hnow : s'.now = s.now := exec_now h
  have hpolicy : s'.policy = s.policy := by
    rcases exec_policy h with hp | ⟨edit, rfl, -⟩
    · exact hp
    · cases hop
  rw [hnow, hpolicy]
  refine (exec_queueStep hr hops h).settled hr hs ?_ ?_
  · rintro rfl
    cases hop
  · rintro a delayMs rfl
    simp [Op.allowed] at hall

theorem Phase.next_ui {s s' : State} (hs : s.Phase) (hr : s.Reachable) {env : Env} {op : Op}
    {rest pushed : List Op} (hops : s.ops .ui = op :: rest)
    (h : s.exec .ui env op = some (.next s' pushed)) :
    (s'.setOps .ui (pushed ++ rest)).Phase := by
  cases hs with
  | calm hcalm hset =>
    rw [hops, List.all_cons, Bool.and_eq_true, Bool.not_eq_true'] at hcalm
    obtain ⟨hop, hrest⟩ := hcalm
    have hset' := settled_next_ui hr hops hop h hset
    by_cases happly : ∃ command, op = .check (.apply command)
    · obtain ⟨command, rfl⟩ := happly
      cases h
      refine .editing s.policy command.edits (.unlockGate :: .check .applySync :: rest) ?_ ?_ hset'
        EngineCommand.sameDelays
      · rw [setOps_self]
        simp [check]
      · simpa [Op.revises] using hrest
    · refine .calm ?_ hset'
      rw [setOps_self, List.all_append, hrest,
        exec_revises hop (fun command hc => happly ⟨command, hc⟩) h]
      rfl
  | editing policy edits rest' hedit hrest hset hsame =>
    cases edits with
    | nil =>
      rw [hops, List.map_nil, List.nil_append, List.cons.injEq] at hedit
      obtain ⟨rfl, rfl⟩ := hedit
      cases h
      by_cases hrev : s.policy.ruleRevision = policy.ruleRevision
      · refine .calm ?_ ?_
        · rw [setOps_self]
          simpa [check, hrev] using hrest
        · rw [← (hsame hrev).delays_eq] at hset
          exact hset
      · refine .locking (.note .notify :: .unlockQueue :: rest) ?_ ?_
        · rw [setOps_self]
          simp [check, hrev]
        · simpa [Op.revises] using hrest
    | cons edit edits =>
      rw [hops, List.map_cons, List.cons_append, List.cons.injEq] at hedit
      obtain ⟨rfl, rfl⟩ := hedit
      cases h
      exact .editing policy edits rest' (setOps_self ..) hrest hset hsame
  | locking rest' hlock hrest =>
    rw [hops, List.cons.injEq] at hlock
    obtain ⟨rfl, rfl⟩ := hlock
    simp only [exec, Option.ite_none_right_eq_some] at h
    obtain ⟨-, h⟩ := h
    cases h
    exact .releasing rest' (setOps_self ..) hrest
  | releasing rest' hlock hrest =>
    rw [hops, List.cons.injEq] at hlock
    obtain ⟨rfl, rfl⟩ := hlock
    obtain ⟨queue, he, -⟩ := hr.queueOk.consistent.releaseMatching s.now s.policy.releases
    simp only [exec, tryQueue, he] at h
    cases h
    refine .calm ?_ ?_
    · rw [setOps_self]
      exact hrest
    · exact (DelayQueue.settled_of_releaseMatching hr.queueOk.consistent hr.queueOk.ordered
        hr.flightDue he fun _ => Policy.releases_of_not_delays).1

theorem Phase.settled {s : State} (hs : s.Phase) (hl : s.Locked) (hgate : s.gate ≠ some .ui) :
    s.queue.Settled s.now s.policy.delays := by
  cases hs with
  | calm _ hset => exact hset
  | editing policy edits rest hedit => exact absurd (gate_of_editing hl hedit) hgate
  | locking rest hlock =>
    obtain ⟨_, hafter, hlocked⟩ := hl.after_head hlock
    obtain ⟨_, hafter', -⟩ := Option.bind_eq_some_iff.mp hlocked
    simp only [Op.after, Option.ite_none_left_eq_some, Option.some.injEq] at hafter
    simp only [Op.after, Option.ite_none_right_eq_some] at hafter'
    have hheld := congrArg Held.gate (hafter.2.trans hafter'.1)
    exact absurd (by simpa [held] using hheld) hgate
  | releasing rest hlock =>
    obtain ⟨_, hafter, -⟩ := hl.after_head hlock
    simp only [Op.after, Option.ite_none_right_eq_some] at hafter
    exact absurd (by simpa [held] using congrArg Held.gate hafter.1) hgate

theorem Reachable.phase {s : State} (h : s.Reachable) : s.Phase := by
  have hempty : ∀ (now : Instant) (delayed : PendingPacket → Bool),
      DelayQueue.Settled {} now delayed := by
    intro now delayed entry hm
    cases hm
  refine h.invariant (I := Phase) (.calm rfl (hempty _ _)) ?_
  intro s label s' hr hs hstep
  cases hstep with
  | tick elapsed =>
    have hle : s.now ≤ s.now + elapsed := Nat.le_add_right _ _
    cases hs with
    | calm hcalm hset => exact .calm hcalm (hset.mono hle)
    | editing policy edits rest hedit hrest hset hsame =>
      exact .editing policy edits rest hedit hrest (hset.mono hle) hsame
    | locking rest hlock hrest => exact .locking rest hlock hrest
    | releasing rest hlock hrest => exact .releasing rest hlock hrest
  | @call call s' hops hbegin =>
    have hset := hs.settled hr.locked fun hgate => by
      have hidle := congrArg Held.gate (hr.locked.idle hops)
      simp [held, hgate] at hidle
    have hcalm : (s'.ops .ui).all (!·.revises) := by
      rw [begin_ops hbegin, Function.update_self]
      cases call <;> rfl
    rcases begin_eq_some hbegin with ⟨-, -, rfl⟩ | ⟨-, rfl⟩
    · exact .calm hcalm (hempty _ _)
    · exact .calm hcalm hset
  | @next t env op rest pushed s₁ hops hexec =>
    by_cases ht : t = .ui
    · subst ht
      exact hs.next_ui hr hops hexec
    · have hother : s₁.Phase := hs.other hr hops ht hexec
      exact hother.congr (setOps_of_ne s₁ (Ne.symm ht) _) rfl rfl rfl
  | @panic t env op rest s₁ hops hexec =>
    have ht := panic_ne_ui hr hops hexec
    have hother : s₁.Phase := hs.other hr hops ht hexec
    exact hother.congr (panicked_of_ne s₁ (Ne.symm ht)) rfl rfl rfl

/-- No packet is held once its delay is switched off: between the applies, and so after each of
them, a queued packet that the rules do not delay is due, or an earlier one of its flow that they
do delay holds it up. -/
theorem not_held_undelayed {s : State} (hr : s.Reachable) :
    (s.gate ≠ some .ui → s.queue.Settled s.now s.policy.delays) ∧
      ∀ command labels called returned, s.step (.call (.apply command)) = some called →
        Runs called labels returned → returned.ops .ui = [] →
        returned.queue.Settled returned.now returned.policy.delays := by
  refine ⟨hr.phase.settled hr.locked, ?_⟩
  intro command labels called returned hcall hrun hidle
  have hreturned : returned.Reachable := (hr.next hcall).run hrun
  refine hreturned.phase.settled hreturned.locked fun hgate => ?_
  have hheld := congrArg Held.gate (hreturned.locked.idle hidle)
  simp [held, hgate] at hheld

/-- A packet that a rule holds back is due once the rule is gone. -/
theorem not_held_undelayed_clearRules : ∃ s called returned : State,
    follow {} ([.call .startWithIo] ++ List.replicate 2 (.run .ui {}) ++ delayedPacketRun) =
      some s ∧ s.queue.nextDeadline = some 50000000 ∧
    s.step (.call (.apply .clearRules)) = some called ∧
    follow called (List.replicate 13 (.run .ui {})) = some returned ∧
    returned.queue.nextDeadline = some 0 ∧
    returned.queue.Settled returned.now returned.policy.delays := by
  have hrun : ∃ s, follow {} ([.call .startWithIo] ++ List.replicate 2 (.run .ui {})
      ++ delayedPacketRun) = some s ∧ s.queue.nextDeadline = some 50000000 ∧
      ∃ called, s.step (.call (.apply .clearRules)) = some called ∧
      ∃ returned, follow called (List.replicate 13 (.run .ui {})) = some returned ∧
        returned.ops .ui = [] ∧ returned.queue.nextDeadline = some 0 :=
    ⟨_, rfl, rfl, _, rfl, _, rfl, rfl, rfl⟩
  obtain ⟨s, hs, hheld, called, hcall, returned, hreturned, hidle, hdue⟩ := hrun
  exact ⟨s, called, returned, hs, hheld, hcall, hreturned, hdue,
    (not_held_undelayed (.of_follow hs)).2 .clearRules _ called returned hcall
      (.of_follow hreturned) hidle⟩

end State

end FlowBrake.Windows
