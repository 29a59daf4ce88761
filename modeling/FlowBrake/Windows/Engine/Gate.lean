import FlowBrake.Windows.Engine.Queue

/-! The send gate makes the final block checks hold at the moment a packet is sent. -/
namespace FlowBrake.Windows
open FlowBrake.Core Transition

/-- The operations that rely on a check made since the gate was taken. -/
def Op.gated : Op → Bool
  | .check (.sendProcessBlocks _) | .ioSend _ => true
  | _ => false

namespace State

/-- The checks that an operation relies on. -/
def Passed (s : State) : Op → Prop
  | .check (.sendProcessBlocks p) => s.policy.globalBlocksPacket p.isLoopback = false
  | .ioSend p => s.policy.globalBlocksPacket p.isLoopback = false ∧
      s.policy.processBlocksPacket p.pid p.isLoopback = false
  | _ => True

theorem passed_of_not_gated {s : State} {op : Op} (h : op.gated = false) : s.Passed op := by
  cases op
  case check c => cases c <;> trivial
  case ioSend p => cases h
  all_goals trivial

theorem passed_congr {s s' : State} (h : s'.policy = s.policy) (op : Op) :
    s'.Passed op ↔ s.Passed op := by
  cases op
  case check c => cases c <;> simp [Passed, h]
  all_goals simp [Passed, h]

/-- Only the first of a thread's operations may rely on a check, and that check passed. -/
def GatedList (s : State) : List Op → Prop
  | [] => True
  | op :: rest => s.Passed op ∧ rest.all (!·.gated)

theorem GatedList.of_all {s : State} {ops : List Op} (h : ops.all (!·.gated)) :
    s.GatedList ops := by
  cases ops with
  | nil => trivial
  | cons op rest =>
    simp only [List.all_cons, Bool.and_eq_true, Bool.not_eq_true'] at h
    exact ⟨passed_of_not_gated h.1, h.2⟩

/-- The rules change only at an edit. -/
theorem exec_policy {s : State} {t : Tid} {env : Env} {op : Op} {o : Outcome}
    (h : s.exec t env op = some o) :
    o.state.policy = s.policy ∨ ∃ edit, op = .edit edit ∧ o = .next { s with
      policy := edit.apply s.policy } [] := by
  cases op
  case edit edit =>
    cases h
    exact .inr ⟨edit, rfl, rfl⟩
  all_goals
    left
    simp only [exec, dispatch, senderLoop, ioSend, tryQueue] at h
    repeat' split at h
    all_goals cases h <;> rfl

theorem check_gated (s : State) (c : Check) :
    (s.check c).all (!·.gated) ∨ ∃ op, s.check c = [op] ∧
      (Passed s (.check c) → s.Passed op) := by
  cases c <;> simp only [check]
  case sendGlobalBlocks p =>
    split
    · exact .inl rfl
    · next h => exact .inr ⟨_, rfl, fun _ => by simpa [Passed] using h⟩
  case sendProcessBlocks p =>
    split
    · exact .inl rfl
    · next h => exact .inr ⟨_, rfl, fun hg => ⟨hg, by simpa using h⟩⟩
  case apply command => exact .inl (by simp [Op.gated])
  all_goals repeat' split
  all_goals exact .inl rfl

theorem exec_gated {s s' : State} {t : Tid} {env : Env} {op : Op} {pushed : List Op}
    (hop : s.Passed op) (h : s.exec t env op = some (.next s' pushed)) :
    pushed.all (!·.gated) ∨ ∃ op', pushed = [op'] ∧ s'.Passed op' := by
  cases op
  case check c =>
    cases h
    rcases check_gated s c with hall | ⟨op', he, hp⟩
    · exact .inl hall
    · exact .inr ⟨op', he, hp hop⟩
  case ioSend p =>
    left
    simp only [exec, ioSend] at h
    split at h <;> cases h
    · obtain ⟨tallies, ht⟩ := recordBytes_eq_map p.pid p.direction p.chargeLen
      simp [ht, Op.gated]
    · split <;> rfl
  all_goals
    left
    simp only [exec, dispatch, senderLoop, tryQueue] at h
    repeat' split at h
    all_goals cases h <;> simp [Op.gated, recordDrop, send, stop, drainQueue, discardPending, fail]

theorem gate_of_held {s : State} {t : Tid} (h : s.held t = ⟨true, false⟩) : s.gate = some t := by
  simpa [held] using congrArg Held.gate h

theorem gate_of_edit {s : State} {t : Tid} {edit : Edit} {held' : Held}
    (h : (Op.edit edit).after (s.held t) = some held') : s.gate = some t := by
  simp only [Op.after, Option.ite_none_right_eq_some] at h
  exact gate_of_held h.1

theorem gate_of_gated {s : State} {t : Tid} {op : Op} {held' : Held} (hop : op.gated)
    (h : op.after (s.held t) = some held') : s.gate = some t := by
  cases op
  case check c =>
    cases c
    case sendProcessBlocks p =>
      simp only [Op.after, Option.ite_none_right_eq_some] at h
      exact gate_of_held h.1
    all_goals cases hop
  case ioSend p =>
    simp only [Op.after, Option.ite_none_right_eq_some] at h
    exact gate_of_held h.1
  all_goals cases hop

theorem Reachable.gated {s : State} (h : s.Reachable) (t : Tid) : s.GatedList (s.ops t) := by
  refine h.invariant (I := fun s => ∀ t, s.GatedList (s.ops t)) (fun _ => trivial) ?_ t
  intro s label s' hr hs hstep t'
  -- A thread at a gated operation holds the gate, so that no other one edits the rules.
  have hother {t : Tid} {env : Env} {op : Op} {rest : List Op} {o : Outcome}
      (hops : s.ops t = op :: rest) (hexec : s.exec t env op = some o) (ht : t' ≠ t) :
      o.state.GatedList (o.state.ops t') := by
    rcases exec_ops hexec t' with he | ⟨-, -, he⟩ | ⟨-, -, he⟩ <;> rw [he]
    · have hl := hs t'
      cases hops' : s.ops t' with
      | nil => trivial
      | cons op' rest' =>
        rw [hops'] at hl
        refine ⟨?_, hl.2⟩
        cases hg : op'.gated with
        | false => exact passed_of_not_gated hg
        | true =>
          rcases exec_policy hexec with hp | ⟨edit, rfl, -⟩
          · exact (passed_congr hp op').mpr hl.1
          · obtain ⟨_, hafter, -⟩ := hr.locked.after_head hops
            obtain ⟨_, hafter', -⟩ := hr.locked.after_head hops'
            have hgate := gate_of_edit hafter
            have hgate' := gate_of_gated hg hafter'
            exact absurd (Option.some_injective _ (hgate'.symm.trans hgate)) ht
    · exact .of_all rfl
    · exact .of_all rfl
  cases hstep with
  | tick elapsed => exact hs t'
  | @call call s' hops hbegin =>
    rw [begin_ops hbegin]
    by_cases ht : t' = .ui
    · subst ht
      rw [Function.update_self]
      exact .of_all (by cases call <;> rfl)
    · rw [Function.update_of_ne ht]
      rcases begin_eq_some hbegin with ⟨-, -, rfl⟩ | ⟨-, rfl⟩ <;> exact hs t'
  | @next t env op rest pushed s₁ hops hexec =>
    by_cases ht : t' = t
    · subst ht
      have hl := hops ▸ hs t'
      rw [setOps_self]
      rcases exec_gated hl.1 hexec with hall | ⟨op', rfl, hp⟩
      · exact .of_all (by rw [List.all_append, hall, hl.2]; rfl)
      · exact ⟨hp, hl.2⟩
    · rw [setOps_of_ne _ ht]
      exact hother hops hexec ht
  | @panic t env op rest s₁ hops hexec =>
    by_cases ht : t' = t
    · subst ht
      rw [panicked_self]
      refine .of_all ?_
      unfold unwind
      split <;> split <;> cases t' <;> rfl
    · exact (panicked_of_ne s₁ ht).symm ▸ hother hops hexec ht

end State

/-- What a block covers: all traffic, or one process. -/
inductive Target
  | all
  | process (pid : UInt32)

namespace Target

def blockedBy (policy : Policy) : Target → Bool
  | .all => policy.globalRule.blockAll
  | .process pid => policy.rules[pid]?.any (·.blockAll)

def covers (p : Outgoing) : Target → Prop
  | .all => p.isLoopback = false
  | .process pid => p.isLoopback = false ∧ p.pid = some pid

end Target

/-- The commands that block the target. -/
def EngineCommand.blocks : EngineCommand → Target → Prop
  | .setGlobalRule rule, .all => rule.blockAll
  | .updateRule pid rule, .process pid' => pid = pid' ∧ rule.blockAll
  | .updateRuleForPids pids rule, .process pid' => pid' ∈ pids ∧ rule.blockAll
  | _, _ => False

/-- The commands that lift a block of the target. -/
def EngineCommand.lifts : EngineCommand → Target → Prop
  | .setGlobalRule rule, .all => rule.blockAll = false
  | .updateRule pid rule, .process pid' => pid = pid' ∧ rule.blockAll = false
  | .updateRuleForPids pids rule, .process pid' => pid' ∈ pids ∧ rule.blockAll = false
  | .clearRules, _ => True
  | _, _ => False

def Edit.blocks : Edit → Target → Prop
  | .setGlobalRule rule, .all => rule.blockAll
  | .updateRule pid rule, .process pid' => pid = pid' ∧ rule.blockAll
  | _, _ => False

def Edit.lifts : Edit → Target → Prop
  | .setGlobalRule rule, .all => rule.blockAll = false
  | .updateRule pid rule, .process pid' => pid = pid' ∧ rule.blockAll = false
  | .clearRules, .process _ => True
  | .clearGlobalRule, .all => True
  | _, _ => False

theorem EngineCommand.blocks_edits {command : EngineCommand} {target : Target}
    (h : command.blocks target) : ∃ edit ∈ command.edits, edit.blocks target := by
  cases command <;> cases target <;> simp_all [blocks, edits, Edit.blocks]

theorem EngineCommand.lifts_edits {command : EngineCommand} {target : Target} {edit : Edit}
    (hm : edit ∈ command.edits) (h : edit.lifts target) : command.lifts target := by
  cases command with
  | updateRule pid rule | setGlobalRule rule =>
    cases List.mem_singleton.mp hm
    cases target <;> exact h
  | updateRuleForPids pids rule =>
    obtain ⟨pid, hpid, rfl⟩ := List.mem_map.mp hm
    cases target with
    | all => exact h
    | process pid' => exact ⟨h.1 ▸ hpid, h.2⟩
  | clearRules => trivial

theorem EngineCommand.not_lifts_of_blocks {command : EngineCommand} {target : Target}
    (h : command.blocks target) : ¬ command.lifts target := by
  cases command <;> cases target <;> simp_all [blocks, lifts]

theorem Edit.blockedBy_of_blocks {edit : Edit} {target : Target} (h : edit.blocks target)
    (policy : Policy) : target.blockedBy (edit.apply policy) := by
  cases edit with
  | updateRule pid rule =>
    cases target with
    | all => exact h.elim
    | process pid' =>
      obtain ⟨rfl, hb⟩ := h
      have hany : rule.hasAnyRule := by simp [ProcessRule.hasAnyRule, hb]
      simp [Target.blockedBy, apply, Policy.updateRule, hany, hb]
  | setGlobalRule rule =>
    cases target with
    | all => exact h
    | process pid' => exact h.elim
  | bumpRevision | clearRules | clearGlobalRule => cases target <;> exact h.elim

theorem Edit.blockedBy_of_not_lifts {edit : Edit} {target : Target} (h : ¬ edit.lifts target)
    {policy : Policy} (hb : target.blockedBy policy) : target.blockedBy (edit.apply policy) := by
  cases edit with
  | updateRule pid rule =>
    cases target with
    | all => exact hb
    | process pid' =>
      by_cases hp : pid = pid'
      · have hr : rule.blockAll := by simpa [lifts, hp] using h
        have hbl : (Edit.updateRule pid rule).blocks (.process pid') := ⟨hp, hr⟩
        exact blockedBy_of_blocks hbl policy
      · simp only [Target.blockedBy, apply, Policy.updateRule] at hb ⊢
        split
        · simpa [Std.ExtTreeMap.getElem?_insert, hp] using hb
        · simpa [Std.ExtTreeMap.getElem?_erase, hp] using hb
  | setGlobalRule rule =>
    cases target with
    | all => simpa [lifts, Target.blockedBy, apply, Policy.setGlobalRule] using h
    | process pid' => exact hb
  | bumpRevision => cases target <;> exact hb
  | clearRules =>
    cases target with
    | all => exact hb
    | process pid' => exact absurd trivial h
  | clearGlobalRule =>
    cases target with
    | all => exact absurd trivial h
    | process pid' => exact hb

/-- The operations that will block the target. -/
def Op.blocks (target : Target) : Op → Prop
  | .edit e => e.blocks target
  | .check (.apply command) => command.blocks target
  | _ => False

/-- The operations that will lift a block of the target. -/
def Op.lifts (target : Target) : Op → Prop
  | .edit e => e.lifts target
  | .check (.apply command) => command.lifts target
  | _ => False

def UiCall.lifts (target : Target) : UiCall → Prop
  | .apply command => command.lifts target
  | _ => False

namespace State

variable {target : Target}

theorem check_lifts {s : State} {c : Check} (hop : ¬ (Op.check c).lifts target) :
    ∀ op ∈ s.check c, ¬ op.lifts target := by
  cases c <;> simp only [check]
  case apply command =>
    intro op hm hl
    rcases List.mem_append.mp hm with hm | hm
    · obtain ⟨edit, he, rfl⟩ := List.mem_map.mp hm
      exact hop (EngineCommand.lifts_edits he hl)
    · simp only [List.mem_cons, List.not_mem_nil, or_false] at hm
      rcases hm with rfl | rfl | rfl <;> exact hl
  all_goals repeat' split
  all_goals simp [Op.lifts, recordDrop, fail, drainQueue]

theorem exec_lifts {s s' : State} {t : Tid} {env : Env} {op : Op} {pushed : List Op}
    (hop : ¬ op.lifts target) (h : s.exec t env op = some (.next s' pushed)) :
    ∀ op ∈ pushed, ¬ op.lifts target := by
  cases op
  case check c =>
    cases h
    exact check_lifts hop
  case ioSend p =>
    simp only [exec, ioSend] at h
    split at h <;> cases h
    · obtain ⟨tallies, ht⟩ := recordBytes_eq_map p.pid p.direction p.chargeLen
      simp [ht, Op.lifts]
    · split <;> simp [Op.lifts, recordDrop, fail, drainQueue]
  all_goals
    simp only [exec, dispatch, senderLoop, tryQueue] at h
    repeat' split at h
    all_goals
      cases h <;> simp [Op.lifts, recordDrop, send, stop, drainQueue, discardPending, fail]

/-- The owner has no command left that lifts the block. -/
def NoLift (target : Target) (s : State) : Prop := ∀ op ∈ s.ops .ui, ¬ op.lifts target

theorem NoLift.step {s s' : State} {label : Label} (h : NoLift target s)
    (hl : ∀ call, label = .call call → ¬ call.lifts target) (hstep : s.Step label s') :
    NoLift target s' := by
  unfold NoLift
  cases hstep with
  | tick elapsed => exact h
  | @call call s' hops hbegin =>
    rw [begin_ops hbegin, Function.update_self]
    have := hl call rfl
    cases call <;> simp_all [UiCall.program, stop, apply, Op.lifts, UiCall.lifts]
  | @next t env op rest pushed s₁ hops hexec =>
    by_cases ht : t = .ui
    · subst ht
      rw [setOps_self]
      intro op' hm
      rcases List.mem_append.mp hm with hm | hm
      · exact exec_lifts (h op (by simp [hops])) hexec op' hm
      · exact h op' (by simp [hops, hm])
    · rw [setOps_of_ne _ (Ne.symm ht)]
      exact (exec_ui_ops hexec : s₁.ops .ui = s.ops .ui) ▸ h
  | @panic t env op rest s₁ hops hexec =>
    by_cases ht : t = .ui
    · subst ht
      intro op' hm
      rw [panicked_self, afterPanic, List.append_nil] at hm
      rcases mem_unwind hm with rfl | rfl <;> exact id
    · rw [panicked_of_ne _ (Ne.symm ht)]
      exact (exec_ui_ops hexec : s₁.ops .ui = s.ops .ui) ▸ h

/-- The block is in effect or about to be. -/
def WillBlock (target : Target) (s : State) : Prop :=
  target.blockedBy s.policy ∨ ∃ op ∈ s.ops .ui, op.blocks target

theorem exec_blockedBy {s : State} (hr : s.Reachable) (hn : NoLift target s) {t : Tid} {env : Env}
    {op : Op} {rest : List Op} {o : Outcome} (hops : s.ops t = op :: rest)
    (h : s.exec t env op = some o) (hb : target.blockedBy s.policy) :
    target.blockedBy o.state.policy := by
  rcases exec_policy h with hp | ⟨edit, rfl, rfl⟩
  · exact hp ▸ hb
  · have hall := (hr.shape t).1
    simp only [hops, List.all_cons, Bool.and_eq_true] at hall
    have ht : t = .ui := by simpa [Op.allowed] using hall.1
    subst ht
    exact Edit.blockedBy_of_not_lifts (hn (.edit edit) (by simp [hops])) hb

theorem blockedBy_step {s s' : State} {label : Label} (hr : s.Reachable) (hn : NoLift target s)
    (hb : target.blockedBy s.policy) (hstep : s.Step label s') : target.blockedBy s'.policy := by
  cases hstep with
  | tick elapsed => exact hb
  | call hops hbegin =>
    rcases begin_eq_some hbegin with ⟨-, -, rfl⟩ | ⟨-, rfl⟩ <;> exact hb
  | next hops hexec => exact (exec_blockedBy hr hn hops hexec hb :)
  | panic hops hexec => exact (exec_blockedBy hr hn hops hexec hb :)

theorem exec_blocks {s s' : State} {env : Env} {op : Op} {pushed : List Op}
    (hop : op.blocks target) (h : s.exec .ui env op = some (.next s' pushed)) :
    target.blockedBy s'.policy ∨ ∃ op' ∈ pushed, op'.blocks target := by
  cases op
  case edit edit =>
    cases h
    exact .inl (Edit.blockedBy_of_blocks hop s.policy)
  case check c =>
    cases h
    cases c
    case apply command =>
      obtain ⟨edit, hm, hb⟩ := EngineCommand.blocks_edits hop
      exact .inr ⟨.edit edit, List.mem_append_left _ (List.mem_map_of_mem hm), hb⟩
    all_goals exact hop.elim
  all_goals exact hop.elim

theorem WillBlock.step {s s' : State} {label : Label} (hr : s.Reachable) (hn : NoLift target s)
    (h : WillBlock target s) (hstep : s.Step label s') : WillBlock target s' := by
  rcases h with hb | ⟨op', hm, hblocks⟩
  · exact .inl (blockedBy_step hr hn hb hstep)
  have hother {t : Tid} {env : Env} {op : Op} {o : Outcome}
      (hexec : s.exec t env op = some o) : op' ∈ o.state.ops .ui :=
    (exec_ui_ops hexec).symm ▸ hm
  cases hstep with
  | tick elapsed => exact .inr ⟨op', hm, hblocks⟩
  | call hops hbegin =>
    rw [hops] at hm
    cases hm
  | @next t env op rest pushed s₁ hops hexec =>
    by_cases ht : t = .ui
    · subst ht
      rw [hops] at hm
      rcases List.mem_cons.mp hm with rfl | hm
      · rcases exec_blocks hblocks hexec with hb | ⟨op'', hm, hblocks⟩
        · exact .inl hb
        · exact .inr ⟨op'', by simp [hm], hblocks⟩
      · exact .inr ⟨op', by simp [hm], hblocks⟩
    · refine .inr ⟨op', ?_, hblocks⟩
      rw [setOps_of_ne _ (Ne.symm ht)]
      exact hother hexec
  | @panic t env op rest s₁ hops hexec =>
    have ht := panic_ne_ui hr hops hexec
    refine .inr ⟨op', ?_, hblocks⟩
    rw [panicked_of_ne _ (Ne.symm ht)]
    exact hother hexec

theorem exec_sent {s : State} {t : Tid} {env : Env} {op : Op} {o : Outcome}
    (h : s.exec t env op = some o) :
    o.state.sent = s.sent ∨ ∃ p, op = .ioSend p ∧ o.state.sent = s.sent ++ [p] := by
  cases op
  case ioSend p =>
    simp only [exec, ioSend] at h
    split at h <;> cases h <;> exact .inr ⟨p, rfl, rfl⟩
  all_goals
    left
    simp only [exec, dispatch, senderLoop, tryQueue] at h
    repeat' split at h
    all_goals cases h <;> rfl

/-- What a step sends, it sends from the operation `ioSend`. -/
theorem step_sent {s s' : State} {label : Label} (hstep : s.Step label s') :
    s'.sent = s.sent ∨
      ∃ t p rest, s.ops t = .ioSend p :: rest ∧ s'.sent = s.sent ++ [p] := by
  cases hstep with
  | tick elapsed => exact .inl rfl
  | call hops hbegin =>
    rcases begin_eq_some hbegin with ⟨-, -, rfl⟩ | ⟨-, rfl⟩ <;> exact .inl rfl
  | next hops hexec =>
    rcases exec_sent hexec with he | ⟨p, rfl, he⟩
    · exact .inl he
    · exact .inr ⟨_, p, _, hops, he⟩
  | panic hops hexec =>
    rcases exec_sent hexec with he | ⟨p, rfl, he⟩
    · exact .inl he
    · exact .inr ⟨_, p, _, hops, he⟩

/-- The packet at `io.send` is not blocked by the rules as they are. -/
theorem ioSend_not_blocked {s : State} (hr : s.Reachable) {t : Tid} {p : Outgoing}
    {rest : List Op} (hops : s.ops t = .ioSend p :: rest) (hl : p.isLoopback = false) :
    s.policy.globalRule.blockAll = false ∧
      ∀ pid, p.pid = some pid → (s.policy.rules[pid]?.any (·.blockAll)) = false := by
  obtain ⟨⟨hg, hp⟩, -⟩ := hops ▸ hr.gated t
  refine ⟨by simpa [Policy.globalBlocksPacket, hl] using hg, fun pid hpid => ?_⟩
  simpa [Policy.processBlocksPacket, hl, hpid] using hp

theorem not_covers {s : State} (hr : s.Reachable) {t : Tid} {p : Outgoing} {rest : List Op}
    (hops : s.ops t = .ioSend p :: rest) (hb : target.blockedBy s.policy) :
    ¬ target.covers p := by
  intro hc
  cases target with
  | all => cases hb.symm.trans (ioSend_not_blocked hr hops hc).1
  | process pid =>
    have := (ioSend_not_blocked hr hops hc.1).2 pid hc.2
    cases hb.symm.trans this

/-- The final block gate: at `io.send` no rule in effect blocks the packet, and after a blocking
command has returned nothing it covers is sent until a command lifts the block. -/
theorem final_block_gate {s : State} (hr : s.Reachable) :
    (∀ t p rest, s.ops t = .ioSend p :: rest → p.isLoopback = false →
      s.policy.globalRule.blockAll = false ∧
        ∀ pid, p.pid = some pid → (s.policy.rules[pid]?.any (·.blockAll)) = false) ∧
    ∀ target command labels labels' called returned s',
      EngineCommand.blocks command target →
      s.step (.call (.apply command)) = some called →
      Runs called labels returned → returned.ops .ui = [] → Runs returned labels' s' →
      (∀ call, .call call ∈ labels ++ labels' → ¬ call.lifts target) →
      ∃ new, s'.sent = returned.sent ++ new ∧ ∀ p ∈ new, ¬ target.covers p := by
  refine ⟨fun t p rest hops hl => ioSend_not_blocked hr hops hl, ?_⟩
  intro target command labels labels' called returned s' hblocks hcall hrun hidle hrun' hlift
  have hcalled : called.Reachable := hr.next hcall
  have hprogram : called.ops .ui = apply command := by
    cases Step.of_step hcall with
    | call hops hbegin => rw [begin_ops hbegin, Function.update_self]; rfl
  have hnone : NoLift target called := by
    have := EngineCommand.not_lifts_of_blocks hblocks
    simp [NoLift, hprogram, apply, Op.lifts, this]
  have hwill : WillBlock target called :=
    .inr ⟨.check (.apply command), by simp [hprogram, apply], hblocks⟩
  obtain ⟨hreturned, hn, hw⟩ := hrun.preserves_of_labels
    (I := fun s => s.Reachable ∧ NoLift target s ∧ WillBlock target s)
    (P := fun label => ∀ call, label = .call call → ¬ call.lifts target)
    (fun s label s' h hl hstep => ⟨h.1.next hstep, h.2.1.step hl (.of_step hstep),
      h.2.2.step h.1 h.2.1 (.of_step hstep)⟩)
    (fun label hm call he => hlift call (he ▸ List.mem_append_left _ hm))
    ⟨hcalled, hnone, hwill⟩
  have hb : target.blockedBy returned.policy := hw.resolve_right (by simp [hidle])
  obtain ⟨-, -, -, hnew⟩ := hrun'.preserves_of_labels
    (I := fun s => s.Reachable ∧ NoLift target s ∧ target.blockedBy s.policy ∧
      ∃ new, s.sent = returned.sent ++ new ∧ ∀ p ∈ new, ¬ target.covers p)
    (P := fun label => ∀ call, label = .call call → ¬ call.lifts target)
    (fun s label s' h hl hstep => by
      obtain ⟨hr, hn, hb, new, hsent, hnew⟩ := h
      have hstep' := Step.of_step hstep
      refine ⟨hr.next hstep, hn.step hl hstep', blockedBy_step hr hn hb hstep', ?_⟩
      rcases step_sent hstep' with he | ⟨t, p, rest, hops, he⟩
      · exact ⟨new, he.trans hsent, hnew⟩
      · refine ⟨new ++ [p], by rw [he, hsent, List.append_assoc], fun q hq => ?_⟩
        rcases List.mem_append.mp hq with hq | hq
        · exact hnew q hq
        · exact List.mem_singleton.mp hq ▸ not_covers hr hops hb)
    (fun label hm call he => hlift call (he ▸ List.mem_append_right _ hm))
    ⟨hreturned, hn, hb, [], by simp, by simp⟩
  exact hnew

/-- A UDP packet that is sent from port 4660. -/
def udpPacket : List UInt8 :=
  [0x45, 0, 0, 28, 0, 0, 0, 0, 64, 17, 0, 0, 127, 0, 0, 1, 192, 0, 2, 1, 0x12, 0x34, 0, 53, 0, 8,
    0, 0]

/-- Two packets are delayed, and the sender has taken the first one and waits for the send gate. -/
def heldPacketsRun : List Label :=
  let arrives : Env := { recv := .ok (udpPacket, ⟨0x00020000⟩) }
  [.call .startWithIo] ++ List.replicate 2 (.run .ui {})
    ++ [.call (.apply (.setGlobalRule { uploadDelayMs := some 50 }))]
    ++ List.replicate 11 (.run .ui {}) ++ List.replicate 27 (.run .receiver arrives)
    ++ [.tick 50000000] ++ List.replicate 3 (.run .sender {})
    ++ List.replicate 24 (.run .receiver arrives)

/-- While the owner applies a block, a third packet arrives. -/
def blockingRun : List Label :=
  let arrives : Env := { recv := .ok (udpPacket, ⟨0x00020000⟩) }
  List.replicate 6 (.run .ui {}) ++ List.replicate 4 (.run .receiver arrives)
    ++ List.replicate 5 (.run .ui {})

/-- Under the block the three packets are handled, and a loopback packet arrives. -/
def blockedRun : List Label :=
  let loopback : Env := { recv := .ok (udpPacket, ⟨0x00060000⟩) }
  List.replicate 26 (.run .sender {}) ++ List.replicate 29 (.run .receiver loopback)

theorem final_block_gate_heldPacketsRun : ∃ held called returned s' : State,
    follow {} heldPacketsRun = some held ∧ held.inFlight.length = 1 ∧ held.queue.packetCount = 2 ∧
    held.step (.call (.apply (.setGlobalRule { blockAll := true }))) = some called ∧
    Runs called blockingRun returned ∧ returned.ops .ui = [] ∧ Runs returned blockedRun s' ∧
    s'.counters.packetsBlocked = 3 ∧ s'.sent.length = returned.sent.length + 1 ∧
    ∃ new, s'.sent = returned.sent ++ new ∧ ∀ p ∈ new, ¬ Target.all.covers p := by
  have hrun : ∃ held, follow {} heldPacketsRun = some held ∧ held.inFlight.length = 1 ∧
      held.queue.packetCount = 2 ∧
      ∃ called, held.step (.call (.apply (.setGlobalRule { blockAll := true }))) = some called ∧
      ∃ returned, called.follow blockingRun = some returned ∧ returned.ops .ui = [] ∧
      ∃ s', returned.follow blockedRun = some s' ∧ s'.counters.packetsBlocked = 3 ∧
        s'.sent.length = returned.sent.length + 1 :=
    ⟨_, rfl, rfl, rfl, _, rfl, _, rfl, rfl, _, rfl, rfl, rfl⟩
  obtain ⟨held, hheld, hflight, hcount, called, hcall, returned, hblocking, hidle, s', hblocked,
    hdropped, hsent⟩ := hrun
  refine ⟨held, called, returned, s', hheld, hflight, hcount, hcall, .of_follow hblocking, hidle,
    .of_follow hblocked, hdropped, hsent, ?_⟩
  exact (final_block_gate (.of_follow hheld)).2 .all (.setGlobalRule { blockAll := true }) _ _
    called returned s' rfl hcall (.of_follow hblocking) hidle (.of_follow hblocked)
    (by simp [blockingRun, blockedRun])

end State

end FlowBrake.Windows
