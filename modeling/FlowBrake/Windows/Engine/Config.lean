import FlowBrake.Windows.Engine.Halted
import FlowBrake.Windows.Engine.Owner

/-! The engine's settings, as the calls of its owner make them. -/
namespace FlowBrake.Windows
open FlowBrake.Core Transition

/-- What the engine does with packets hangs on these, and on nothing else that the owner sets. -/
structure EngineConfig where
  policy : Policy := {}
  ipv6Enabled : Bool := true

inductive Setting
  | edit (edit : Edit)
  | ipv6Enabled (enabled : Bool)

def Setting.apply (config : EngineConfig) : Setting → EngineConfig
  | .edit e => { config with policy := e.apply config.policy }
  | .ipv6Enabled enabled => { config with ipv6Enabled := enabled }

theorem Setting.foldl_edits (edits : List Edit) (config : EngineConfig) :
    (edits.map Setting.edit).foldl Setting.apply config =
      { config with policy := edits.foldl Edit.apply config.policy } := by
  induction edits generalizing config with
  | nil => rfl
  | cons edit edits ih => exact ih _

def EngineCommand.settings (command : EngineCommand) : List Setting := command.edits.map .edit

def UiCall.settings : UiCall → List Setting
  | .apply command => command.settings
  | .setIpv6Enabled enabled => [.ipv6Enabled enabled]
  | _ => []

def OwnerLabel.settings : OwnerLabel → List Setting
  | .call c => c.settings
  | _ => []

/-- The settings of calls that have yet to be made. -/
def unmade (labels : List OwnerLabel) : List Setting := labels.flatMap OwnerLabel.settings

@[simp] theorem unmade_append (labels labels' : List OwnerLabel) :
    unmade (labels ++ labels') = unmade labels ++ unmade labels' :=
  List.flatMap_append

/-- The steps of the threads, and those of a `start` in progress. -/
def OwnerLabel.internal : OwnerLabel → Bool
  | .call _ | .start => false
  | _ => true

/-- The settings that an operation has yet to make. -/
def Op.settings : Op → List Setting
  | .edit e => [.edit e]
  | .check (.apply command) => command.settings
  | .note (.ipv6Enabled enabled) => [.ipv6Enabled enabled]
  | _ => []

def unset (ops : List Op) : List Setting := ops.flatMap Op.settings

section Lists
variable (op : Op) (ops ops' : List Op)

@[simp] theorem unset_nil : unset [] = [] := rfl

@[simp] theorem unset_cons : unset (op :: ops) = op.settings ++ unset ops := rfl

@[simp] theorem unset_append : unset (ops ++ ops') = unset ops ++ unset ops' :=
  List.flatMap_append

@[simp] theorem unset_tallies (tallies : List Tally) : unset (tallies.map .tally) = [] := by
  simp [unset, Op.settings]

@[simp] theorem unset_edits (edits : List Edit) : unset (edits.map .edit) = edits.map .edit := by
  induction edits with
  | nil => rfl
  | cons edit edits ih => exact congrArg _ ih

end Lists

namespace State

def config (s : State) : EngineConfig where
  policy := s.policy
  ipv6Enabled := s.status.ipv6Enabled

/-- The engine's settings once the call in progress has returned. -/
def settledConfig (s : State) : EngineConfig := (unset (s.ops .ui)).foldl Setting.apply s.config

theorem check_settings (s : State) (c : Check) : unset (s.check c) = (Op.check c).settings := by
  cases c <;> simp only [check]
  case apply command => simp [Op.settings, EngineCommand.settings]
  all_goals repeat' split
  all_goals rfl

/-- What an operation does not set itself, it leaves to what it puts in its place. -/
theorem exec_settings {s s' : State} {t : Tid} {env : Env} {op : Op} {pushed : List Op}
    (h : s.exec t env op = some (.next s' pushed)) :
    (s'.config = s.config ∧ unset pushed = op.settings) ∨
      (s'.config = op.settings.foldl Setting.apply s.config ∧ unset pushed = []) := by
  cases op
  case check c =>
    cases h
    exact .inl ⟨rfl, s.check_settings c⟩
  case edit edit =>
    cases h
    exact .inr ⟨rfl, rfl⟩
  case note note =>
    cases h
    cases note <;> exact .inr ⟨rfl, rfl⟩
  case ioSend p =>
    left
    simp only [exec, ioSend] at h
    split at h <;> cases h
    · obtain ⟨tallies, ht⟩ := recordBytes_eq_map p.pid p.direction p.chargeLen
      exact ⟨rfl, by rw [ht, unset_tallies]; rfl⟩
    · split <;> exact ⟨rfl, rfl⟩
  all_goals
    left
    simp only [exec, dispatch, senderLoop, tryQueue] at h
    repeat' split at h
    all_goals cases h <;> exact ⟨rfl, rfl⟩

theorem panic_config {s s' : State} {t : Tid} {env : Env} {op : Op}
    (h : s.exec t env op = some (.panic s')) : s'.config = s.config := by
  cases op
  all_goals
    simp only [exec, dispatch, senderLoop, ioSend, tryQueue] at h
    repeat' split at h
    all_goals cases h <;> rfl

/-- Only the owner sets anything. -/
theorem Reachable.unset_eq {s : State} (h : s.Reachable) {t : Tid} (ht : t ≠ .ui) :
    unset (s.ops t) = [] := by
  refine h.programs (P := fun t ops => t ≠ .ui → unset ops = []) ?_ ?_ ?_ ?_ ?_ ?_ t ht
  · exact fun _ _ => rfl
  · exact fun _ hne => absurd rfl hne
  · exact fun _ => rfl
  · exact fun _ => rfl
  · intro s s' t env op rest pushed hops hexec ht
    have hboth : op.settings ++ unset rest = [] := hops ht
    obtain ⟨hop, hrest⟩ := List.append_eq_nil_iff.mp hboth
    rw [unset_append, hrest, List.append_nil]
    rcases exec_settings hexec with ⟨-, hpushed⟩ | ⟨-, hpushed⟩
    · exact hpushed.trans hop
    · exact hpushed
  · intro s s' t env op rest _ _ ht
    unfold unwind
    split <;> split <;> cases t <;> rfl

/-- The settings change as the calls say, whatever the threads do in between. -/
theorem settledConfig_step {s s' : State} {label : Label} (hr : s.Reachable) (h : s.Step label s') :
    s'.settledConfig = match label with
      | .call call => call.settings.foldl Setting.apply s.settledConfig
      | _ => s.settledConfig := by
  cases h with
  | tick elapsed => rfl
  | @call call s' hops hbegin =>
    have hsettled : s.settledConfig = s.config := by
      unfold settledConfig
      rw [hops]
      rfl
    have hconfig : s'.config = s.config := by
      rcases begin_eq_some hbegin with ⟨-, -, rfl⟩ | ⟨-, rfl⟩ <;> rfl
    have hprogram : unset call.program = call.settings := by
      cases call
      case apply command => exact List.append_nil _
      all_goals rfl
    dsimp only
    rw [hsettled, settledConfig, hconfig, begin_ops hbegin, Function.update_self, hprogram]
  | @next t env op rest pushed s₁ hops hexec =>
    by_cases ht : t = .ui
    · subst ht
      unfold settledConfig
      rw [setOps_self, hops, unset_append, unset_cons, List.foldl_append, List.foldl_append]
      refine congrArg (List.foldl _ · _) ?_
      rcases exec_settings hexec with ⟨hconfig, hpushed⟩ | ⟨hconfig, hpushed⟩
      · rw [hpushed]
        exact congrArg (List.foldl _ · _) hconfig
      · rw [hpushed]
        exact hconfig
    · have hnone : op.settings = [] := by
        have hall := hr.unset_eq ht
        rw [hops] at hall
        exact (List.append_eq_nil_iff.mp hall).1
      have hconfig : s₁.config = s.config := by
        rcases exec_settings hexec with ⟨hconfig, -⟩ | ⟨hconfig, -⟩
        · exact hconfig
        · rw [hconfig, hnone]
          rfl
      unfold settledConfig
      rw [setOps_of_ne _ (Ne.symm ht), show s₁.ops .ui = s.ops .ui from exec_ui_ops hexec]
      exact congrArg (List.foldl _ · _) hconfig
  | @panic t env op rest s₁ hops hexec =>
    have ht := panic_ne_ui hr hops hexec
    unfold settledConfig
    rw [panicked_of_ne _ (Ne.symm ht), show s₁.ops .ui = s.ops .ui from exec_ui_ops hexec]
    have hconfig : s₁.config = s.config := panic_config hexec
    exact congrArg (List.foldl _ · _) hconfig

end State

/-- The operations with which a stop marks the engine as stopping. -/
def Op.stops : Op → Bool
  | .check .stop | .swapStopping | .note .stopping => true
  | _ => false

namespace State

/-- The engine does not run, or will not once the call in progress has returned. -/
def Halting (s : State) : Prop := s.Halted ∨ (s.ops .ui).any Op.stops

theorem Halting.halted {s : State} (h : s.Halting) (hidle : s.ops .ui = []) : s.Halted :=
  h.resolve_right (by rw [hidle]; exact Bool.false_ne_true)

theorem Halting.step {s s' : State} {label : Label} (hs : s.Halting) (hr : s.Reachable)
    (hlabel : label ≠ .call .startWithIo) (h : s.Step label s') : s'.Halting := by
  rcases hs with hs | hs
  · exact .inl (hs.step hr hlabel h)
  cases h with
  | tick elapsed => exact .inr hs
  | call hops =>
    rw [hops] at hs
    cases hs
  | @next t env op rest pushed s₁ hops hexec =>
    by_cases ht : t = .ui
    · subst ht
      rw [hops, List.any_cons, Bool.or_eq_true] at hs
      unfold Halting
      rw [setOps_self, List.any_append]
      rcases hs with hs | hs
      · cases op
        case check c =>
          cases c <;> cases hs
          cases hexec
          right
          simp only [check]
          split <;> rfl
        case swapStopping =>
          cases hexec
          exact .inl (.inl rfl)
        case note note =>
          cases note <;> cases hs
          cases hexec
          exact .inl (.inl rfl)
        all_goals cases hs
      · exact .inr (Bool.or_eq_true .. ▸ .inr hs)
    · refine .inr ?_
      rw [setOps_of_ne _ (Ne.symm ht), show s₁.ops .ui = s.ops .ui from exec_ui_ops hexec]
      exact hs
  | @panic t env op rest s₁ hops hexec =>
    refine .inr ?_
    rw [panicked_of_ne _ (Ne.symm (panic_ne_ui hr hops hexec)),
      show s₁.ops .ui = s.ops .ui from exec_ui_ops hexec]
    exact hs

theorem halting_of_stop {s s' : State} (h : s.Step (.call .stop) s') : s'.Halting := by
  cases h with
  | call hops hbegin =>
    right
    rw [begin_ops hbegin]
    rfl

end State

namespace Owner

theorem settledConfig_step {o o' : Owner} {label : OwnerLabel} (hr : o.Reachable)
    (h : o.Step label o') :
    o'.engine.settledConfig = label.settings.foldl Setting.apply o.engine.settledConfig := by
  have hnext {label : Label} {s : State} (hstep : o.engine.step label = some s) :=
    State.settledConfig_step hr.engine (.of_step hstep)
  cases h with
  | run hstep | tick hstep | call _ _ hstep | start _ _ hstep | opened _ _ hstep
  | synced _ _ hstep => exact hnext hstep
  | running | unopened | unsynced => rfl

/-- Only a start takes the owner out of its idle phase. -/
theorem phase_step {o o' : Owner} {label : OwnerLabel} (hphase : o.phase = .idle)
    (hlabel : label ≠ .start) (h : o.Step label o') : o'.phase = .idle := by
  cases h with
  | run | tick | call => exact hphase
  | running | start => exact absurd rfl hlabel
  | unopened | unsynced | synced => rfl
  | opened hstopping => cases hphase.symm.trans hstopping

theorem halting_step {o o' : Owner} {label : OwnerLabel} (ho : o.engine.Halting)
    (hphase : o.phase = .idle) (hr : o.Reachable) (hlabel : label ≠ .start)
    (h : o.Step label o') : o'.engine.Halting := by
  have hnext {label : Label} {s : State} (hlabel : label ≠ .call .startWithIo)
      (hstep : o.engine.step label = some s) : s.Halting :=
    ho.step hr.engine hlabel (.of_step hstep)
  cases h with
  | run hstep => exact hnext (by simp) hstep
  | tick hstep => exact hnext (by simp) hstep
  | @call call s _ hpublic hstep =>
    refine hnext ?_ hstep
    rintro heq
    cases heq
    cases hpublic
  | running | start => exact absurd rfl hlabel
  | unopened | unsynced => exact ho
  | opened hstopping => cases hphase.symm.trans hstopping
  | synced hsyncing => cases hphase.symm.trans hsyncing

theorem halting_of_stop {o o' : Owner} (h : o.Step (.call .stop) o') : o'.engine.Halting := by
  cases h with
  | call _ _ hstep => exact State.halting_of_stop (.of_step hstep)

end Owner

end FlowBrake.Windows
