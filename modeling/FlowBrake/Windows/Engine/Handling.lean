import FlowBrake.Windows.Engine.Point

/-! While the rules stay as they are, the receiver does with a packet what the pipeline says,
however its turns and those of the other threads interleave. -/
namespace FlowBrake.Windows
open FlowBrake.Core Transition

/-- A step that keeps the rules, and in which the receiver takes no decision. -/
structure Undecided (policy : Policy) (s : State) (label : Label) (s' : State) : Prop where
  step : s.step label = some s'
  policy : s'.policy = policy
  undecided : ∀ env op rest, label = .run .receiver env → s.ops .receiver = op :: rest →
    s.decision env op = none

/-- Such a step in which the receiver sees what `r` says. -/
structure Readings.Handles (r : Readings) (policy : Policy) (s : State) (label : Label)
    (s' : State) : Prop extends Undecided policy s label s' where
  agrees : ∀ env op rest, label = .run .receiver env → s.ops .receiver = op :: rest →
    r.Agrees s env op

namespace State

/-- The other threads leave the receiver's variables alone. -/
theorem exec_locals {s : State} {t : Tid} {env : Env} {op : Op} {o : Outcome}
    (ht : t ≠ .receiver) (hop : op.allowed t) (h : s.exec t env op = some o) :
    o.state.locals = s.locals ∧
      o.state.counters.packetsLossEligible = s.counters.packetsLossEligible := by
  cases op
  case tally tally =>
    cases h
    cases tally
    case dropReason reason => cases reason <;> exact ⟨rfl, rfl⟩
    case recordGlobal direction bytes => cases direction <;> exact ⟨rfl, rfl⟩
    all_goals exact ⟨rfl, rfl⟩
  case dispatch a delayMs =>
    cases h
    exact (dispatch_state s a delayMs).2
  case stage | recvInit => simp [Op.allowed, ht] at hop
  all_goals
    simp only [exec, senderLoop, ioSend, tryQueue] at h
    repeat' split at h
    all_goals cases h <;> exact ⟨rfl, rfl⟩

/-- While the receiver has work to do, a step of another thread leaves it to it. -/
theorem Step.of_ne_receiver {s s' : State} {label : Label} (hstep : s.Step label s')
    (hr : s.Reachable) (hbusy : s.ops .receiver ≠ [])
    (hlabel : ∀ env, label ≠ .run .receiver env) :
    s'.ops .receiver = s.ops .receiver ∧ s'.locals = s.locals ∧
      s'.counters.packetsLossEligible = s.counters.packetsLossEligible := by
  have hexec {t : Tid} {env : Env} {op : Op} {rest : List Op} {o : Outcome}
      (ht : t ≠ .receiver) (hops : s.ops t = op :: rest) (h : s.exec t env op = some o) :
      o.state.ops .receiver = s.ops .receiver ∧ o.state.locals = s.locals ∧
        o.state.counters.packetsLossEligible = s.counters.packetsLossEligible := by
    have hall := hr.allowed hops
    exact ⟨exec_ops_of_ne hr hops hbusy h, exec_locals ht hall h⟩
  cases hstep with
  | tick elapsed => exact ⟨rfl, rfl, rfl⟩
  | call hidle hbegin =>
    rcases begin_eq_some hbegin with ⟨-, hactive, -⟩ | ⟨-, rfl⟩
    · exact absurd (hr.handles.worker (hr.handles.stopped hactive).1) hbusy
    · exact ⟨setOps_of_ne _ (by decide) _, rfl, rfl⟩
  | @next t env op rest pushed s₁ hops h =>
    have ht : t ≠ .receiver := fun ht => hlabel env (ht ▸ rfl)
    rw [setOps_of_ne _ ht.symm]
    exact hexec ht hops h
  | @panic t env op rest s₁ hops h =>
    have ht : t ≠ .receiver := fun ht => hlabel env (ht ▸ rfl)
    rw [panicked_of_ne _ ht.symm]
    exact hexec ht hops h

end State

namespace Readings.Handles
variable {r : Readings} {policy : Policy} {s s' : State} {label : Label} {h : Handling}

/-- A step leaves the handling of the packet as the pipeline has it, and goes back to no moment. -/
theorem next (hs : r.Handles policy s label s') (hr : s.Reachable) (hpolicy : s.policy = policy)
    (hp : Point r policy (s.ops .receiver) s.locals h) :
    ∃ h', Point r policy (s'.ops .receiver) s'.locals h' ∧
      h'.counted s'.counters.packetsLossEligible = h.counted s.counters.packetsLossEligible ∧
      ∀ m ∈ ahead (s'.ops .receiver), m ∈ ahead (s.ops .receiver) ∧
        ∀ env op rest, label = .run .receiver env → s.ops .receiver = op :: rest →
          op.moment ≠ some m := by
  have hbusy : s.ops .receiver ≠ [] := by
    intro hnil
    rw [hnil] at hp
    cases hp
  have hstep := State.Step.of_step hs.step
  by_cases hlabel : ∀ env, label ≠ .run .receiver env
  · obtain ⟨hops, hlocals, heligible⟩ := hstep.of_ne_receiver hr hbusy hlabel
    rw [hops, hlocals, heligible]
    exact ⟨h, hp, rfl, fun m hm => ⟨hm, fun env _ _ hrun => absurd hrun (hlabel env)⟩⟩
  · obtain ⟨env, hlabel⟩ := not_forall_not.mp hlabel
    subst hlabel hpolicy
    cases hstep with
    | @next _ _ op rest pushed s₁ hops hexec =>
      rw [hops] at hp ⊢
      obtain ⟨s₂, pushed', h', heq, hpoint, htotal, hahead⟩ :=
        hp.next (hs.agrees env op rest rfl hops) (hs.undecided env op rest rfl hops) hexec
      cases heq
      rw [State.setOps_self]
      refine ⟨h', hpoint, htotal, fun m hm => ⟨(hahead m hm).1, fun _ _ _ _ hops' => ?_⟩⟩
      cases hops'
      exact (hahead m hm).2
    | @panic _ _ op rest s₁ hops hexec =>
      rw [hops] at hp
      obtain ⟨s₂, pushed', h', heq, -⟩ :=
        hp.next (hs.agrees env op rest rfl hops) (hs.undecided env op rest rfl hops) hexec
      cases heq

/-- So does a run of such steps. -/
theorem run {labels : List Label} (hrun : Run (r.Handles policy) s labels s') (hr : s.Reachable)
    (hpolicy : s.policy = policy) (hp : Point r policy (s.ops .receiver) s.locals h) :
    s'.Reachable ∧ s'.policy = policy ∧
      ∃ h', Point r policy (s'.ops .receiver) s'.locals h' ∧
        h'.counted s'.counters.packetsLossEligible =
          h.counted s.counters.packetsLossEligible := by
  induction hrun generalizing h with
  | nil s => exact ⟨hr, hpolicy, h, hp, rfl⟩
  | cons hs _ ih =>
    obtain ⟨h₁, hp₁, htotal, -⟩ := hs.next hr hpolicy hp
    obtain ⟨hr', hpolicy', h', hp', htotal'⟩ := ih (hr.next hs.step) hs.policy hp₁
    exact ⟨hr', hpolicy', h', hp', htotal'.trans htotal⟩

end Readings.Handles

/-- The moments past in a run are on record in `r`. -/
def Readings.Records (r : Readings) (policy : Policy) (s : State) (labels : List Label)
    (s' : State) : Prop :=
  ∀ r' : Readings, (∀ m ∉ ahead (s'.ops .receiver), r' m = r m) →
    Run (r'.Handles policy) s labels s'

namespace Readings.Records
variable {r : Readings} {policy : Policy} {s₀ s s' : State} {labels labels' : List Label}

/-- What the receiver sees next can be put on record. -/
theorem exists_agrees (r : Readings) (s : State) (label : Label) :
    ∃ r' : Readings, (∀ m ∉ ahead (s.ops .receiver), r' m = r m) ∧
      ∀ env op rest, label = .run .receiver env → s.ops .receiver = op :: rest →
        r'.Agrees s env op := by
  by_cases hlooks : ∃ env op rest m, label = .run .receiver env ∧
      s.ops .receiver = op :: rest ∧ op.moment = some m
  · obtain ⟨env, op, rest, m, hlabel, hops, hm⟩ := hlooks
    refine ⟨Function.update r m (s.view env), fun m' hm' => ?_, fun env' op' rest' h hops' => ?_⟩
    · refine Function.update_of_ne (fun heq => hm' ?_) _ _
      rw [heq, hops]
      exact mem_ahead_of_moment hm rest
    · cases hlabel.symm.trans h
      cases hops.symm.trans hops'
      intro m' hm'
      cases hm.symm.trans hm'
      exact Function.update_self ..
  · refine ⟨r, fun _ _ => rfl, fun env op rest hlabel hops m hm => ?_⟩
    exact absurd ⟨env, op, rest, m, hlabel, hops, hm⟩ hlooks

/-- One step more. -/
theorem next {label : Label} {h : Readings → Handling} (hrec : r.Records policy s₀ labels s)
    (hr : s₀.Reachable) (hpolicy : s₀.policy = policy)
    (hp : ∀ r, Point r policy (s₀.ops .receiver) s₀.locals (h r))
    (hs : Undecided policy s label s') :
    ∃ r' : Readings, r'.Records policy s₀ (labels ++ [label]) s' := by
  obtain ⟨r₁, hsame, hagrees⟩ := exists_agrees r s label
  obtain ⟨hr', hpolicy', h', hp', -⟩ := Handles.run (hrec r₁ hsame) hr hpolicy (hp r₁)
  have hs₁ : r₁.Handles policy s label s' := ⟨hs, hagrees⟩
  obtain ⟨-, -, -, hahead⟩ := hs₁.next hr' hpolicy' hp'
  refine ⟨r₁, fun r' hr₁ => (hrec r' fun m hm => ?_).append (.single ⟨hs, ?_⟩)⟩
  · rw [hr₁ m fun hm' => hm (hahead m hm').1]
    exact hsame m hm
  · intro env op rest hlabel hops m hm
    rw [hr₁ m fun hm' => (hahead m hm').2 env op rest hlabel hops hm]
    exact hagrees env op rest hlabel hops m hm

theorem run {h : Readings → Handling} (hrun : Run (Undecided policy) s labels' s')
    (hrec : r.Records policy s₀ labels s) (hr : s₀.Reachable) (hpolicy : s₀.policy = policy)
    (hp : ∀ r, Point r policy (s₀.ops .receiver) s₀.locals (h r)) :
    ∃ r' : Readings, r'.Records policy s₀ (labels ++ labels') s' := by
  induction hrun generalizing r labels with
  | nil => exact ⟨r, by rwa [List.append_nil]⟩
  | cons hs _ ih =>
    obtain ⟨r₁, hrec₁⟩ := hrec.next hr hpolicy hp hs
    obtain ⟨r', hrec'⟩ := ih hrec₁
    exact ⟨r', by rwa [List.append_assoc] at hrec'⟩

end Readings.Records

/-- A turn at a stage keeps the rules. -/
theorem Undecided.of_stage {s s' : State} {env : Env} {stage : Stage} {rest : List Op}
    (hops : s.ops .receiver = .stage stage :: rest) (hd : s.decision env (.stage stage) = none)
    (hstep : s.step (.run .receiver env) = some s') :
    Undecided s.policy s (.run .receiver env) s' := by
  refine ⟨hstep, ?_, fun env' op' rest' hlabel hops' => ?_⟩
  · cases State.Step.of_step hstep with
    | next hops' hexec =>
      cases hops.symm.trans hops'
      exact (State.exec_stage hexec).1
    | panic hops' hexec =>
      cases hops.symm.trans hops'
      exact (State.exec_stage hexec).1
  · cases hlabel
    cases hops.symm.trans hops'
    exact hd

namespace State

/-- From a packet's first check to the turn that decides on it, with the rules as they are and
whatever the other threads do meanwhile: the turns of the receiver can be put on record, and on
any record of them the decision, the receiver's variables and the count of eligible packets are
the pipeline's, whose earlier stages shield the later ones. -/
theorem Reachable.recvLoop_pipeline {s s' s'' : State} {labels : List Label} {c : Received}
    {rest rest' : List Op} {op : Op} {env : Env} {d : Decision} (hr : s.Reachable)
    (hc : s.ops .receiver = .stage (.aborted c) :: rest)
    (hrun : Run (Undecided s.policy) s labels s') (hop : s'.ops .receiver = op :: rest')
    (hd : s'.decision env op = some d) (hstep : s'.step (.run .receiver env) = some s'') :
    (∃ r : Readings, Run (r.Handles s.policy) s labels s' ∧ r.Agrees s' env op) ∧
      ∀ r : Readings, Run (r.Handles s.policy) s labels s' → r.Agrees s' env op →
        (∃ o, s'.exec .receiver env op = some o ∧ d.Taken s' o) ∧
        d = (r.pipeline s.policy c s.locals).decision ∧
        s''.locals = (r.pipeline s.policy c s.locals).locals ∧
        s''.counters.packetsLossEligible =
          (r.pipeline s.policy c s.locals).eligible + s.counters.packetsLossEligible ∧
        (r.pipeline s.policy c s.locals).Shields s.locals c.isLoopback c.direction
          (r.pid s.policy c s.locals) (r.charge c) := by
  have hp (r : Readings) : Point r s.policy (s.ops .receiver) s.locals
      (r.pipeline s.policy c s.locals) := by
    rw [hc]
    exact .aborted c rest s.locals
  constructor
  · have hstart : Readings.Records (fun _ => s.view {}) s.policy s [] s := fun _ _ => .nil s
    obtain ⟨r, hrec⟩ := Readings.Records.run hrun hstart hr rfl hp
    obtain ⟨r', hsame, hagrees⟩ := Readings.Records.exists_agrees r s' (.run .receiver env)
    exact ⟨r', hrec r' hsame, hagrees env op rest' rfl hop⟩
  · intro r hhandles hagrees
    obtain ⟨-, hpolicy, h', hp', htotal⟩ := Readings.Handles.run hhandles hr rfl (hp r)
    rw [hop, ← hpolicy] at hp'
    have hturn : ∃ o, s'.exec .receiver env op = some o ∧ s''.locals = o.state.locals ∧
        s''.counters = o.state.counters := by
      cases Step.of_step hstep with
      | next hops hexec =>
        cases hop.symm.trans hops
        exact ⟨_, hexec, rfl, rfl⟩
      | panic hops hexec =>
        cases hop.symm.trans hops
        exact ⟨_, hexec, rfl, rfl⟩
    obtain ⟨o, hexec, hlocals, hcounters⟩ := hturn
    have hdecided := htotal.symm.trans (hp'.decided hagrees hd hexec)
    refine ⟨⟨o, hexec, exec_of_decision hd hexec⟩, ?_, ?_, ?_, ?_⟩
    · exact (congrArg Handling.decision hdecided).symm
    · rw [hlocals]
      exact (congrArg Handling.locals hdecided).symm
    · rw [hcounters]
      exact (congrArg Handling.eligible hdecided).symm
    · exact r.pipeline_shields s.policy s.locals c

/-- A start, a block of all traffic, and a packet that arrives after it. -/
def blockedPacketRun : List Label :=
  let arrives : Env := { recv := .ok ([0x45, 0, 0, 28], ⟨0x00020000⟩) }
  [.call .startWithIo] ++ List.replicate 2 (.run .ui {})
    ++ [.call (.apply (.setGlobalRule { blockAll := true }))] ++ List.replicate 11 (.run .ui {})
    ++ List.replicate 5 (.run .receiver arrives)

theorem recvLoop_pipeline_blockedPacketRun : ∃ (s s'' : State) (c : Received) (rest : List Op)
    (r : Readings), follow {} blockedPacketRun = some s ∧
      s.ops .receiver = .stage (.aborted c) :: rest ∧
      follow s (List.replicate 4 (.run .receiver {})) = some s'' ∧
      (r.pipeline s.policy c s.locals).decision = .drop .block ∧
      s''.locals = (r.pipeline s.policy c s.locals).locals ∧ s.locals.SameBuckets s''.locals := by
  have hrun : ∃ (s s₁ s₂ s' s'' : State) (c : Received) (rest rest₁ rest₂ rest' : List Op),
      follow {} blockedPacketRun = some s ∧
      s.ops .receiver = .stage (.aborted c) :: rest ∧
      s.decision {} (.stage (.aborted c)) = none ∧
      s.step (.run .receiver {}) = some s₁ ∧
      s₁.ops .receiver = .stage (.refresh c) :: rest₁ ∧
      s₁.decision {} (.stage (.refresh c)) = none ∧
      s₁.step (.run .receiver {}) = some s₂ ∧
      s₂.ops .receiver = .stage (.elapsed c s₁.policy.ruleRevision) :: rest₂ ∧
      s₂.decision {} (.stage (.elapsed c s₁.policy.ruleRevision)) = none ∧
      s₂.step (.run .receiver {}) = some s' ∧
      s'.ops .receiver = .stage (.globalBlocks c) :: rest' ∧
      s'.decision {} (.stage (.globalBlocks c)) = some (.drop .block) ∧
      s'.step (.run .receiver {}) = some s'' :=
    ⟨_, _, _, _, _, _, _, _, _, _, rfl, rfl, rfl, rfl, rfl, rfl, rfl, rfl, rfl, rfl, rfl, rfl, rfl⟩
  obtain ⟨s, s₁, s₂, s', s'', c, rest, rest₁, rest₂, rest', hs, hops, hd, hstep, hops₁, hd₁, hstep₁,
    hops₂, hd₂, hstep₂, hops', hd', hstep'⟩ := hrun
  have hturn := Undecided.of_stage hops hd hstep
  have hturn₁ := Undecided.of_stage hops₁ hd₁ hstep₁
  have hturn₂ := Undecided.of_stage hops₂ hd₂ hstep₂
  have hpolicy : s₂.policy = s.policy := hturn₁.policy.trans hturn.policy
  have hlabels : Run (Undecided s.policy) s (List.replicate 3 (.run .receiver {})) s' :=
    .cons hturn (.cons (hturn.policy ▸ hturn₁) (.single (hpolicy ▸ hturn₂)))
  obtain ⟨⟨r, hhandles, hagrees⟩, hall⟩ :=
    Reachable.recvLoop_pipeline (.of_follow hs) hops hlabels hops' hd' hstep'
  obtain ⟨-, hdecision, hlocals, -, hshields⟩ := hall r hhandles hagrees
  refine ⟨s, s'', c, rest, r, hs, hops, ?_, hdecision.symm, hlocals, ?_⟩
  · simp [follow, hstep, hstep₁, hstep₂, hstep']
  · rw [hlocals]
    exact (hshields.block hdecision.symm).2.2

end State

end FlowBrake.Windows
