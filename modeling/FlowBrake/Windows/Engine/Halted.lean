import FlowBrake.Windows.Engine.Gate
import FlowBrake.Windows.Engine.Script

/-! When the engine runs, and what its threads can do to the filter while the owner waits. -/
namespace FlowBrake.Windows
open FlowBrake.Core Transition

/-- The filter is cleared, or found to be of no use, before the engine is marked as stopping. -/
def presumesHalted : List Op → Bool
  | [] => false
  | .note .stopping :: _ => false
  | .note .clearSocketBlock :: _ | .snapshotBlock false :: _ => true
  | _ :: rest => presumesHalted rest

theorem presumesHalted_cons {op : Op} {rest : List Op} (hop : op ≠ .note .stopping)
    (h : presumesHalted rest) : presumesHalted (op :: rest) := by
  cases op
  case note note => cases note <;> first | exact absurd rfl hop | exact h | rfl
  case snapshotBlock running => cases running <;> first | exact h | rfl
  all_goals exact h

theorem presumesHalted_tallies (tallies : List Tally) (rest : List Op) :
    presumesHalted (tallies.map .tally ++ rest) = presumesHalted rest := by
  induction tallies with
  | nil => rfl
  | cons tally tallies ih => exact ih

theorem presumesHalted_edits (edits : List Edit) (rest : List Op) :
    presumesHalted (edits.map .edit ++ rest) = presumesHalted rest := by
  induction edits with
  | nil => rfl
  | cons edit edits ih => exact ih

namespace State

/-- The engine does not run, nor will it before the next start. -/
def Halted (s : State) : Prop :=
  s.status.stopping ∨ s.isRunning = false ∧ (s.ops .ui).all (!·.spawns)

theorem Halted.not_running {s : State} (h : s.Halted) : s.isRunning = false := by
  rcases h with hstop | ⟨hidle, -⟩
  · simp [isRunning, hstop]
  · exact hidle

/-- An engine that is running was running before, unless its threads were started since. -/
theorem isRunning_mono {s s' : State} (hstop : s.status.stopping → s'.status.stopping)
    (hw : s.worker = false → s'.worker = false) (hsd : s'.sender → s.sender)
    (hidle : ∀ t, t ≠ .ui → s.ops t = [] → s'.ops t = []) (h : s.isRunning = false) :
    s'.isRunning = false := by
  by_contra hrun
  simp only [isRunning, Bool.not_eq_false, Bool.and_eq_true, Bool.not_eq_true',
    List.isEmpty_eq_false_iff] at hrun
  obtain ⟨⟨hns, hw', hrecv⟩, hsd', hsend⟩ := hrun
  have hrunning : s.isRunning = true := by
    simp only [isRunning, Bool.and_eq_true, Bool.not_eq_true', List.isEmpty_eq_false_iff]
    refine ⟨⟨?_, ?_, fun hnil => hrecv (hidle _ (by decide) hnil)⟩, hsd hsd',
      fun hnil => hsend (hidle _ (by decide) hnil)⟩
    · by_contra hs
      rw [hstop (by simpa using hs)] at hns
      cases hns
    · by_contra hs
      rw [hw (by simpa using hs)] at hw'
      cases hw'
  cases h.symm.trans hrunning

theorem exec_stopping {s : State} {t : Tid} {env : Env} {op : Op} {o : Outcome}
    (h : s.exec t env op = some o) (hs : s.status.stopping) : o.state.status.stopping := by
  cases op
  case note note =>
    cases h
    cases note <;> first | exact hs | rfl
  all_goals
    simp only [exec, dispatch, senderLoop, ioSend, tryQueue] at h
    repeat' split at h
    all_goals cases h <;> first | exact hs | rfl

/-- Only a spawn gives operations to a thread that has none. -/
theorem exec_idle {s : State} {t t' : Tid} {env : Env} {op : Op} {o : Outcome}
    (hop : op.spawns = false) (h : s.exec t env op = some o) (hidle : s.ops t' = []) :
    o.state.ops t' = [] := by
  rcases exec_ops h t' with he | ⟨rfl, -⟩ | ⟨rfl, -⟩
  · exact he.trans hidle
  · cases hop
  · cases hop

theorem pushed_spawns {s s' : State} {t : Tid} {env : Env} {op : Op} {pushed : List Op}
    (hop : op.spawns = false) (h : s.exec t env op = some (.next s' pushed)) :
    pushed.all (!·.spawns) := by
  have hstarts : pushed.all (!·.starts) := by
    cases hst : op.starts with
    | false => exact (exec_pushed h).2.2 hst
    | true =>
      cases op <;> simp [Op.starts, Op.spawns] at hst hop
      cases h
      rfl
  refine List.all_eq_true.mpr fun op' hm => ?_
  have hnot := List.all_eq_true.mp hstarts op' hm
  cases op' <;> first | rfl | cases hnot

theorem spawns_of_ne_ui {s : State} (hr : s.Reachable) {t : Tid} {op : Op} {rest : List Op}
    (hops : s.ops t = op :: rest) (ht : t ≠ .ui) : op.spawns = false := by
  have hall := hr.allowed hops
  cases op
  case spawnSender | spawnReceiver => exact absurd (by simpa [Op.allowed] using hall) ht
  all_goals rfl

/-- The engine stays halted until a start. -/
theorem Halted.step {s s' : State} {label : Label} (hs : s.Halted) (hr : s.Reachable)
    (hlabel : label ≠ .call .startWithIo) (hstep : s.Step label s') : s'.Halted := by
  cases hstep with
  | tick elapsed => exact hs
  | @call call s' hops hbegin =>
    rcases begin_eq_some hbegin with ⟨rfl, -⟩ | ⟨hcall, rfl⟩
    · exact absurd rfl hlabel
    · refine hs.imp id fun hidle => ⟨hidle.1, ?_⟩
      rw [setOps_self]
      cases call <;> first | rfl | exact absurd rfl hcall
  | @next t env op rest pushed s₁ hops hexec =>
    rcases hs with hstop | ⟨hidle, hspawns⟩
    · exact .inl (exec_stopping hexec hstop)
    · have hop : op.spawns = false := by
        cases hspawn : op.spawns with
        | false => rfl
        | true =>
          have hnot := List.all_eq_true.mp hspawns op (ui_op hr hops hspawn)
          rw [hspawn] at hnot
          cases hnot
      obtain ⟨hw, hsd⟩ := exec_started hop hexec
      refine .inr ⟨isRunning_mono (exec_stopping hexec) hw hsd (fun t' ht' hnil => ?_) hidle, ?_⟩
      · have ht : t' ≠ t := by
          rintro rfl
          cases hops.symm.trans hnil
        exact (setOps_of_ne s₁ ht _).trans (exec_idle hop hexec hnil)
      · by_cases ht : t = .ui
        · subst ht
          rw [hops, List.all_cons, Bool.and_eq_true] at hspawns
          rw [setOps_self, List.all_append, pushed_spawns hop hexec, hspawns.2]
          rfl
        · rw [setOps_of_ne _ (Ne.symm ht), show s₁.ops .ui = s.ops .ui from exec_ui_ops hexec]
          exact hspawns
  | @panic t env op rest s₁ hops hexec =>
    have ht := panic_ne_ui hr hops hexec
    have hop := spawns_of_ne_ui hr hops ht
    rcases hs with hstop | ⟨hidle, hspawns⟩
    · exact .inl (exec_stopping hexec hstop)
    · obtain ⟨hw, hsd⟩ := exec_started hop hexec
      refine .inr ⟨isRunning_mono (exec_stopping hexec) hw hsd (fun t' ht' hnil => ?_) hidle, ?_⟩
      · have ht : t' ≠ t := by
          rintro rfl
          cases hops.symm.trans hnil
        exact (panicked_of_ne s₁ ht).trans (exec_idle hop hexec hnil)
      · rw [panicked_of_ne _ (Ne.symm ht), show s₁.ops .ui = s.ops .ui from exec_ui_ops hexec]
        exact hspawns

/-- What an operation does to the installed filter. -/
theorem exec_socketBlock {s : State} {t : Tid} {env : Env} {op : Op} {o : Outcome}
    (h : s.exec t env op = some o) :
    o.state.status.socketBlock = s.status.socketBlock ∨
      (op = .note .clearSocketBlock ∧ o.state.status.socketBlock = {}) ∨
      (op = .syncSocketBlock ∧ o.state.status.socketBlock =
        Windows.syncSocketBlock s.policy s.status.socketBlock env.opened) ∨
      ∃ running, op = .snapshotBlock running ∧ o.state.status.socketBlock =
        { s.status.socketBlock with
          active := if running then s.status.socketBlock.active else none } := by
  cases op
  case note note =>
    cases h
    cases note <;> first | exact .inl rfl | exact .inr (.inl ⟨rfl, rfl⟩)
  case syncSocketBlock =>
    cases h
    exact .inr (.inr (.inl ⟨rfl, rfl⟩))
  case snapshotBlock running =>
    cases h
    exact .inr (.inr (.inr ⟨running, rfl, rfl⟩))
  all_goals
    left
    simp only [exec, dispatch, senderLoop, ioSend, tryQueue] at h
    repeat' split at h
    all_goals cases h <;> rfl

/-- The owner at an operation that is not a spawn starts no thread. -/
theorem halted_of_not_running {s : State} (hr : s.Reachable) {op : Op} {rest : List Op}
    (hops : s.ops .ui = op :: rest) (hop : op.spawns = false) (hidle : s.isRunning = false) :
    s.Halted := by
  refine .inr ⟨hidle, ?_⟩
  have hrest := (hops ▸ hr.shape .ui).2.2.1
  rw [hops, List.all_cons, hop, hrest]
  rfl

theorem check_presumes {s : State} {c : Check} {rest : List Op}
    (h : presumesHalted (s.check c ++ rest)) :
    presumesHalted rest ∨ (c = .applySync ∨ c = .snapshot) ∧ s.isRunning = false := by
  cases c
  case apply command =>
    rw [check, List.append_assoc, presumesHalted_edits] at h
    exact .inl h
  case applySync =>
    simp only [check] at h
    split at h
    · exact .inl h
    · next hidle => exact .inr ⟨.inl rfl, by simpa using hidle⟩
  case snapshot =>
    cases hrun : s.isRunning with
    | true =>
      rw [check, hrun] at h
      exact .inl h
    | false => exact .inr ⟨.inr rfl, rfl⟩
  all_goals
    left
    simp only [check] at h
    repeat' split at h
    all_goals first | exact h | cases h

theorem exec_presumes {s s' : State} {t : Tid} {env : Env} {op : Op} {rest pushed : List Op}
    (hop : op ≠ .takeActiveWorker) (h : s.exec t env op = some (.next s' pushed))
    (hp : presumesHalted (pushed ++ rest)) :
    presumesHalted rest ∨
      (op = .check .applySync ∨ op = .check .snapshot) ∧ s.isRunning = false := by
  cases op
  case takeActiveWorker => exact absurd rfl hop
  case check c =>
    cases h
    refine (check_presumes hp).imp id fun hc => ⟨?_, hc.2⟩
    exact hc.1.imp (congrArg Op.check) (congrArg Op.check)
  case ioSend p =>
    left
    simp only [exec, ioSend] at h
    split at h <;> cases h
    · obtain ⟨tallies, ht⟩ := recordBytes_eq_map p.pid p.direction p.chargeLen
      rwa [ht, presumesHalted_tallies] at hp
    · split at hp <;> first | exact hp | cases hp
  all_goals
    left
    simp only [exec, dispatch, senderLoop, tryQueue] at h
    repeat' split at h
    all_goals cases h <;> first | exact hp | cases hp

/-- Who clears the filter, or finds that the engine does not run, is right that it is halted. -/
theorem Reachable.halted {s : State} (h : s.Reachable) (t : Tid) :
    presumesHalted (s.ops t) → s.Halted := by
  refine h.invariant (I := fun s => ∀ t, presumesHalted (s.ops t) → s.Halted) ?_ ?_ t
  · intro t hp
    cases hp
  intro s label s' hr hs hstep t' hp
  by_cases hlabel : label = .call .startWithIo
  · subst hlabel
    cases hstep with
    | call hops hbegin =>
      rcases begin_eq_some hbegin with ⟨-, hactive, rfl⟩ | ⟨hcall, -⟩
      · obtain ⟨hw, hsd⟩ := hr.handles.stopped hactive
        have hidle : ∀ t, t ≠ .ui → s.ops t = [] := by
          intro t ht
          cases t
          · exact hr.handles.worker hw
          · exact hr.handles.sender hsd
          · exact absurd rfl ht
        by_cases ht : t' = .ui
        · subst ht
          rw [setOps_self] at hp
          cases hp
        · rw [setOps_of_ne _ ht, show s.startWithIo.ops t' = s.ops t' from rfl, hidle t' ht] at hp
          cases hp
      · exact absurd rfl hcall
  have hkeep (hhalted : s.Halted) : s'.Halted := hhalted.step hr hlabel hstep
  have hother {t : Tid} {env : Env} {op : Op} {o : Outcome} (hexec : s.exec t env op = some o)
      (hp : presumesHalted (o.state.ops t')) : s.Halted := by
    rcases exec_ops hexec t' with he | ⟨-, -, he⟩ | ⟨-, -, he⟩ <;> rw [he] at hp
    · exact hs t' hp
    · cases hp
    · cases hp
  cases hstep with
  | tick elapsed => exact hkeep (hs t' hp)
  | @call call s' hops hbegin =>
    rw [begin_ops hbegin] at hp
    by_cases ht : t' = .ui
    · subst ht
      rw [Function.update_self] at hp
      cases call <;> cases hp
    · rw [Function.update_of_ne ht] at hp
      exact hkeep (hs t' hp)
  | @next t env op rest pushed s₁ hops hexec =>
    by_cases ht : t' = t
    · subst ht
      rw [setOps_self] at hp
      by_cases hstop : op = .note .stopping
      · subst hstop
        cases hexec
        exact .inl rfl
      by_cases htake : op = .takeActiveWorker
      · subst htake
        have hui : t' = .ui := by
          have hall := hr.allowed hops
          simpa [Op.allowed] using hall
        subst hui
        have hjoined := hr.handles.joined .takeActiveWorker (by simp [hops])
        refine hkeep (halted_of_not_running hr hops rfl ?_)
        simp [isRunning, hjoined.1]
      rcases exec_presumes htake hexec hp with hp | ⟨hop, hidle⟩
      · exact hkeep (hs t' (hops ▸ presumesHalted_cons hstop hp))
      · have hui : t' = .ui := by
          have hall := hr.allowed hops
          rcases hop with rfl | rfl <;> simpa [Op.allowed] using hall
        subst hui
        refine hkeep (halted_of_not_running hr hops ?_ hidle)
        rcases hop with rfl | rfl <;> rfl
    · rw [setOps_of_ne _ ht] at hp
      exact hkeep (hother hexec hp)
  | @panic t env op rest s₁ hops hexec =>
    by_cases ht : t' = t
    · subst ht
      rw [panicked_self] at hp
      unfold unwind at hp
      split at hp <;> split at hp <;> cases t' <;> cases hp
    · rw [panicked_of_ne _ ht] at hp
      exact hkeep (hother hexec hp)

/-- A step as the owner sees it: apart from its own, the other threads leave the rules and the
snapshots alone, and clear the filter only when the engine is halted. -/
inductive Turn (s : State) : Label → State → Prop
  | tick (elapsed : ℕ) : Turn s (.tick elapsed) { s with now := s.now + elapsed }
  | call {call : UiCall} {s' : State} : s.ops .ui = [] → s.begin call = some s' →
      Turn s (.call call) s'
  | own {env : Env} {op : Op} {rest pushed : List Op} {s' : State} : s.ops .ui = op :: rest →
      s.exec .ui env op = some (.next s' pushed) →
      Turn s (.run .ui env) (s'.setOps .ui (pushed ++ rest))
  | other {t : Tid} {env : Env} {s' : State} : s.ops t ≠ [] → t ≠ .ui →
      s'.ops .ui = s.ops .ui → s'.policy = s.policy → s'.snapshots = s.snapshots →
      s'.activeWorker = s.activeWorker →
      (s'.status.socketBlock = s.status.socketBlock ∨ s.Halted ∧ s'.status.socketBlock = {}) →
      Turn s (.run t env) s'

theorem exec_snapshots {s : State} {t : Tid} {env : Env} {op : Op} {o : Outcome}
    (h : s.exec t env op = some o) :
    o.state.snapshots = s.snapshots ∨ ∃ snapshot snapshot' : EngineSnapshot,
      op = .snapshotCounters snapshot ∧ o.state.snapshots = s.snapshots ++ [snapshot'] ∧
        snapshot'.running = snapshot.running := by
  cases op
  case snapshotCounters snapshot =>
    cases h
    exact .inr ⟨_, _, rfl, rfl, rfl⟩
  all_goals
    left
    simp only [exec, dispatch, senderLoop, ioSend, tryQueue] at h
    repeat' split at h
    all_goals cases h <;> rfl

theorem exec_other {s : State} (hr : s.Reachable) {t : Tid} {env : Env} {op : Op}
    {rest : List Op} {o : Outcome} (hops : s.ops t = op :: rest) (ht : t ≠ .ui)
    (h : s.exec t env op = some o) :
    o.state.policy = s.policy ∧ o.state.snapshots = s.snapshots ∧
      (o.state.status.socketBlock = s.status.socketBlock ∨
        s.Halted ∧ o.state.status.socketBlock = {}) := by
  have hallowed := hr.allowed hops
  refine ⟨?_, ?_, ?_⟩
  · rcases exec_policy h with he | ⟨edit, rfl, -⟩
    · exact he
    · exact absurd (by simpa [Op.allowed] using hallowed) ht
  · rcases exec_snapshots h with he | ⟨snapshot, -, rfl, -⟩
    · exact he
    · exact absurd (by simpa [Op.allowed] using hallowed) ht
  · rcases exec_socketBlock h with he | ⟨rfl, he⟩ | ⟨rfl, -⟩ | ⟨running, rfl, -⟩
    · exact .inl he
    · exact .inr ⟨hr.halted t (by rw [hops]; rfl), he⟩
    · exact absurd (by simpa [Op.allowed] using hallowed) ht
    · exact absurd (by simpa [Op.allowed] using hallowed) ht

theorem Turn.of_step {s s' : State} {label : Label} (hr : s.Reachable)
    (hstep : s.Step label s') : s.Turn label s' := by
  cases hstep with
  | tick elapsed => exact .tick elapsed
  | call hops hbegin => exact .call hops hbegin
  | @next t env op rest pushed s₁ hops hexec =>
    by_cases ht : t = .ui
    · subst ht
      exact .own hops hexec
    · obtain ⟨hpolicy, hsnapshots, hblock⟩ := exec_other hr hops ht hexec
      exact .other (by simp [hops]) ht
        ((setOps_of_ne _ (Ne.symm ht) _).trans (exec_ui_ops hexec)) hpolicy hsnapshots
        (exec_handles_of_ne_ui hr hops ht hexec).2.2.1 hblock
  | @panic t env op rest s₁ hops hexec =>
    have ht := panic_ne_ui hr hops hexec
    obtain ⟨hpolicy, hsnapshots, hblock⟩ := exec_other hr hops ht hexec
    exact .other (by simp [hops]) ht
      ((panicked_of_ne _ (Ne.symm ht)).trans (exec_ui_ops hexec)) hpolicy hsnapshots
      (exec_handles_of_ne_ui hr hops ht hexec).2.2.1 hblock

end State

end FlowBrake.Windows
