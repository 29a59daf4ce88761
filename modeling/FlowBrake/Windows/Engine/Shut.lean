import FlowBrake.Windows.Engine.Halted
import FlowBrake.Windows.Engine.Ledger

/-! After a stop, or once the owner finds that the engine does not run, the filter is cleared. -/
namespace FlowBrake.Windows
open FlowBrake.Core Transition

/-- The operations that install the filter. -/
def Op.syncs : Op → Bool
  | .syncSocketBlock => true
  | _ => false

/-- The operations that lead to the filter being installed or cleared. -/
def Op.resyncs : Op → Bool
  | .check c => match c with
    | .apply _ | .applySync => true
    | _ => false
  | .syncSocketBlock | .note .clearSocketBlock => true
  | _ => false

/-- The filter is installed right away or not at all, and is brought up to date after an edit. -/
def Resynced : List Op → Prop
  | [] => True
  | op :: rest =>
    ((∃ edit, op = .edit edit) → rest.any Op.resyncs) ∧ rest.all (!·.syncs) ∧ Resynced rest

theorem resynced_tallies {tallies : List Tally} {rest : List Op} (hn : rest.all (!·.syncs))
    (h : Resynced rest) : Resynced (tallies.map .tally ++ rest) := by
  induction tallies with
  | nil => exact h
  | cons tally tallies ih =>
    refine ⟨by simp, ?_, ih⟩
    simpa [Op.syncs] using hn

theorem resynced_edits {edits : List Edit} {rest : List Op} (hn : rest.all (!·.syncs))
    (hsync : rest.any Op.resyncs) (h : Resynced rest) : Resynced (edits.map .edit ++ rest) := by
  induction edits with
  | nil => exact h
  | cons edit edits ih =>
    have hany : (edits.map Op.edit ++ rest).any Op.resyncs := by
      rw [List.any_append, hsync, Bool.or_true]
    refine ⟨fun _ => hany, ?_, ih⟩
    simpa [Op.syncs] using hn

namespace State

theorem check_resynced {s : State} {c : Check} {rest : List Op} (hn : rest.all (!·.syncs))
    (h : Resynced rest) : Resynced (s.check c ++ rest) := by
  cases c <;> simp only [check]
  case apply command =>
    rw [List.append_assoc]
    refine resynced_edits ?_ ?_ ?_ <;> simp_all [Resynced, Op.syncs, Op.resyncs]
  all_goals repeat' split
  all_goals simp_all [Resynced, recordDrop, fail, drainQueue, Op.syncs]

theorem exec_resynced {s s' : State} {t : Tid} {env : Env} {op : Op} {rest pushed : List Op}
    (hs : Resynced (op :: rest)) (h : s.exec t env op = some (.next s' pushed)) :
    Resynced (pushed ++ rest) := by
  obtain ⟨-, hn, hrest⟩ := hs
  cases op
  case check c =>
    cases h
    exact check_resynced hn hrest
  case ioSend p =>
    simp only [exec, ioSend] at h
    split at h <;> cases h
    · obtain ⟨tallies, ht⟩ := recordBytes_eq_map p.pid p.direction p.chargeLen
      exact ht ▸ resynced_tallies hn hrest
    · split <;> simp_all [Resynced, recordDrop, fail, drainQueue, Op.syncs]
  all_goals
    simp only [exec, dispatch, senderLoop, tryQueue] at h
    repeat' split at h
    all_goals
      cases h <;>
        simp_all [Resynced, recordDrop, send, stop, drainQueue, discardPending, fail, Op.syncs]

theorem Reachable.resynced {s : State} (h : s.Reachable) (t : Tid) : Resynced (s.ops t) := by
  refine h.programs (P := fun _ ops => Resynced ops) ?_ ?_ ?_ ?_ ?_ ?_ t
  · exact fun _ => trivial
  · intro call
    cases call <;> simp [UiCall.program, stop, apply, Resynced, Op.syncs]
  · simp [runWorker, Resynced, Op.syncs]
  · simp [runWorker, recvDone, Resynced, Op.syncs]
  · exact exec_resynced
  · intro s s' t env op rest _ _
    unfold unwind
    split <;> split <;> cases t <;>
      simp [afterPanic, fail, drainQueue, recvDone, discardPending, Resynced, Op.syncs]

end State

/-- The operations on the way to the engine being marked as stopping. -/
def Op.halts : Op → Bool
  | .check c => match c with
    | .stop => true
    | _ => false
  | .swapStopping | .note .stopping => true
  | _ => false

/-- The operations on which it depends whether the engine runs. -/
def Op.asks : Op → Bool
  | .check c => match c with
    | .apply _ | .applySync | .snapshot => true
    | _ => false
  | _ => false

/-- The operations on the way to a cleared filter, where the engine does not run. -/
def Op.clears : Op → Bool
  | .check c => match c with
    | .apply _ | .applySync | .snapshot | .stop => true
    | _ => false
  | .joinWorker | .joinSender | .takeActiveWorker | .note .clearSocketBlock => true
  | .snapshotBlock running => !running
  | _ => false

namespace State

theorem check_asks {s : State} {c : Check} :
    ((Op.check c).asks = false → (s.check c).all (!·.asks)) ∧
      ((s.check c).all (!·.syncs) ∨ c = .applySync ∧ s.isRunning) := by
  cases c <;> simp only [check]
  case apply command =>
    refine ⟨fun hop => ?_, .inl ?_⟩
    · cases hop
    · simp [Op.syncs]
  all_goals repeat' split
  all_goals simp_all [recordDrop, fail, drainQueue, Op.asks, Op.syncs]

/-- The filter is installed only after the engine was found to run. -/
theorem exec_asks {s s' : State} {t : Tid} {env : Env} {op : Op} {pushed : List Op}
    (h : s.exec t env op = some (.next s' pushed)) :
    (op.asks = false → pushed.all (!·.asks)) ∧
      (pushed.all (!·.syncs) ∨ op = .check .applySync ∧ s.isRunning) := by
  cases op
  case check c =>
    cases h
    exact check_asks.imp id (Or.imp id (And.imp (congrArg Op.check) id))
  case ioSend p =>
    simp only [exec, ioSend] at h
    split at h <;> cases h
    · obtain ⟨tallies, ht⟩ := recordBytes_eq_map p.pid p.direction p.chargeLen
      simp [ht, Op.asks, Op.syncs]
    · split <;> simp [recordDrop, fail, drainQueue, Op.asks, Op.syncs]
  all_goals
    simp only [exec, dispatch, senderLoop, tryQueue] at h
    repeat' split at h
    all_goals
      cases h <;>
        simp [recordDrop, send, stop, drainQueue, discardPending, fail, Op.asks, Op.syncs]

theorem exec_halts {s s' : State} {t : Tid} {env : Env} {op : Op} {pushed : List Op}
    (hop : op.halts) (h : s.exec t env op = some (.next s' pushed)) :
    pushed.any Op.halts ∨ s'.status.stopping := by
  cases op
  case check c =>
    cases c
    case stop =>
      cases h
      simp only [check]
      split <;> simp [Op.halts]
    all_goals cases hop
  case note note =>
    cases note <;> cases hop
    cases h
    exact .inr rfl
  case swapStopping =>
    cases h
    exact .inr rfl
  all_goals cases hop

theorem exec_clears {s s' : State} {t : Tid} {env : Env} {op : Op} {pushed : List Op}
    (hop : op.clears) (h : s.exec t env op = some (.next s' pushed)) :
    pushed.any Op.clears ∨ s'.status.socketBlock.active = none ∨ op.asks ∧ s.isRunning := by
  cases op
  case check c =>
    cases h
    cases c
    case apply command => simp [check, Op.clears]
    case applySync | snapshot => cases hrun : s.isRunning <;> simp [check, hrun, Op.clears, Op.asks]
    case stop => simp [check, Op.clears]
    all_goals cases hop
  case note note =>
    cases note <;> cases hop
    cases h
    exact .inr (.inl rfl)
  case snapshotBlock running =>
    cases running <;> cases hop
    cases h
    exact .inr (.inl rfl)
  case joinWorker | joinSender =>
    simp only [exec, Option.ite_none_left_eq_some] at h
    obtain ⟨-, h⟩ := h
    cases h
    exact .inl rfl
  case takeActiveWorker =>
    cases h
    simp [Op.clears]
  all_goals cases hop

/-- The engine is halted or about to be, and there is no filter, or it is about to be cleared. -/
structure Shut (s : State) : Prop where
  halted : s.Halted ∨ (s.ops .ui).any Op.halts ∧ (s.ops .ui).all (!·.asks)
  cleared : s.status.socketBlock.active = none ∨ (s.ops .ui).any Op.clears
  unsynced : (s.ops .ui).all (!·.syncs)

theorem Shut.inactive {s : State} (h : s.Shut) (hops : s.ops .ui = []) :
    s.status.socketBlock.active = none :=
  h.cleared.resolve_right (by simp [hops])

theorem Shut.own {s s' : State} (hs : s.Shut) {env : Env} {op : Op} {rest pushed : List Op}
    (hops : s.ops .ui = op :: rest) (hexec : s.exec .ui env op = some (.next s' pushed))
    (hkeep : s.Halted → (s'.setOps .ui (pushed ++ rest)).Halted) :
    (s'.setOps .ui (pushed ++ rest)).Shut := by
  obtain ⟨hhalted, hcleared, hunsynced⟩ := hs
  rw [hops] at hhalted hcleared hunsynced
  rw [List.all_cons, Bool.and_eq_true, Bool.not_eq_true'] at hunsynced
  obtain ⟨hasks, hsyncs⟩ := exec_asks hexec
  have hidle (hop : op.asks) : s.isRunning = false := by
    rcases hhalted with hhalted | ⟨-, hall⟩
    · exact hhalted.not_running
    · rw [List.all_cons, hop] at hall
      cases hall
  refine ⟨?_, ?_, ?_⟩
  · rw [setOps_self]
    rcases hhalted with hhalted | ⟨hany, hall⟩
    · exact .inl (hkeep hhalted)
    rw [List.any_cons, Bool.or_eq_true] at hany
    rw [List.all_cons, Bool.and_eq_true, Bool.not_eq_true'] at hall
    have hall' : (pushed ++ rest).all (!·.asks) := by
      rw [List.all_append, hasks hall.1, hall.2]
      rfl
    rcases hany with hop | hrest
    · rcases exec_halts hop hexec with hp | hstop
      · exact .inr ⟨by rw [List.any_append, hp, Bool.true_or], hall'⟩
      · exact .inl (.inl hstop)
    · exact .inr ⟨by rw [List.any_append, hrest, Bool.or_true], hall'⟩
  · rw [setOps_self]
    rw [List.any_cons, Bool.or_eq_true] at hcleared
    rcases hcleared with hnone | hop | hrest
    · left
      rcases exec_socketBlock hexec with he | ⟨-, he⟩ | ⟨rfl, -⟩ | ⟨running, -, he⟩
      · exact (congrArg SocketBlock.active he).trans hnone
      · exact congrArg SocketBlock.active he
      · cases hunsynced.1
      · refine (congrArg SocketBlock.active he).trans ?_
        simp only [hnone, ite_self]
    · rcases exec_clears hop hexec with hp | hnone | ⟨hop, hrun⟩
      · exact .inr (by rw [List.any_append, hp, Bool.true_or])
      · exact .inl hnone
      · cases hrun.symm.trans (hidle hop)
    · exact .inr (by rw [List.any_append, hrest, Bool.or_true])
  · rw [setOps_self, List.all_append, hunsynced.2, Bool.and_true]
    rcases hsyncs with hp | ⟨rfl, hrun⟩
    · exact hp
    · cases hrun.symm.trans (hidle rfl)

/-- An engine that is shut stays so until a start. -/
theorem Shut.step {s s' : State} {label : Label} (hs : s.Shut) (hr : s.Reachable)
    (hstart : label ≠ .call .startWithIo) (hsync : label ≠ .call .syncSocketBlock)
    (hstep : s.Step label s') : s'.Shut := by
  have hkeep (hhalted : s.Halted) : s'.Halted := hhalted.step hr hstart hstep
  cases Turn.of_step hr hstep with
  | tick elapsed => exact ⟨hs.halted, hs.cleared, hs.unsynced⟩
  | @call call s' hops hbegin =>
    have hhalted := hs.halted.resolve_right (by simp [hops])
    rcases begin_eq_some hbegin with ⟨rfl, -⟩ | ⟨-, rfl⟩
    · exact absurd rfl hstart
    · refine ⟨.inl (hkeep hhalted), .inl (hs.inactive hops), ?_⟩
      rw [setOps_self]
      cases call <;> first | rfl | exact absurd rfl hsync
  | own hops hexec => exact hs.own hops hexec hkeep
  | other _ _ hui _ _ _ hblock =>
    refine ⟨?_, ?_, hui ▸ hs.unsynced⟩
    · rw [hui]
      exact hs.halted.imp hkeep id
    · rw [hui]
      rcases hblock with he | ⟨-, he⟩ <;> rw [he]
      · exact hs.cleared
      · exact .inl rfl

theorem shut_of_stop {s s' : State} (h : s.step (.call .stop) = some s') : s'.Shut := by
  cases Step.of_step h with
  | call hops hbegin =>
    cases hbegin
    exact ⟨.inr ⟨rfl, rfl⟩, .inr rfl, rfl⟩

theorem shut_of_apply {s s' : State} {command : EngineCommand} (hidle : s.isRunning = false)
    (h : s.step (.call (.apply command)) = some s') : s'.Shut := by
  cases Step.of_step h with
  | call hops hbegin =>
    cases hbegin
    exact ⟨.inl (.inr ⟨hidle, rfl⟩), .inr rfl, rfl⟩

/-- An owner who asks whether the engine runs, and hears that it does not, shuts it. -/
theorem shut_of_asks {s : State} (hr : s.Reachable) {op : Op} {rest : List Op}
    (hops : s.ops .ui = op :: rest) (hop : op.asks) (hclears : op.clears)
    (hidle : s.isRunning = false) : s.Shut where
  halted := .inl (halted_of_not_running hr hops (by cases op <;> first | rfl | cases hop) hidle)
  cleared := .inr (by rw [hops, List.any_cons, hclears, Bool.true_or])
  unsynced := by
    have hscript := hr.resynced .ui
    rw [hops] at hscript ⊢
    rw [List.all_cons, hscript.2.1, Bool.and_true]
    cases op <;> first | rfl | cases hop

end State

/-- The operations of a snapshot that found the engine not to run. -/
def Op.reports : Op → Bool
  | .snapshotBlock running => !running
  | .snapshotPids snapshot | .snapshotDownload snapshot | .snapshotUpload snapshot
  | .snapshotCounters snapshot => !snapshot.running
  | _ => false

namespace State

/-- A snapshot since the start, or the one under way, reports that the engine does not run. -/
def Reported (s : State) : Prop :=
  (s.ops .ui).any Op.reports ∨ ∃ snapshot ∈ s.snapshots, snapshot.running = false

theorem check_reports (s : State) (c : Check) :
    (s.check c).all (!·.reports) ∨ c = .snapshot ∧ s.isRunning = false := by
  cases c <;> simp only [check]
  case snapshot => cases hrun : s.isRunning <;> simp [Op.reports]
  all_goals repeat' split
  all_goals simp [recordDrop, fail, drainQueue, Op.reports]

theorem exec_reports {s s' : State} {t : Tid} {env : Env} {op : Op} {pushed : List Op}
    (h : s.exec t env op = some (.next s' pushed)) :
    pushed.all (!·.reports) ∨ op.reports ∨ op = .check .snapshot ∧ s.isRunning = false := by
  cases op
  case check c =>
    cases h
    exact (check_reports s c).imp id fun hc => .inr (hc.imp (congrArg Op.check) id)
  case ioSend p =>
    left
    simp only [exec, ioSend] at h
    split at h <;> cases h
    · obtain ⟨tallies, ht⟩ := recordBytes_eq_map p.pid p.direction p.chargeLen
      simp [ht, Op.reports]
    · split <;> simp [recordDrop, fail, drainQueue, Op.reports]
  case snapshotBlock | snapshotPids | snapshotDownload | snapshotUpload =>
    cases h
    simp [Op.reports]
  all_goals
    left
    simp only [exec, dispatch, senderLoop, tryQueue] at h
    repeat' split at h
    all_goals
      cases h <;> simp [recordDrop, send, stop, drainQueue, discardPending, fail, Op.reports]

/-- A new report comes from an owner who found that the engine does not run. -/
theorem Reported.back {s s' : State} {label : Label} (hr : s.Reachable)
    (hstep : s.Step label s') (h : s'.Reported) :
    s.Reported ∨ s.isRunning = false ∧ ∃ rest, s.ops .ui = .check .snapshot :: rest := by
  cases Turn.of_step hr hstep with
  | tick elapsed => exact .inl h
  | @call call s' hops hbegin =>
    left
    rcases begin_eq_some hbegin with ⟨rfl, -, rfl⟩ | ⟨-, rfl⟩
    · rcases h with hany | ⟨snapshot, hm, -⟩
      · rw [setOps_self] at hany
        cases hany
      · cases hm
    · rcases h with hany | hsnapshot
      · rw [setOps_self] at hany
        cases call <;> cases hany
      · exact .inr hsnapshot
  | @own env op rest pushed s₁ hops hexec =>
    have hrest : (op :: rest).any Op.reports → s.Reported := fun hany => .inl (hops ▸ hany)
    rcases h with hany | ⟨snapshot, hm, hfalse⟩
    · rw [setOps_self, List.any_append, Bool.or_eq_true] at hany
      rcases hany with hany | hany
      · rcases exec_reports hexec with hp | hop | ⟨rfl, hidle⟩
        · obtain ⟨op', hm, hop'⟩ := List.any_eq_true.mp hany
          have hnot := List.all_eq_true.mp hp op' hm
          rw [hop'] at hnot
          cases hnot
        · exact .inl (hrest (by rw [List.any_cons, hop, Bool.true_or]))
        · exact .inr ⟨hidle, rest, hops⟩
      · exact .inl (hrest (by rw [List.any_cons, hany, Bool.or_true]))
    · left
      rcases exec_snapshots hexec with he | ⟨old, new, rfl, he, hrunning⟩
      · exact .inr ⟨snapshot, he ▸ hm, hfalse⟩
      · have hm' : snapshot ∈ s.snapshots ++ [new] := he ▸ hm
        rcases List.mem_append.mp hm' with hm | hm
        · exact .inr ⟨snapshot, hm, hfalse⟩
        · obtain rfl := List.mem_singleton.mp hm
          refine hrest ?_
          simp [Op.reports, ← hrunning, hfalse]
  | other _ _ hui _ hsnapshots _ _ =>
    rw [Reported, hui, hsnapshots] at h
    exact .inl h

end State

/-- The operations of a stop up to the one that drops the worker. -/
def Op.leaves : Op → Bool
  | .check c => match c with
    | .stop => true
    | _ => false
  | .joinWorker | .joinSender | .takeActiveWorker => true
  | _ => false

namespace State

/-- The engine has no worker, or a stop is about to drop it. -/
def Leaving (s : State) : Prop := s.activeWorker = false ∨ (s.ops .ui).any Op.leaves

theorem exec_leaves {s s' : State} {t : Tid} {env : Env} {op : Op} {pushed : List Op}
    (hop : op.leaves) (h : s.exec t env op = some (.next s' pushed)) :
    s'.activeWorker = false ∨ pushed.any Op.leaves := by
  cases op
  case check c =>
    cases h
    cases c
    case stop => simp [check, Op.leaves]
    all_goals cases hop
  case joinWorker | joinSender =>
    simp only [exec, Option.ite_none_left_eq_some] at h
    obtain ⟨-, h⟩ := h
    cases h
    exact .inr rfl
  case takeActiveWorker =>
    cases h
    exact .inl rfl
  all_goals cases hop

theorem Leaving.step {s s' : State} {label : Label} (hs : s.Leaving) (hr : s.Reachable)
    (hstart : label ≠ .call .startWithIo) (hstep : s.Step label s') : s'.Leaving := by
  cases Turn.of_step hr hstep with
  | tick elapsed => exact hs
  | @call call s' hops hbegin =>
    rcases begin_eq_some hbegin with ⟨rfl, -⟩ | ⟨-, rfl⟩
    · exact absurd rfl hstart
    · exact .inl (hs.resolve_right (by simp [hops]))
  | @own env op rest pushed s₁ hops hexec =>
    rw [Leaving, setOps_self, List.any_append, Bool.or_eq_true]
    rw [Leaving, hops, List.any_cons, Bool.or_eq_true] at hs
    rcases hs with hactive | hop | hrest
    · by_cases htake : op = .takeActiveWorker
      · subst htake
        cases hexec
        exact .inl rfl
      · exact .inl ((exec_activeWorker htake hexec).trans hactive)
    · exact (exec_leaves hop hexec).imp id .inl
    · exact .inr (.inr hrest)
  | other _ _ hui _ _ hactive _ =>
    rw [Leaving, hui, hactive]
    exact hs

/-- With the worker dropped, no thread but the owner has anything to do. -/
theorem ops_of_inactive {s : State} (hr : s.Reachable) (h : s.activeWorker = false) {t : Tid}
    (ht : t ≠ .ui) : s.ops t = [] := by
  obtain ⟨hw, hsd⟩ := hr.handles.stopped h
  cases t with
  | receiver => exact hr.handles.worker hw
  | sender => exact hr.handles.sender hsd
  | ui => exact absurd rfl ht

end State

end FlowBrake.Windows
