import FlowBrake.Windows.Engine.Owner
import FlowBrake.Windows.Engine.Shut

/-! The installed socket filter is the one that the rules ask for. -/
namespace FlowBrake.Windows
open FlowBrake.Core Transition

/-- The filter that the rules ask for. -/
def Policy.filter (policy : Policy) : Option Text :=
  socketBlockFilter policy.globalRule policy.rules

namespace SocketBlock

/-- An active filter comes without an error. -/
def Sound (block : SocketBlock) : Prop := block.active.isSome → block.error = none

/-- An active filter is that of the rules. -/
def Matches (block : SocketBlock) (policy : Policy) : Prop :=
  ∀ filter ∈ block.active, policy.filter = some filter

/-- The filter that the rules ask for is active, or there is an error. -/
def Covers (block : SocketBlock) (policy : Policy) : Prop :=
  policy.filter.isSome → block.active.isSome ∨ block.error.isSome

theorem matches_of_inactive {block : SocketBlock} {policy : Policy} (h : block.active = none) :
    block.Matches policy := by
  intro filter hm
  rw [h] at hm
  cases hm

end SocketBlock

theorem syncSocketBlock_spec {block : SocketBlock} (h : block.Sound) (policy : Policy)
    (opened : Option Text) :
    (syncSocketBlock policy block opened).Sound ∧
      (syncSocketBlock policy block opened).Matches policy ∧
      (syncSocketBlock policy block opened).Covers policy := by
  unfold syncSocketBlock
  cases hf : socketBlockFilter policy.globalRule policy.rules with
  | none => simp [SocketBlock.Sound, SocketBlock.Matches, SocketBlock.Covers, Policy.filter, hf]
  | some filter =>
    simp only
    split
    · next hactive =>
      refine ⟨h, fun other hm => ?_, fun _ => .inl (by rw [hactive]; rfl)⟩
      rw [hactive] at hm
      cases hm
      exact hf
    · cases opened <;>
        simp [SocketBlock.Sound, SocketBlock.Matches, SocketBlock.Covers, Policy.filter, hf]

/-- A filter is asked for exactly where a rule blocks. -/
theorem filter_isSome_iff (policy : Policy) : policy.filter.isSome ↔
    policy.globalRule.blockAll ∨
      ∃ (pid : UInt32) (rule : ProcessRule), policy.rules[pid]? = some rule ∧ rule.blockAll := by
  unfold Policy.filter socketBlockFilter
  cases hglobal : policy.globalRule.blockAll with
  | true => simp
  | false =>
    simp only [Bool.false_eq_true, if_false, false_or]
    have hpids : (policy.rules.toList.filterMap fun x : UInt32 × ProcessRule =>
        if x.2.blockAll then some x.1 else none).isEmpty = false ↔
        ∃ (pid : UInt32) (rule : ProcessRule),
          policy.rules[pid]? = some rule ∧ rule.blockAll := by
      rw [List.isEmpty_eq_false_iff, ne_eq, List.filterMap_eq_nil_iff]
      simp [Std.ExtTreeMap.mem_toList_iff_getElem?_eq_some]
    rw [← hpids]
    split
    · next hempty => simp [hempty]
    · next hsome => simp [hsome]

namespace State

theorem Reachable.sound {s : State} (h : s.Reachable) : s.status.socketBlock.Sound := by
  refine h.invariant (I := fun s => s.status.socketBlock.Sound) ?_ ?_
  · intro hactive
    cases hactive
  intro s label s' hr hs hstep
  cases Turn.of_step hr hstep with
  | tick elapsed => exact hs
  | call hops hbegin =>
    rcases begin_eq_some hbegin with ⟨-, -, rfl⟩ | ⟨-, rfl⟩ <;> exact hs
  | own hops hexec =>
    rcases exec_socketBlock hexec with he | ⟨-, he⟩ | ⟨-, he⟩ | ⟨running, -, he⟩ <;>
      refine (congrArg SocketBlock.Sound he).mpr ?_
    · exact hs
    · intro hactive
      cases hactive
    · exact (syncSocketBlock_spec hs _ _).1
    · intro hactive
      cases running with
      | true => exact hs hactive
      | false => cases hactive
  | other _ _ _ _ _ _ hblock =>
    rcases hblock with he | ⟨-, he⟩ <;> rw [he]
    · exact hs
    · intro hactive
      cases hactive

/-- The filter is that of the rules, or an update of it is still to come. -/
def Current (s : State) : Prop :=
  (s.ops .ui).any Op.resyncs ∨
    s.status.socketBlock.Matches s.policy ∧ (s.Halted ∨ s.status.socketBlock.Covers s.policy)

theorem exec_resyncs {s s' : State} {t : Tid} {env : Env} {op : Op} {pushed : List Op}
    (hop : op.resyncs) (h : s.exec t env op = some (.next s' pushed)) :
    pushed.any Op.resyncs ∨ op = .syncSocketBlock ∨ op = .note .clearSocketBlock := by
  cases op
  case check c =>
    cases h
    left
    cases c
    case apply command => simp [check, Op.resyncs]
    case applySync =>
      simp only [check]
      split <;> rfl
    all_goals cases hop
  case syncSocketBlock => exact .inr (.inl rfl)
  case note note => cases note <;> first | exact .inr (.inr rfl) | cases hop
  all_goals cases hop

theorem Current.own {s s' : State} (hs : s.Current) (hr : s.Reachable) {env : Env} {op : Op}
    {rest pushed : List Op} (hops : s.ops .ui = op :: rest)
    (hexec : s.exec .ui env op = some (.next s' pushed))
    (hnone : (pushed ++ rest).any Op.resyncs = false) :
    s'.status.socketBlock.Matches s'.policy ∧
      (s.Halted ∨ s'.status.socketBlock.Covers s'.policy) := by
  rw [List.any_append, Bool.or_eq_false_iff] at hnone
  by_cases hsync : op = .syncSocketBlock
  · subst hsync
    cases hexec
    exact (syncSocketBlock_spec hr.sound _ _).2.imp id .inr
  by_cases hclear : op = .note .clearSocketBlock
  · subst hclear
    cases hexec
    exact ⟨SocketBlock.matches_of_inactive rfl, .inl (hr.halted .ui (by rw [hops]; rfl))⟩
  have hre : op.resyncs = false := by
    by_contra hre
    rcases exec_resyncs (by simpa using hre) hexec with hp | hp | hp
    · cases hp.symm.trans hnone.1
    · exact hsync hp
    · exact hclear hp
  have hold := hs.resolve_left (by simp [hops, hre, hnone.2])
  have hpolicy : s'.policy = s.policy := by
    rcases exec_policy hexec with hpolicy | ⟨edit, rfl, -⟩
    · exact hpolicy
    · cases ((hops ▸ hr.resynced .ui).1 ⟨edit, rfl⟩).symm.trans hnone.2
  rw [hpolicy]
  rcases exec_socketBlock hexec with he | ⟨hop, -⟩ | ⟨hop, -⟩ | ⟨running, rfl, he⟩
  · rwa [show s'.status.socketBlock = s.status.socketBlock from he]
  · exact absurd hop hclear
  · exact absurd hop hsync
  · rw [show s'.status.socketBlock = _ from he]
    cases running with
    | true => exact hold
    | false =>
      exact ⟨SocketBlock.matches_of_inactive rfl, .inl (hr.halted .ui (by rw [hops]; rfl))⟩

/-- What keeps the filter current, given that the engine is started with a current one. -/
theorem Current.step {s s' : State} {label : Label} (hs : s.Current) (hr : s.Reachable)
    (hstart : label = .call .startWithIo → s.status.socketBlock.Covers s.policy)
    (hstep : s.Step label s') : s'.Current := by
  by_cases hlabel : label = .call .startWithIo
  · subst hlabel
    have hcovers := hstart rfl
    cases hstep with
    | call hops hbegin =>
      have hmatches := (hs.resolve_left (by simp [hops])).1
      rcases begin_eq_some hbegin with ⟨-, -, rfl⟩ | ⟨hcall, -⟩
      · exact .inr ⟨hmatches, .inr hcovers⟩
      · exact absurd rfl hcall
  have hkeep (hhalted : s.Halted) : s'.Halted := hhalted.step hr hlabel hstep
  cases Turn.of_step hr hstep with
  | tick elapsed => exact hs
  | @call call s' hops hbegin =>
    obtain ⟨hmatches, hcovers⟩ := hs.resolve_left (by simp [hops])
    rcases begin_eq_some hbegin with ⟨rfl, -⟩ | ⟨-, rfl⟩
    · exact absurd rfl hlabel
    · exact .inr ⟨hmatches, hcovers.imp hkeep id⟩
  | @own env op rest pushed s₁ hops hexec =>
    by_cases hpending : (pushed ++ rest).any Op.resyncs
    · exact .inl (by rwa [setOps_self])
    · exact .inr ((hs.own hr hops hexec (by simpa using hpending)).imp id (Or.imp hkeep id))
  | other _ _ hui hpolicy _ _ hblock =>
    rw [Current, hui, hpolicy]
    refine hs.imp id fun hs => ?_
    rcases hblock with he | ⟨hhalted, he⟩ <;> rw [he]
    · exact hs.imp id (Or.imp hkeep id)
    · exact ⟨SocketBlock.matches_of_inactive rfl, .inl (hkeep hhalted)⟩

end State

namespace Owner

/-- What the owner can rely on in each phase of `start`. -/
structure Tracks (o : Owner) : Prop where
  current : o.engine.Current
  reported : o.phase ≠ .syncing → o.engine.Reported → o.engine.Shut
  stopping : o.phase = .stopping → o.engine.Shut ∧ o.engine.Leaving
  syncing : o.phase = .syncing → o.engine.activeWorker = false ∧ o.engine.Halted ∧
    (o.engine.ops .ui = [.syncSocketBlock] ∨
      o.engine.ops .ui = [] ∧ o.engine.status.socketBlock.Covers o.engine.policy)

theorem Tracks.reported_step {o : Owner} (ho : o.Tracks) (hr : o.engine.Reachable)
    (hphase : o.phase ≠ .syncing) {label : Label} (hstart : label ≠ .call .startWithIo)
    (hsync : label ≠ .call .syncSocketBlock) {s : State} (hstep : o.engine.Step label s)
    (h : s.Reported) : s.Shut := by
  rcases h.back hr hstep with hold | ⟨hidle, rest, hops⟩
  · exact (ho.reported hphase hold).step hr hstart hsync hstep
  · exact (State.shut_of_asks hr hops rfl rfl hidle).step hr hstart hsync hstep

/-- Between the calls of a start only the sync itself is left to run. -/
theorem Tracks.syncing_step {o : Owner} (ho : o.Tracks) (hr : o.engine.Reachable)
    (hphase : o.phase = .syncing) {label : Label} (hcall : ∀ call, label ≠ .call call) {s : State}
    (hstep : o.engine.Step label s) : s.activeWorker = false ∧ s.Halted ∧
      (s.ops .ui = [.syncSocketBlock] ∨
        s.ops .ui = [] ∧ s.status.socketBlock.Covers s.policy) := by
  obtain ⟨hactive, hhalted, hops'⟩ := ho.syncing hphase
  have hhalted' := hhalted.step hr (hcall _) hstep
  cases State.Turn.of_step hr hstep with
  | tick elapsed => exact ⟨hactive, hhalted', hops'⟩
  | call _ _ => exact absurd rfl (hcall _)
  | own hops hexec =>
    rcases hops' with hsync | ⟨hnil, -⟩
    · obtain ⟨rfl, rfl⟩ := List.cons.inj (hops.symm.trans hsync)
      cases hexec
      refine ⟨hactive, hhalted', .inr ⟨State.setOps_self _ _ _, ?_⟩⟩
      exact (syncSocketBlock_spec hr.sound _ _).2.2
    · cases hops.symm.trans hnil
  | other hbusy ht => exact absurd (State.ops_of_inactive hr hactive ht) hbusy

theorem Tracks.background {o : Owner} (ho : o.Tracks) (hr : o.engine.Reachable) {label : Label}
    (hcall : ∀ call, label ≠ .call call) {s : State} (hs : o.engine.step label = some s) :
    Tracks { o with engine := s } where
  current := ho.current.step hr (fun h => absurd h (hcall _)) (.of_step hs)
  reported hphase h := ho.reported_step hr hphase (hcall _) (hcall _) (.of_step hs) h
  stopping hphase :=
    have ⟨hshut, hleaving⟩ := ho.stopping hphase
    ⟨hshut.step hr (hcall _) (hcall _) (.of_step hs), hleaving.step hr (hcall _) (.of_step hs)⟩
  syncing hphase := ho.syncing_step hr hphase hcall (.of_step hs)

theorem Reachable.tracks {o : Owner} (h : o.Reachable) : o.Tracks := by
  refine h.invariant (I := Tracks) ?_ ?_
  · refine ⟨.inr ⟨SocketBlock.matches_of_inactive rfl, .inl (.inr ⟨rfl, rfl⟩)⟩, ?_, ?_, ?_⟩
    · rintro - (hany | ⟨snapshot, hm, -⟩)
      · cases hany
      · cases hm
    · intro hphase
      cases hphase
    · intro hphase
      cases hphase
  intro o label o' hro ho hstep
  have hr := hro.engine
  cases hstep with
  | run hs => exact ho.background hr (by simp) hs
  | tick hs => exact ho.background hr (by simp) hs
  | @call call s hphase hpublic hs =>
    have hne {call' : UiCall} (hprivate : call'.isPublic = false) :
        Label.call call ≠ .call call' := by
      rintro heq
      cases heq
      cases hpublic.symm.trans hprivate
    refine ⟨ho.current.step hr (fun heq => absurd heq (hne rfl)) (.of_step hs), fun _ h => ?_,
      fun hp => ?_, fun hp => ?_⟩
    · exact ho.reported_step hr (by simp [hphase]) (hne rfl) (hne rfl) (.of_step hs) h
    · cases hphase.symm.trans hp
    · cases hphase.symm.trans hp
  | running _ _ => exact ho
  | start _ _ hs =>
    have hshut := State.shut_of_stop hs
    refine ⟨ho.current.step hr (by simp) (.of_step hs), fun _ _ => hshut, fun _ => ⟨hshut, ?_⟩,
      fun hp => ?_⟩
    · cases State.Step.of_step hs with
      | call _ hbegin =>
        cases hbegin
        exact .inr rfl
    · cases hp
  | unopened hphase _ =>
    refine ⟨ho.current, fun _ => ho.reported (by simp [hphase]), fun hp => ?_, fun hp => ?_⟩
    · cases hp
    · cases hp
  | opened hphase hnil hs =>
    obtain ⟨hshut, hleaving⟩ := ho.stopping hphase
    refine ⟨ho.current.step hr (by simp) (.of_step hs), fun hp => absurd rfl hp, fun hp => ?_,
      fun _ => ?_⟩
    · cases hp
    · have hhalted := hshut.halted.resolve_right (by simp [hnil])
      have hactive := hleaving.resolve_right (by simp [hnil])
      have hhalted' := hhalted.step hr (by simp) (.of_step hs)
      cases State.Step.of_step hs with
      | call _ hbegin =>
        cases hbegin
        exact ⟨hactive, hhalted', .inl (State.setOps_self _ _ _)⟩
  | unsynced hphase hnil herror =>
    have hnone : o.engine.status.socketBlock.active = none := by
      by_contra hactive
      have hsound := hr.sound (Option.ne_none_iff_isSome.mp hactive)
      rw [hsound] at herror
      cases herror
    refine ⟨ho.current, fun _ _ => ?_, fun hp => ?_, fun hp => ?_⟩
    · exact ⟨.inl (ho.syncing hphase).2.1, .inl hnone, by simp [hnil]⟩
    · cases hp
    · cases hp
  | synced hphase hnil hs =>
    obtain ⟨-, -, hops⟩ := ho.syncing hphase
    have hcovers := (hops.resolve_left (by simp [hnil])).2
    refine ⟨ho.current.step hr (fun _ => hcovers) (.of_step hs), fun _ h => ?_, fun hp => ?_,
      fun hp => ?_⟩
    · cases State.Step.of_step hs with
      | call _ hbegin =>
        rcases State.begin_eq_some hbegin with ⟨-, -, rfl⟩ | ⟨hcall, -⟩
        · rcases h with hany | ⟨snapshot, hm, -⟩
          · rw [State.setOps_self] at hany
            cases hany
          · cases hm
        · exact absurd rfl hcall
    · cases hp
    · cases hp

/-- Until the next start, an engine that is shut stays so. -/
theorem shut_of_runs {o o' : Owner} {labels : List OwnerLabel} (hr : o.Reachable)
    (hrun : Runs o labels o') (hidle : o.phase = .idle) (hshut : o.engine.Shut)
    (hlabels : .start ∉ labels) : o'.engine.Shut := by
  refine (hrun.preserves_of_labels (I := fun o => o.Reachable ∧ o.phase = .idle ∧ o.engine.Shut)
    (P := (· ≠ .start)) ?_ ?_ ⟨hr, hidle, hshut⟩).2.2
  · intro o label o' ho hlabel hstep
    obtain ⟨hr, hidle, hshut⟩ := ho
    refine ⟨hr.next hstep, ?_⟩
    cases Step.of_step hstep with
    | run hs => exact ⟨hidle, hshut.step hr.engine (by simp) (by simp) (.of_step hs)⟩
    | tick hs => exact ⟨hidle, hshut.step hr.engine (by simp) (by simp) (.of_step hs)⟩
    | call _ hpublic hs =>
      refine ⟨hidle, hshut.step hr.engine ?_ ?_ (.of_step hs)⟩
      · rintro ⟨rfl⟩
        cases hpublic
      · rintro ⟨rfl⟩
        cases hpublic
    | running _ _ | start _ _ _ => exact absurd rfl hlabel
    | unopened hphase _ | opened hphase _ _ | unsynced hphase _ _ | synced hphase _ _ =>
      cases hidle.symm.trans hphase
  · rintro label hm rfl
    exact hlabels hm

/-- The calls after which no filter is active until the next start; `o'` is a later state. -/
inductive Ends (o : Owner) : OwnerLabel → Owner → Prop
  | stop (o' : Owner) : Ends o (.call .stop) o'
  | apply (command : EngineCommand) (o' : Owner) : o.engine.isRunning = false →
      Ends o (.call (.apply command)) o'
  /-- The engine fails in the course of the call. -/
  | applying (env : Env) (o' : Owner) : o.phase = .idle →
      o.engine.ops .ui = [.check .applySync] → o.engine.isRunning = false →
      Ends o (.run .ui env) o'
  | snapshot {snapshot : EngineSnapshot} {o' : Owner} :
      o'.engine.snapshots[o.engine.snapshots.length]? = some snapshot →
      snapshot.running = false → Ends o (.call .snapshotAndReset) o'

/-- Between calls, an active filter is the one that the rules ask for and comes without an error,
a running engine that is to block has that filter or an error, and after a stop, an apply or a
snapshot that finds the engine not to run, there is no filter until the next start. -/
theorem socket_block_tracks {o : Owner} (hr : o.Reachable) :
    (o.Between →
      (∀ filter, o.engine.status.socketBlock.active = some filter →
        socketBlockFilter o.engine.policy.globalRule o.engine.policy.rules = some filter ∧
          o.engine.status.socketBlock.error = none) ∧
      (o.engine.isRunning → (o.engine.policy.globalRule.blockAll ∨
          ∃ (pid : UInt32) (rule : ProcessRule),
            o.engine.policy.rules[pid]? = some rule ∧ rule.blockAll) →
        o.engine.status.socketBlock.active =
            socketBlockFilter o.engine.policy.globalRule o.engine.policy.rules ∨
          o.engine.status.socketBlock.error.isSome)) ∧
    ∀ (label : OwnerLabel) (labels : List OwnerLabel) (o' : Owner),
      Runs o (label :: labels) o' → .start ∉ labels → o'.Between → o.Ends label o' →
      o'.engine.status.socketBlock.active = none := by
  constructor
  · rintro ⟨-, hops⟩
    obtain ⟨hmatches, hcovers⟩ := hr.tracks.current.resolve_left (by simp [hops])
    refine ⟨fun filter hactive => ⟨hmatches filter hactive, ?_⟩, fun hrun hblock => ?_⟩
    · exact hr.engine.sound (by rw [hactive]; rfl)
    · have hcovers' := hcovers.resolve_left fun hhalted => by
        cases hhalted.not_running.symm.trans hrun
      refine (hcovers' ((filter_isSome_iff _).mpr hblock)).imp (fun hactive => ?_) id
      obtain ⟨filter, hfilter⟩ := Option.isSome_iff_exists.mp hactive
      rw [hfilter]
      exact (hmatches filter hfilter).symm
  · intro label labels o' hrun hlabels hbetween hends
    obtain ⟨hidle', hops'⟩ := hbetween
    cases hrun with
    | @cons _ o₁ _ _ _ hstep hrun =>
      have hr₁ := hr.next hstep
      cases hends with
      | stop =>
        cases Step.of_step hstep with
        | call hidle _ hs =>
          exact (shut_of_runs hr₁ hrun hidle (State.shut_of_stop hs) hlabels).inactive hops'
      | apply command _ hnot =>
        cases Step.of_step hstep with
        | call hidle _ hs =>
          exact (shut_of_runs hr₁ hrun hidle (State.shut_of_apply hnot hs) hlabels).inactive hops'
      | applying env _ hidle hops hnot =>
        have hshut := State.shut_of_asks hr.engine hops rfl rfl hnot
        exact (shut_of_runs hr (.cons hstep hrun) hidle hshut (by simp [hlabels])).inactive hops'
      | snapshot hsnapshot hnot =>
        have hreach : o'.Reachable := Transition.Reachable.run hr₁ hrun
        have hreported : o'.engine.Reported := .inr ⟨_, List.mem_of_getElem? hsnapshot, hnot⟩
        exact (hreach.tracks.reported (by simp [hidle']) hreported).inactive hops'

/-- A start, `SetGlobalRule` with a block, and a fatal receive error up to the mark as stopping. -/
def failedWorkerRun : List OwnerLabel :=
  let failed : Env := { recv := .error ⟨some 6, "handle".toList⟩ }
  [.start] ++ List.replicate 10 (.run .ui {}) ++ [.openDivert true, .run .ui {}, .synced]
    ++ List.replicate 2 (.run .ui {}) ++ [.call (.apply (.setGlobalRule { blockAll := true }))]
    ++ List.replicate 11 (.run .ui {}) ++ List.replicate 9 (.run .receiver failed)

def snapshotRun : List OwnerLabel := List.replicate 8 (.run .ui {})

set_option maxRecDepth 4000 in
theorem socket_block_tracks_failedWorkerRun : ∃ o o' : Owner,
    follow {} failedWorkerRun = some o ∧
    o.follow (.call .snapshotAndReset :: snapshotRun) = some o' ∧
    socketBlockFilter o.engine.policy.globalRule o.engine.policy.rules =
      some "!loopback and (event == CONNECT or event == ACCEPT)".toList ∧
    o.engine.status.socketBlock.error = none ∧
    o'.engine.status.socketBlock.active = none := by
  have hrun : ∃ o o', follow {} failedWorkerRun = some o ∧
      o.follow (.call .snapshotAndReset :: snapshotRun) = some o' ∧ o.Between ∧ o'.Between ∧
      o.engine.status.socketBlock.active =
        some "!loopback and (event == CONNECT or event == ACCEPT)".toList ∧
      ∃ snapshot, o'.engine.snapshots[o.engine.snapshots.length]? = some snapshot ∧
        snapshot.running = false :=
    ⟨_, _, rfl, rfl, ⟨rfl, rfl⟩, ⟨rfl, rfl⟩, rfl, _, rfl, rfl⟩
  obtain ⟨o, o', hrun, hrun', hbetween, hbetween', hactive, snapshot, hsnapshot, hnot⟩ := hrun
  have hr : o.Reachable := ⟨{}, _, rfl, Runs.of_follow hrun⟩
  obtain ⟨hcalls, hends⟩ := socket_block_tracks hr
  obtain ⟨hfilter, herror⟩ := (hcalls hbetween).1 _ hactive
  refine ⟨o, o', hrun, hrun', hfilter, herror, ?_⟩
  exact hends _ _ _ (Runs.of_follow hrun') (by simp [snapshotRun]) hbetween'
    (.snapshot hsnapshot hnot)

end Owner

end FlowBrake.Windows
