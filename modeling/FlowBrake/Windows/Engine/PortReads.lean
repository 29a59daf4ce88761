import FlowBrake.Windows.Engine.PortKnowledge

/-! A packet is attributed by a recent read of the tables of ports, and the tables are read
rarely. -/
namespace FlowBrake.Windows
open FlowBrake.Core Transition

section SetUp

/-- What is left of the receiver's program while it is set up. -/
def recvProgram : RecvInit → List Op
  | .ports => runWorker true
  | .clock => [.recvInit .clock, .recvInit .revision, .recv] ++ recvDone
  | .revision => [.recvInit .revision, .recv] ++ recvDone

/-- The operations that set the receiver up. -/
def Op.setsUp : Op → Bool
  | .recvInit _ => true
  | _ => false

namespace State
variable {s s' : State} {t : Tid} {env : Env} {op : Op} {rest pushed : List Op}

theorem exec_setsUp (h : s.exec t env op = some (.next s' pushed)) :
    pushed.all (!·.setsUp) := by
  cases op
  case check c =>
    cases h
    cases c <;> simp only [check]
    all_goals repeat' split
    all_goals simp [Op.setsUp, recordDrop, fail, drainQueue]
  case ioSend p =>
    simp only [exec, ioSend] at h
    split at h <;> cases h
    · obtain ⟨tallies, ht⟩ := recordBytes_eq_map p.pid p.direction p.chargeLen
      simp [ht, Op.setsUp]
    · split <;> simp [Op.setsUp, recordDrop, fail, drainQueue]
  all_goals
    simp only [exec, dispatch, senderLoop, tryQueue] at h
    repeat' split at h
    all_goals
      cases h <;> simp [Op.setsUp, recordDrop, send, stop, drainQueue, discardPending, fail]

/-- A receiver is set up before anything else, and once. -/
def SetUp (ops : List Op) : Prop :=
  (∃ init, ops = recvProgram init) ∨ ops.all (!·.setsUp)

theorem exec_setUp (hs : SetUp (op :: rest)) (h : s.exec t env op = some (.next s' pushed)) :
    SetUp (pushed ++ rest) := by
  rcases hs with ⟨init, hinit⟩ | hnone
  · cases init <;> cases hinit <;> cases h
    · exact .inl ⟨.clock, rfl⟩
    · exact .inl ⟨.revision, rfl⟩
    · exact .inr rfl
  · rw [List.all_cons, Bool.and_eq_true] at hnone
    exact .inr (List.all_append.trans (Bool.and_eq_true_iff.mpr ⟨exec_setsUp h, hnone.2⟩))

theorem afterPanic_setsUp (s : State) (t : Tid) :
    (s.unwind t ++ afterPanic t).all (!·.setsUp) := by
  have hunwind : (s.unwind t).all (!·.setsUp) := by
    unfold unwind
    split <;> split <;> rfl
  rw [List.all_append, hunwind, Bool.true_and]
  cases t <;> rfl

theorem Reachable.setUp (hr : s.Reachable) : SetUp (s.ops .receiver) := by
  refine hr.programs (P := fun t ops => t = .receiver → SetUp ops) (fun _ _ => .inr rfl)
    (fun _ h => ?_) (fun h => ?_) (fun _ => .inl ⟨.ports, rfl⟩)
    (fun hs hexec ht => exec_setUp (hs ht) hexec) (fun {_ s' _ _ _ _} _ _ _ => ?_) .receiver rfl
  · cases h
  · cases h
  · exact .inr (s'.afterPanic_setsUp _)

end State

end SetUp

section Freshness

/-- What the receiver knows, also in the middle of its work on the tables. -/
def ReadLog.Informed (log : ReadLog) (view : PortView) : Prop :=
  match log.phase with
  | .settled => Knows log.reads view
  | .stamping revision => ∃ read older, log.reads = read :: older ∧ read.cause = .outdated ∧
      read.known = revision ∧ read.ports = view.portPid
  | .seeking endpoint => ∃ unresolved, view.unresolvedPorts = endpoint :: unresolved ∧
      endpoint ∉ unresolved ∧ view.portPid endpoint.1 endpoint.2.1 endpoint.2.2 = none ∧
      Knows log.reads { view with unresolvedPorts := unresolved }

/-- What it knows at an operation. -/
def Op.Informed (log : ReadLog) (view : PortView) : Op → Prop
  | .recvInit .ports => True
  | .recvInit .clock => ∃ read, log.reads = [read] ∧ read.cause = .started ∧
      read.ports = view.portPid ∧ view.unresolvedPorts = []
  | .recvInit .revision => ∃ read, log.reads = [read] ∧ read.cause = .started ∧
      read.ports = view.portPid ∧ view.unresolvedPorts = [] ∧ read.clock = view.lastMapRefresh
  | _ => log.Informed view

/-- Where an operation is in the work on the tables. -/
def Op.phase : Op → ReadPhase
  | .stage (.refreshed _ revision) => .stamping revision
  | .stage (.resolve p) => .seeking p.endpoint
  | _ => .settled

/-- What the receiver holds in its hands is as fresh as its knowledge of the tables. -/
def Hand.Fresh (log : ReadLog) (view : PortView) (now : Instant) (revision : ℕ) : Hand → Prop
  | fresh c => c.receivedAt ≤ now ∧ log.revisions c.capture ≤ revision
  | checked c loaded => c.receivedAt ≤ now ∧ log.revisions c.capture ≤ loaded ∧
      loaded ≤ revision ∧ view.ruleRevision ≤ loaded
  | outdated c loaded => c.receivedAt ≤ now ∧ log.revisions c.capture ≤ loaded ∧
      loaded ≤ revision ∧ view.ruleRevision ≤ loaded ∧
      (view.lastMapRefresh + portMapRefresh ≤ now ∨ view.ruleRevision < loaded)
  | stamping c loaded => log.phase = .stamping loaded ∧ c.receivedAt ≤ now ∧
      log.revisions c.capture ≤ loaded
  | mapped c => c.receivedAt < view.lastMapRefresh + portMapRefresh ∧
      log.revisions c.capture ≤ view.ruleRevision
  | seeking p => log.phase = .seeking p.endpoint ∧
      p.receivedAt < view.lastMapRefresh + portMapRefresh ∧
      log.revisions p.capture ≤ view.ruleRevision
  | attributed p pid => ∃ read ∈ log.reads, pid = read.pidAt p.endpoint ∧
      p.receivedAt < read.clock + portMapRefresh ∧
      (read.cause = .started ∨ log.revisions p.capture ≤ read.revision)

variable {log : ReadLog} {view : PortView} {now : Instant} {revision : ℕ} {s : State} {env : Env}
  {op : Op}

theorem Op.learns_of_allowed {t : Tid} (h : op.allowed t) (ht : t ≠ .receiver) :
    op.learns = false := by
  cases op
  case recvInit | recv | stage => exact absurd (of_decide_eq_true h) ht
  all_goals rfl

theorem Op.learns_of_lead (h : op.lead) : op.learns = false := by
  cases op
  case recvInit | recv | stage => cases h
  all_goals rfl

theorem Op.phase_of_learns (h : op.learns = false) : op.phase = .settled := by
  cases op
  case stage st =>
    cases st
    case refreshed | resolve => cases h
    all_goals rfl
  all_goals rfl

theorem Op.informed_iff (h : op.setsUp = false) : op.Informed log view ↔ log.Informed view := by
  cases op
  case recvInit => cases h
  all_goals exact Iff.rfl

theorem ReadLog.informed_settled (h : log.phase = .settled) :
    log.Informed view ↔ Knows log.reads view := by
  rw [Informed, h]

theorem ReadLog.after_eq (log : ReadLog) (s : State) (env : Env) (h : op.learns = false) :
    log.after s env op = log := by
  cases op
  case recvInit | recv => cases h
  case stage st =>
    cases st
    case readPorts | refreshed | «attribute» | resolve => cases h
    all_goals rfl
  all_goals rfl

theorem State.viewAfter_eq (s : State) (env : Env) (h : op.learns = false) :
    s.viewAfter env op = s.locals.view := by
  cases op
  case recvInit | recv => cases h
  case stage st =>
    cases st
    case readPorts | refreshed | «attribute» | resolve => cases h
    all_goals rfl
  all_goals rfl

theorem Hand.Fresh.mono {hand : Hand} {now' : Instant} {revision' : ℕ}
    (h : hand.Fresh log view now revision) (hnow : now ≤ now') (hrevision : revision ≤ revision') :
    hand.Fresh log view now' revision' := by
  cases hand with
  | fresh c => exact ⟨h.1.trans hnow, h.2.trans hrevision⟩
  | checked c loaded => exact ⟨h.1.trans hnow, h.2.1, h.2.2.1.trans hrevision, h.2.2.2⟩
  | outdated c loaded =>
    obtain ⟨htime, hcapture, hloaded, hknown, hdue⟩ := h
    exact ⟨htime.trans hnow, hcapture, hloaded.trans hrevision, hknown, hdue.imp (·.trans hnow) id⟩
  | stamping c loaded => exact ⟨h.1, h.2.1.trans hnow, h.2.2⟩
  | mapped c => exact h
  | seeking p => exact h
  | «attributed» p pid => exact h

/-- A map that is not outdated was stamped recently, and is of the revision that was loaded. -/
theorem State.of_not_mapOutdated (h : s.mapOutdated revision = false) :
    s.now < s.locals.lastMapRefresh + portMapRefresh ∧ revision = s.locals.ruleRevision := by
  simp only [mapOutdated, Bool.or_eq_false_iff, decide_eq_false_iff_not, bne_eq_false_iff_eq] at h
  exact ⟨lt_add_of_tsub_lt_left (not_le.mp h.1), h.2⟩

theorem State.of_mapOutdated (hle : s.locals.lastMapRefresh ≤ s.now)
    (h : s.mapOutdated revision = true) :
    s.locals.lastMapRefresh + portMapRefresh ≤ s.now ∨ revision ≠ s.locals.ruleRevision := by
  simp only [mapOutdated, Bool.or_eq_true, decide_eq_true_eq, bne_iff_ne] at h
  exact h.imp (Nat.add_le_of_le_sub' hle) id

theorem State.of_misses {endpoint : Endpoint} (h : s.misses endpoint = true) :
    s.pidAt endpoint = none ∧ endpoint ∉ s.locals.unresolvedPorts := by
  simp only [misses, Bool.and_eq_true, Bool.not_eq_true', Option.isNone_iff_eq_none] at h
  refine ⟨h.1.1, fun hmem => ?_⟩
  rw [List.contains_iff_mem.mpr hmem] at h
  cases h.2

/-- A turn after the receiver was set up. -/
theorem ReadLog.after_informed (env : Env) (hop : op.setsUp = false)
    (h : log.Informed s.locals.view) (hphase : op.phase = log.phase) :
    (log.after s env op).Informed (s.viewAfter env op) := by
  by_cases hlearns : op.learns
  · cases op
    case recvInit => cases hop
    case recv => exact h
    case stage st =>
      unfold Informed at h
      rw [← hphase] at h
      cases st
      case readPorts c loaded => exact ⟨_, _, rfl, rfl, rfl, rfl⟩
      case refreshed c loaded =>
        obtain ⟨read, older, hreads, hcause, hknown, hports⟩ := h
        have hmissed : read.cause.missed? = none := by rw [hcause]; rfl
        simp only [after, stamp, hreads, List.modifyHead_cons, State.viewAfter]
        have hview : s.locals.portPid = read.ports := hports.symm
        rw [hview, ← hknown]
        exact Knows.of_refresh { read with clock := s.now } older hmissed
      case «attribute» p =>
        simp only [after, State.viewAfter]
        split
        · next hmiss =>
          obtain ⟨hnone, hnew⟩ := State.of_misses hmiss
          exact ⟨s.locals.unresolvedPorts, rfl, hnew, hnone, h⟩
        · exact (informed_settled hphase.symm).mpr h
      case resolve p =>
        obtain ⟨unresolved, hunresolved, -, -, hknows⟩ := h
        have hmissed := hknows.missed ⟨.missed p.endpoint, s.now, s.policy.ruleRevision, env.ports,
          s.now, s.locals.ruleRevision⟩ rfl rfl
        rw [← hunresolved] at hmissed
        exact hmissed
      all_goals cases hlearns
    all_goals cases hlearns
  · rw [Bool.not_eq_true] at hlearns
    rw [log.after_eq s env hlearns, s.viewAfter_eq env hlearns]
    exact h

theorem ReadLog.after_inOrder (env : Env) (h : op.Informed log s.locals.view)
    (hphase : op.phase = log.phase)
    (hop : ∀ hand ∈ op.hands, hand.Fresh log s.locals.view s.now s.policy.ruleRevision)
    (ho : ReadsInOrder log.reads s.now s.policy.ruleRevision) :
    ReadsInOrder (log.after s env op).reads s.now s.policy.ruleRevision := by
  by_cases hlearns : op.learns
  · have hstamp {read : PortRead} (hpast : read.Past s.now s.policy.ruleRevision) :
        PortRead.Past { read with clock := s.now } s.now s.policy.ruleRevision :=
      ⟨hpast.time.trans hpast.clock, le_rfl, hpast.known, hpast.first, hpast.later⟩
    cases op
    case recvInit init =>
      cases init with
      | ports =>
        refine ReadsInOrder.cons ⟨.nil, fun _ hread => absurd hread List.not_mem_nil⟩
          ⟨le_rfl, le_rfl, le_rfl, fun _ => le_rfl, fun hne => absurd rfl hne⟩ rfl ?_
        exact fun _ hread => absurd hread List.not_mem_nil
      | clock =>
        exact ho.modifyHead (fun _ _ hpast => hstamp hpast) (fun _ => rfl) fun _ _ => le_rfl
      | revision =>
        obtain ⟨read, hreads, hcause, -⟩ := h
        have hpast := ho.past read (hreads ▸ List.mem_singleton_self read)
        refine ho.modifyHead (fun read' hread' _ => ?_) (fun _ => rfl) fun read' hread' => ?_
        · obtain rfl : read = read' := Option.some_injective _ (hreads ▸ hread' :)
          exact ⟨hpast.time, hpast.clock, le_rfl, fun _ => (hpast.first hcause).trans hpast.known,
            fun hne => absurd hcause hne⟩
        · obtain rfl : read = read' := Option.some_injective _ (hreads ▸ hread' :)
          exact hpast.known
    case recv => exact ho
    case stage st =>
      unfold Op.Informed ReadLog.Informed at h
      rw [← hphase] at h
      cases st
      case readPorts c loaded =>
        obtain ⟨-, -, hloaded, hknown, -⟩ := hop _ (List.mem_singleton_self _)
        refine ho.cons (.of_made (by simp) rfl rfl rfl hloaded) rfl fun read hread => ?_
        exact (Knows.known_le h ho read hread).trans hknown
      case refreshed c loaded =>
        exact ho.modifyHead (fun _ _ hpast => hstamp hpast) (fun _ => rfl) fun _ _ => le_rfl
      case «attribute» p =>
        simp only [after]
        split <;> exact ho
      case resolve p =>
        obtain ⟨unresolved, -, -, -, hknows⟩ := h
        exact ho.cons (.of_made (by simp) rfl rfl rfl (hknows.le ho).2) rfl (hknows.known_le ho)
      all_goals cases hlearns
    all_goals cases hlearns
  · rw [Bool.not_eq_true] at hlearns
    rw [log.after_eq s env hlearns]
    exact ho

theorem ReadLog.after_allDue (env : Env) (h : op.Informed log s.locals.view)
    (hphase : op.phase = log.phase)
    (hop : ∀ hand ∈ op.hands, hand.Fresh log s.locals.view s.now s.policy.ruleRevision)
    (ho : ReadsInOrder log.reads s.now s.policy.ruleRevision) (hdue : AllDue log.reads) :
    AllDue (log.after s env op).reads := by
  by_cases hlearns : op.learns
  · cases op
    case recvInit init =>
      cases init with
      | ports => exact ⟨rfl, trivial⟩
      | clock => exact hdue.modifyHead (fun _ => rfl) (fun _ => rfl) fun _ _ => le_rfl
      | revision =>
        refine hdue.modifyHead (fun _ => rfl) (fun _ => rfl) fun read hread => ?_
        exact (ho.past read (List.mem_of_mem_head? hread)).known
    case recv => exact hdue
    case stage st =>
      unfold Op.Informed ReadLog.Informed at h
      rw [← hphase] at h
      cases st
      case readPorts c loaded =>
        obtain ⟨-, -, -, -, hlater⟩ := hop _ (List.mem_singleton_self _)
        obtain ⟨last, hlast, hclock, hknown⟩ := Knows.find?_eq h
        exact ⟨⟨last, hlast, hclock.symm ▸ hknown.symm ▸ hlater⟩, hdue⟩
      case refreshed c loaded =>
        exact hdue.modifyHead (fun _ => rfl) (fun _ => rfl) fun _ _ => le_rfl
      case «attribute» p =>
        simp only [after]
        split <;> exact hdue
      case resolve p =>
        obtain ⟨unresolved, -, hnew, hnone, hknows⟩ := h
        refine ⟨⟨?_, ?_⟩, hdue⟩
        · obtain ⟨read, hread, hports⟩ := Option.map_eq_some_iff.mp hknows.latest
          rw [hread]
          refine congrArg some (Eq.trans ?_ hnone)
          exact congrArg (fun ports : PortPidMap => ports _ _ _) hports
        · rw [hknows.takeWhile_eq]
          intro hmem
          obtain ⟨endpoint, hendpoint, heq⟩ := List.mem_map.mp hmem
          obtain rfl := Option.some_injective _ heq
          exact hnew hendpoint
      all_goals cases hlearns
    all_goals cases hlearns
  · rw [Bool.not_eq_true] at hlearns
    rw [log.after_eq s env hlearns]
    exact hdue

/-- An operation that hands a packet on hands it on fresh. -/
theorem State.Passes.fresh {hand : Hand} (hpasses : s.Passes env op hand)
    (h : op.Informed log s.locals.view) (hphase : op.phase = log.phase)
    (ho : ReadsInOrder log.reads s.now s.policy.ruleRevision)
    (hop : ∀ hand ∈ op.hands, hand.Fresh log s.locals.view s.now s.policy.ruleRevision) :
    hand.Fresh (log.after s env op) (s.viewAfter env op) s.now s.policy.ruleRevision := by
  cases hpasses with
  | same hlearns hmem =>
    rw [log.after_eq s env hlearns, s.viewAfter_eq env hlearns]
    exact hop hand hmem
  | received hcapture htime =>
    refine ⟨htime.le, ?_⟩
    simp [ReadLog.after, hcapture]
  | checked c =>
    obtain ⟨htime, hrevision⟩ := hop (.fresh c) (List.mem_singleton_self _)
    have hknows := (ReadLog.informed_settled hphase.symm).mp h
    exact ⟨htime, hrevision, le_rfl, (hknows.le ho).2⟩
  | @outdated c loaded hout =>
    obtain ⟨htime, hrevision, hloaded, hknown⟩ :=
      hop (.checked c loaded) (List.mem_singleton_self _)
    have hknows := (ReadLog.informed_settled hphase.symm).mp h
    refine ⟨htime, hrevision, hloaded, hknown, ?_⟩
    exact (of_mapOutdated (hknows.le ho).1 hout).imp id fun hne => lt_of_le_of_ne hknown hne.symm
  | @current c loaded hout =>
    obtain ⟨htime, hrevision, -⟩ := hop (.checked c loaded) (List.mem_singleton_self _)
    obtain ⟨hrecent, hsame⟩ := of_not_mapOutdated hout
    exact ⟨htime.trans_lt hrecent, hrevision.trans_eq hsame⟩
  | stamping c loaded =>
    obtain ⟨htime, hrevision, -⟩ := hop (.outdated c loaded) (List.mem_singleton_self _)
    exact ⟨rfl, htime, hrevision⟩
  | mapped c loaded =>
    obtain ⟨-, htime, hrevision⟩ := hop (.stamping c loaded) (List.mem_singleton_self _)
    exact ⟨htime.trans_lt (Nat.lt_add_of_pos_right (by decide)), hrevision⟩
  | @seeking p hmiss =>
    obtain ⟨htime, hrevision⟩ := hop (.mapped p.toReceived) (List.mem_singleton_self _)
    simp only [ReadLog.after, viewAfter, hmiss, if_true]
    exact ⟨rfl, htime, hrevision⟩
  | @found p hmiss =>
    obtain ⟨htime, hrevision⟩ := hop (.mapped p.toReceived) (List.mem_singleton_self _)
    have hknows := (ReadLog.informed_settled hphase.symm).mp h
    obtain ⟨read, hread, hports, hclock, hknown⟩ := hknows.exists_head ho
    simp only [ReadLog.after, hmiss, Bool.false_eq_true, if_false]
    refine ⟨read, hread, ?_, htime.trans_le (Nat.add_le_add_right hclock _),
      hknown.imp id hrevision.trans⟩
    exact congrArg (fun ports : PortPidMap => ports _ _ _) hports.symm
  | resolved p =>
    obtain ⟨-, htime, hrevision⟩ := hop (.seeking p) (List.mem_singleton_self _)
    unfold Op.Informed ReadLog.Informed at h
    rw [← hphase] at h
    obtain ⟨unresolved, -, -, -, hknows⟩ := h
    have hle := hknows.le ho
    exact ⟨_, List.mem_cons_self, rfl, htime.trans_le (Nat.add_le_add_right hle.1 _),
      .inr (hrevision.trans hle.2)⟩

/-- What holds of the receiver's knowledge and of the packets in its hands. -/
structure Attributing (x : Traced State ReadLog) : Prop where
  known : ∀ op ∈ (x.state.ops .receiver).head?, op.Informed x.history x.state.locals.view
  phase : x.history.phase = .settled ∨
    ∃ op ∈ (x.state.ops .receiver).head?, op.phase = x.history.phase
  inOrder : ReadsInOrder x.history.reads x.state.now x.state.policy.ruleRevision
  allDue : AllDue x.history.reads
  fresh : ∀ op ∈ x.state.ops .receiver, ∀ hand ∈ op.hands,
    hand.Fresh x.history x.state.locals.view x.state.now x.state.policy.ruleRevision

/-- What begins the work on the tables is followed by what ends it. -/
theorem ReadLog.after_phase {s' : State} {t : Tid} {pushed : List Op}
    (hexec : s.exec t env op = some (.next s' pushed)) (hphase : op.phase = log.phase) :
    (log.after s env op).phase = .settled ∨
      ∃ op' ∈ pushed.head?, op'.phase = (log.after s env op).phase := by
  by_cases hlearns : op.learns
  · cases op
    case recvInit init =>
      left
      cases init with
      | ports => rfl
      | clock => exact hphase.symm
      | revision => exact hphase.symm
    case recv => exact .inl hphase.symm
    case stage st =>
      cases st
      case readPorts c loaded =>
        cases hexec
        exact .inr ⟨_, rfl, rfl⟩
      case refreshed | resolve => exact .inl rfl
      case «attribute» p =>
        simp only [State.exec, State.runStage_attribute] at hexec
        simp only [after]
        by_cases hmiss : s.misses p.endpoint
        · rw [if_pos hmiss] at hexec ⊢
          cases hexec
          exact .inr ⟨_, rfl, by rw [if_pos hmiss]; rfl⟩
        · rw [if_neg hmiss]
          exact .inl hphase.symm
      all_goals cases hlearns
    all_goals cases hlearns
  · rw [Bool.not_eq_true] at hlearns
    rw [log.after_eq s env hlearns, ← hphase]
    exact .inl (Op.phase_of_learns hlearns)

theorem Op.learns_of_panic {t : Tid} {s' : State} (h : s.exec t env op = some (.panic s')) :
    op.learns = false := by
  cases op
  case recvInit => cases h
  case recv =>
    simp only [State.exec] at h
    split at h <;> cases h
  case stage st =>
    cases st
    case readPorts | refreshed | resolve => cases h
    case «attribute» p =>
      simp only [State.exec, State.runStage_attribute] at h
      split at h <;> cases h
    all_goals rfl
  all_goals rfl

namespace Attributing
variable {s' : State} {rest : List Op}

theorem hands_runWorker {receiving : Bool} :
    ∀ op ∈ runWorker receiving, op.hands = [] :=
  fun _ => Op.hands_of_carried (by cases receiving <;> rfl)

/-- The receiver is where the log says that it is. -/
theorem phase_eq (h : Attributing ⟨s, log⟩) (hops : s.ops .receiver = op :: rest) :
    op.phase = log.phase := by
  have hsettled (hop : op.phase = .settled) : op.phase = log.phase := by
    rcases h.phase with hphase | ⟨op', hop', hphase⟩
    · exact hop.trans hphase.symm
    · rw [hops] at hop'
      exact Option.some_injective _ hop' ▸ hphase
  have hmem : op ∈ s.ops .receiver := by
    rw [hops]
    exact List.mem_cons_self
  cases op
  case stage st =>
    cases st
    case refreshed | resolve => exact (h.fresh _ hmem _ (List.mem_singleton_self _)).1.symm
    all_goals exact hsettled rfl
  all_goals exact hsettled rfl

/-- A step of another thread, or of the clock. -/
theorem other (h : Attributing ⟨s, log⟩) (hview : s'.locals.view = s.locals.view)
    (hnow : s.now ≤ s'.now) (hrevision : s.policy.ruleRevision ≤ s'.policy.ruleRevision)
    (hops : s'.ops .receiver = s.ops .receiver ∨
      s.ops .receiver = [] ∧ s'.ops .receiver = runWorker true) :
    Attributing ⟨s', log⟩ := by
  have hinOrder := h.inOrder.mono hnow hrevision
  rcases hops with hops | ⟨hidle, hops⟩
  · refine ⟨?_, ?_, hinOrder, h.allDue, fun op hop hand hhand => ?_⟩
    · simp only [hops, hview]
      exact h.known
    · simp only [hops]
      exact h.phase
    · simp only [hops, hview] at hop ⊢
      exact (h.fresh op hop hand hhand).mono hnow hrevision
  · refine ⟨fun op hop => ?_, .inl ?_, hinOrder, h.allDue, fun op hop hand hhand => ?_⟩
    · simp only [hops] at hop
      obtain rfl := Option.some_injective _ hop
      trivial
    · rcases h.phase with hphase | ⟨op, hop, -⟩
      · exact hphase
      · rw [hidle] at hop
        cases hop
    · simp only [hops] at hop
      rw [hands_runWorker op hop] at hhand
      cases hhand

/-- A turn of the receiver. -/
theorem turn {ops : List Op} {o : Outcome} (h : Attributing ⟨s, log⟩)
    (hops : s.ops .receiver = op :: rest) (hexec : s.exec .receiver env op = some o)
    (hs' : s'.locals.view = o.state.locals.view) (hnow : s'.now = o.state.now)
    (hpolicy : s'.policy = o.state.policy) (hreceiver : s'.ops .receiver = ops)
    (hhead : ∀ op' ∈ ops.head?, op'.Informed (log.after s env op) (s.viewAfter env op))
    (hphase : (log.after s env op).phase = .settled ∨
      ∃ op' ∈ ops.head?, op'.phase = (log.after s env op).phase)
    (hands : ∀ op' ∈ ops, ∀ hand ∈ op'.hands, op' ∈ rest ∧ op.lead ∨ s.Passes env op hand) :
    Attributing ⟨s', log.after s env op⟩ := by
  have hknown : op.Informed log s.locals.view := h.known op (by rw [hops]; rfl)
  have hview : s'.locals.view = s.viewAfter env op := hs'.trans (State.exec_view hexec)
  have hnow' : s.now ≤ s'.now := by rw [hnow, State.exec_now hexec]
  have hrevision : s.policy.ruleRevision ≤ s'.policy.ruleRevision := by
    rw [hpolicy]
    exact State.exec_ruleRevision hexec
  have hop : ∀ hand ∈ op.hands, hand.Fresh log s.locals.view s.now s.policy.ruleRevision :=
    h.fresh op (by rw [hops]; exact List.mem_cons_self)
  have hsame := h.phase_eq hops
  refine ⟨?_, ?_, ?_, ?_, fun op' hop' hand hhand => ?_⟩
  · simp only [hreceiver, hview]
    exact hhead
  · simp only [hreceiver]
    exact hphase
  · exact (log.after_inOrder env hknown hsame hop h.inOrder).mono hnow' hrevision
  · exact log.after_allDue env hknown hsame hop h.inOrder h.allDue
  · simp only [hreceiver] at hop'
    simp only [hview]
    refine Hand.Fresh.mono ?_ hnow' hrevision
    rcases hands op' hop' hand hhand with ⟨hrest, hlead⟩ | hpasses
    · rw [log.after_eq s env (Op.learns_of_lead hlead),
        s.viewAfter_eq env (Op.learns_of_lead hlead)]
      exact h.fresh op' (by rw [hops]; exact List.mem_cons_of_mem _ hrest) hand hhand
    · exact hpasses.fresh hknown hsame h.inOrder hop

/-- What the receiver knows at its next operation. -/
theorem known_next {pushed : List Op} (h : Attributing ⟨s, log⟩)
    (hops : s.ops .receiver = op :: rest)
    (hset : State.SetUp (op :: rest)) (hexec : s.exec .receiver env op = some (.next s' pushed)) :
    ∀ op' ∈ (pushed ++ rest).head?, op'.Informed (log.after s env op) (s.viewAfter env op) := by
  have hknown : op.Informed log s.locals.view := h.known op (by rw [hops]; rfl)
  have hphase := h.phase_eq hops
  intro op' hop'
  rcases hset with ⟨init, hinit⟩ | hnone
  · cases init <;> cases hinit <;> cases hexec <;> obtain rfl := Option.some_injective _ hop'
    · exact ⟨_, rfl, rfl, rfl, rfl⟩
    · obtain ⟨read, hreads, hcause, hports, hunresolved⟩ := hknown
      exact ⟨{ read with clock := s.now }, by rw [ReadLog.after, ReadLog.stamp, hreads]; rfl,
        hcause, hports, hunresolved, rfl⟩
    · obtain ⟨read, hreads, hcause, hports, hunresolved, hclock⟩ := hknown
      have hmissed : read.cause.missed? = none := by rw [hcause]; rfl
      have hsettled : (log.after s env (.recvInit .revision)).phase = .settled := hphase.symm
      refine (ReadLog.informed_settled hsettled).mpr ?_
      simp only [ReadLog.after, hreads, List.modifyHead_cons]
      have hview : s.viewAfter env (.recvInit .revision) =
          ⟨read.ports, read.clock, s.policy.ruleRevision, []⟩ := by
        rw [hports, hclock, ← hunresolved]
        rfl
      rw [hview]
      exact Knows.of_refresh { read with known := s.policy.ruleRevision } [] hmissed
  · rw [List.all_cons, Bool.and_eq_true, Bool.not_eq_true'] at hnone
    have hall : (pushed ++ rest).all (!·.setsUp) :=
      List.all_append.trans (Bool.and_eq_true_iff.mpr ⟨State.exec_setsUp hexec, hnone.2⟩)
    have hop := List.all_eq_true.mp hall op' (List.mem_of_mem_head? hop')
    rw [Bool.not_eq_true'] at hop
    exact (Op.informed_iff hop).mpr
      (log.after_informed env hnone.1 ((Op.informed_iff hnone.1).mp hknown) hphase)

/-- Only the receiver learns something. -/
theorem record_of_ne (hr : s.Reachable) {t : Tid} (hops : s.ops t = op :: rest)
    (ht : t ≠ .receiver) (env : Env) : ReadLog.record s (.run t env) log = log := by
  simp only [ReadLog.record, hops]
  exact log.after_eq s env (Op.learns_of_allowed (hr.allowed hops) ht)

theorem record_receiver (hops : s.ops .receiver = op :: rest) (env : Env) :
    ReadLog.record s (.run .receiver env) log = log.after s env op := by
  simp only [ReadLog.record, hops]
  rfl

theorem view_of_ne (hr : s.Reachable) {t : Tid} {o : Outcome}
    (hops : s.ops t = op :: rest) (ht : t ≠ .receiver) (hexec : s.exec t env op = some o) :
    o.state.locals.view = s.locals.view := by
  rw [State.exec_view hexec]
  exact s.viewAfter_eq env (Op.learns_of_allowed (hr.allowed hops) ht)

/-- A receiver begins only when none is at work. -/
theorem exec_receiver (hr : s.Reachable) {t : Tid} {o : Outcome} (hops : s.ops t = op :: rest)
    (h : s.exec t env op = some o) : o.state.ops .receiver = s.ops .receiver ∨
      s.ops .receiver = [] ∧ o.state.ops .receiver = runWorker true := by
  by_cases hidle : s.ops .receiver = []
  · rcases State.exec_ops h .receiver with he | ⟨-, ht, -⟩ | ⟨-, -, he⟩
    · exact .inl he
    · cases ht
    · exact .inr ⟨hidle, he⟩
  · exact .inl (State.exec_ops_of_ne hr hops hidle h)

/-- The receiver's operation is done. -/
theorem next_receiver {pushed : List Op} (hr : s.Reachable) (h : Attributing ⟨s, log⟩)
    (hops : s.ops .receiver = op :: rest)
    (hexec : s.exec .receiver env op = some (.next s' pushed)) :
    Attributing ⟨s'.setOps .receiver (pushed ++ rest), log.after s env op⟩ := by
  have hset := hr.setUp
  rw [hops] at hset
  refine h.turn hops hexec rfl rfl rfl (State.setOps_self ..) (h.known_next hops hset hexec) ?_
    fun op' hop' hand hhand => ?_
  · refine (log.after_phase hexec (h.phase_eq hops)).imp id ?_
    rintro ⟨op', hop', hphase⟩
    exact ⟨op', List.mem_head?_append_of_mem_head? hop', hphase⟩
  · rcases List.mem_append.mp hop' with hmem | hmem
    · exact .inr (State.exec_passes hexec op' hmem hand hhand)
    · refine .inl ⟨hmem, ?_⟩
      by_contra hlead
      have hshape := (hops ▸ hr.shape .receiver).2
      have hcarried := hshape.2.2.1 (Bool.not_eq_true _ ▸ hlead)
      rw [Op.hands_of_carried hcarried hmem] at hhand
      cases hhand

/-- The receiver panics; it learns nothing, and hands nothing on. -/
theorem panic_receiver (h : Attributing ⟨s, log⟩) (hops : s.ops .receiver = op :: rest)
    (hexec : s.exec .receiver env op = some (.panic s')) :
    Attributing ⟨s'.panicked .receiver, log.after s env op⟩ := by
  have hlearns := Op.learns_of_panic hexec
  have hsame := h.phase_eq hops
  have hsetUp : op.setsUp = false := by
    cases op
    case recvInit => cases hlearns
    all_goals rfl
  refine h.turn hops hexec rfl rfl rfl (State.panicked_self ..) (fun op' hop' => ?_) (.inl ?_)
    fun op' hop' hand hhand => ?_
  · have hall := s'.afterPanic_setsUp .receiver
    have hop := List.all_eq_true.mp hall op' (List.mem_of_mem_head? hop')
    rw [Bool.not_eq_true'] at hop
    have hknown := (Op.informed_iff hsetUp).mp (h.known op (by rw [hops]; rfl))
    exact (Op.informed_iff hop).mpr (log.after_informed env hsetUp hknown hsame)
  · rw [log.after_eq s env hlearns, ← hsame]
    exact Op.phase_of_learns hlearns
  · rw [Op.hands_of_carried (State.carried_afterPanic _ _) hop'] at hhand
    cases hhand

/-- Another thread takes a turn. -/
theorem turn_of_ne {t : Tid} {o : Outcome} {s' : State} (hr : s.Reachable)
    (h : Attributing ⟨s, log⟩) (hops : s.ops t = op :: rest) (ht : t ≠ .receiver)
    (hexec : s.exec t env op = some o) (hs' : s'.locals.view = o.state.locals.view)
    (hnow : s'.now = o.state.now) (hpolicy : s'.policy = o.state.policy)
    (hreceiver : s'.ops .receiver = o.state.ops .receiver) :
    Attributing ⟨s', ReadLog.record s (.run t env) log⟩ := by
  rw [record_of_ne hr hops ht]
  refine h.other (hs'.trans (view_of_ne hr hops ht hexec)) ?_ ?_ ?_
  · rw [hnow]
    exact (State.exec_now hexec).ge
  · rw [hpolicy]
    exact State.exec_ruleRevision hexec
  · rw [hreceiver]
    exact exec_receiver hr hops hexec

theorem step {x : Traced State ReadLog} {label : Label} (hr : x.state.Reachable)
    (h : Attributing x) (hstep : x.state.Step label s') :
    Attributing ⟨s', ReadLog.record x.state label x.history⟩ := by
  obtain ⟨s, log⟩ := x
  cases hstep with
  | tick elapsed => exact h.other rfl (Nat.le_add_right _ _) le_rfl (.inl rfl)
  | call hops hbegin =>
    have hreceiver : s'.ops .receiver = s.ops .receiver := by
      rw [State.begin_ops hbegin]
      rfl
    rcases State.begin_eq_some hbegin with ⟨-, -, rfl⟩ | ⟨-, rfl⟩ <;>
      exact h.other rfl le_rfl le_rfl (.inl hreceiver)
  | @next t env op rest pushed s₁ hops hexec =>
    by_cases ht : t = .receiver
    · subst ht
      rw [record_receiver hops]
      exact h.next_receiver hr hops hexec
    · exact h.turn_of_ne hr hops ht hexec rfl rfl rfl (State.setOps_of_ne _ (Ne.symm ht) _)
  | @panic t env op rest s₁ hops hexec =>
    by_cases ht : t = .receiver
    · subst ht
      rw [record_receiver hops]
      exact h.panic_receiver hops hexec
    · exact h.turn_of_ne hr hops ht hexec rfl rfl rfl (State.panicked_of_ne _ (Ne.symm ht))

theorem of_reachable {x : Traced State ReadLog}
    (h : TracedReachable State.step ReadLog.record {} {} x) : Attributing x := by
  refine h.invariant ?_ fun x label s' hr hx hstep => hx.step hr (.of_step hstep)
  refine ⟨fun _ hop => ?_, .inl rfl, ⟨.nil, fun _ hread => absurd hread List.not_mem_nil⟩, trivial,
    fun _ hop => absurd hop List.not_mem_nil⟩
  cases hop

end Attributing

end Freshness

namespace State

variable {x : Traced State ReadLog}

/-- The process that a packet is attributed to is the one that a read of the tables gave, at which
the receiver took the clock less than `portMapRefresh` before the packet was received, or later. But
for the read with which the receiver began, it was made under no older rules than the packet was
received under. -/
theorem attributed_fresh (hx : TracedReachable State.step ReadLog.record {} {} x) {op : Op}
    (hop : op ∈ x.state.ops .receiver) {p : Parsed} {pid : Option UInt32}
    (hand : .attributed p pid ∈ op.hands) :
    ∃ read ∈ x.history.reads, pid = read.pidAt p.endpoint ∧
      p.receivedAt < read.clock + portMapRefresh ∧
      (read.cause = .started ∨ x.history.revisions p.capture ≤ read.revision) :=
  (Attributing.of_reachable hx).fresh op hop _ hand

/-- Since the receiver began, the tables were read once for each `portMapRefresh` and each revision
of the rules at most, and in between once for each endpoint. -/
theorem ports_read_bounded (hx : TracedReachable State.step ReadLog.record {} {} x) :
    (∀ first ∈ x.history.reads.getLast?, x.history.reads.countP PortRead.periodic ≤
      1 + (x.state.now - first.time) / portMapRefresh +
        (x.state.policy.ruleRevision - first.revision)) ∧
    ∀ endpoint, x.history.reads.countP (·.cause.missed? = some endpoint) ≤
      x.history.reads.countP PortRead.periodic := by
  have hinv := Attributing.of_reachable hx
  constructor
  · intro first hfirst
    have hmem : first ∈ x.history.reads := List.mem_of_getLast? hfirst
    have hbegan := hinv.inOrder.past first hmem
    have hstart : ∀ read ∈ x.history.reads,
        first.time ≤ read.clock ∧ first.revision ≤ read.known := by
      intro read hread
      have hle := hinv.inOrder.first_le hfirst read hread
      exact ⟨hbegan.time.trans hle.1, (hbegan.first (hinv.allDue.started hfirst)).trans hle.2⟩
    obtain ⟨last, hlast⟩ := hinv.allDue.exists_periodic (List.ne_nil_of_mem hmem)
    have hpast := hinv.inOrder.past last (List.mem_of_find?_eq_some hlast)
    refine (hinv.allDue.countP_periodic_le hstart hinv.inOrder.ordered
      (fun read hread => (hinv.inOrder.past read hread).time) hlast).trans ?_
    refine Nat.add_le_add (Nat.add_le_add_left ?_ 1) (Nat.sub_le_sub_right hpast.known _)
    exact Nat.div_le_div_right (Nat.sub_le_sub_right hpast.clock _)
  · intro endpoint
    by_cases hne : x.history.reads = []
    · rw [hne]
      exact le_rfl
    · exact le_of_add_le_left (hinv.allDue.countP_missed_le hne endpoint)

/-- A packet of a process with a delay, whose endpoint is not in the tables until it is looked
for. -/
def attributedPacketRun : List Label :=
  let packet : List UInt8 := [0x45, 0, 0, 28, 0, 0, 0, 0, 64, 17, 0, 0, 127, 0, 0, 1,
    192, 0, 2, 1, 0x12, 0x34, 0, 53, 0, 8, 0, 0]
  let arrives : Env := { recv := .ok (packet, ⟨0x00020000⟩), ports := fun _ _ _ => some 7 }
  [.call .startWithIo] ++ List.replicate 2 (.run .ui {})
    ++ [.call (.apply (.updateRule 7 { uploadDelayMs := some 50 }))]
    ++ List.replicate 11 (.run .ui {}) ++ List.replicate 3 (.run .receiver {})
    ++ [.tick 20] ++ List.replicate 11 (.run .receiver arrives)

theorem attributed_fresh_attributedPacketRun : ∃ (x : Traced State ReadLog) (op : Op) (p : Parsed),
    attributedPacketRun.foldlM (Traced.next State.step ReadLog.record) ⟨{}, {}⟩ = some x ∧
    op ∈ x.state.ops .receiver ∧ .attributed p (some 7) ∈ op.hands ∧
    ∃ read ∈ x.history.reads, some 7 = read.pidAt p.endpoint ∧
      p.receivedAt < read.clock + portMapRefresh ∧
      (read.cause = .started ∨ x.history.revisions p.capture ≤ read.revision) := by
  have hrun : ∃ (x : Traced State ReadLog) (op : Op) (p : Parsed) (rest : List Op),
      attributedPacketRun.foldlM (Traced.next State.step ReadLog.record) ⟨{}, {}⟩ = some x ∧
      x.state.ops .receiver = op :: rest ∧ op.hands = [.attributed p (some 7)] :=
    ⟨_, _, _, _, rfl, rfl, rfl⟩
  obtain ⟨x, op, p, rest, hx, hops, hhands⟩ := hrun
  have hop : op ∈ x.state.ops .receiver := by
    rw [hops]
    exact List.mem_cons_self
  have hhand : .attributed p (some 7) ∈ op.hands := by
    rw [hhands]
    exact List.mem_cons_self
  exact ⟨x, op, p, hx, hop, hhand, attributed_fresh (.of_foldlM hx) hop hhand⟩

theorem ports_read_bounded_attributedPacketRun : ∃ x : Traced State ReadLog,
    attributedPacketRun.foldlM (Traced.next State.step ReadLog.record) ⟨{}, {}⟩ = some x ∧
    x.history.reads.map (·.time) = [20, 0] ∧
    (∀ first ∈ x.history.reads.getLast?, x.history.reads.countP PortRead.periodic ≤
      1 + (x.state.now - first.time) / portMapRefresh +
        (x.state.policy.ruleRevision - first.revision)) ∧
    ∀ endpoint, x.history.reads.countP (·.cause.missed? = some endpoint) ≤
      x.history.reads.countP PortRead.periodic := by
  have hrun : ∃ x : Traced State ReadLog,
      attributedPacketRun.foldlM (Traced.next State.step ReadLog.record) ⟨{}, {}⟩ = some x ∧
      x.history.reads.map (·.time) = [20, 0] := ⟨_, rfl, rfl⟩
  obtain ⟨x, hx, hreads⟩ := hrun
  exact ⟨x, hx, hreads, ports_read_bounded (.of_foldlM hx)⟩

end State

end FlowBrake.Windows
