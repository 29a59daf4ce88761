import Mathlib.Algebra.BigOperators.Group.Finset.Piecewise
import FlowBrake.Windows.Engine.Ledger

/-! The byte counters and the snapshots together hold the bytes that were sent. -/
namespace FlowBrake.Windows
open FlowBrake.Core Transition

def ByteCounters.get (counters : ByteCounters) : Direction → ℕ
  | .download => counters.download
  | .upload => counters.upload

/-- What bytes are counted for: a process in a direction, or all packets in a direction. -/
inductive Account
  | process (pid : UInt32) (direction : Direction)
  | total (direction : Direction)

namespace Account

def covers (p : Outgoing) : Account → Bool
  | process pid direction => p.pid = some pid ∧ p.direction = direction
  | total direction => p.direction = direction

def charge (account : Account) (p : Outgoing) : ℕ := if account.covers p then p.chargeLen else 0

def ofCounters (counters : Counters) : Account → ℕ
  | process pid direction => (counters.perPid[pid]?.getD {}).get direction
  | total .download => counters.globalDownload
  | total .upload => counters.globalUpload

def ofSnapshot (account : Account) (snapshot : EngineSnapshot) : ℕ :=
  match account with
  | process pid direction => (snapshot.perPid[pid]?.getD {}).get direction
  | total .download => snapshot.globalDownloadBytes
  | total .upload => snapshot.globalUploadBytes

def ofTally (account : Account) (tally : Tally) : ℕ :=
  match account, tally with
  | process pid direction, .recordPid pid' direction' bytes =>
    if pid' = pid ∧ direction' = direction then bytes else 0
  | total direction, .recordGlobal direction' bytes => if direction' = direction then bytes else 0
  | _, _ => 0

theorem ofCounters_apply (account : Account) (counters : Counters) (tally : Tally) :
    account.ofCounters (tally.apply counters) =
      account.ofCounters counters + account.ofTally tally := by
  cases tally with
  | recordPid pid direction bytes =>
    cases account with
    | process pid' direction' =>
      simp only [ofCounters, Tally.apply, Counters.addPid, ofTally,
        Std.ExtTreeMap.getElem?_insert]
      by_cases hp : pid = pid'
      · subst hp
        cases direction <;> cases direction' <;> simp [ByteCounters.get]
      · simp [hp]
    | total direction' => cases direction' <;> rfl
  | recordGlobal direction bytes =>
    cases account with
    | process pid direction' => cases direction <;> rfl
    | total direction' => cases direction <;> cases direction' <;> rfl
  | dropReason reason =>
    cases account with
    | process pid direction => cases reason <;> rfl
    | total direction => cases direction <;> cases reason <;> rfl
  | processed | delayed | dropTotal =>
    cases account with
    | process pid direction => rfl
    | total direction => cases direction <;> rfl

theorem sum_charge (account : Account) (sends : List Outgoing) :
    (sends.map account.charge).sum =
      ((sends.filter (account.covers ·)).map (·.chargeLen)).sum := by
  induction sends with
  | nil => rfl
  | cons p sends ih =>
    rw [List.map_cons, List.sum_cons, ih, charge]
    cases hc : account.covers p <;> simp [hc]

end Account

/-- The updates of the counters with which a packet that was sent is recorded. -/
def Op.records : Op → Bool
  | .tally (.recordPid _ _ _) | .tally (.recordGlobal _ _) => true
  | _ => false

/-- The snapshot that the owner is taking. -/
def Op.snapshot? : Op → Option EngineSnapshot
  | .snapshotPids snapshot | .snapshotDownload snapshot | .snapshotUpload snapshot
  | .snapshotCounters snapshot => some snapshot
  | _ => none

/-- The bytes that an operation has still to record or hand over. -/
def Op.bytes (account : Account) (op : Op) : ℤ :=
  match op with
  | .tally update => account.ofTally update
  | op => (op.snapshot?.map account.ofSnapshot).getD 0

def unrecorded (account : Account) (ops : List Op) : ℤ := (ops.map (Op.bytes account)).sum

/-- What a snapshot has not yet come to is zero. -/
def Op.Fresh : Op → Prop
  | .snapshotPids snapshot => snapshot.perPid = ∅ ∧ snapshot.globalDownloadBytes = 0 ∧
      snapshot.globalUploadBytes = 0
  | .snapshotDownload snapshot => snapshot.globalDownloadBytes = 0 ∧
      snapshot.globalUploadBytes = 0
  | .snapshotUpload snapshot => snapshot.globalUploadBytes = 0
  | _ => True

/-- The records of a packet come before all else that the thread has still to do. -/
def RecordsFirst : List Op → Prop
  | [] => True
  | op :: rest => (op.records = false → rest.all (!·.records)) ∧ RecordsFirst rest

/-- The packet that the operation hands to `io.send` with success. -/
def Op.delivers (env : Env) : Op → Option Outgoing
  | .ioSend p => match env.send with
    | some (.ok ()) => some p
    | _ => none
  | _ => none

section Lists
variable (account : Account) (op : Op) (ops ops' : List Op)

@[simp] theorem unrecorded_nil : unrecorded account [] = 0 := rfl

@[simp] theorem unrecorded_cons :
    unrecorded account (op :: ops) = op.bytes account + unrecorded account ops := by
  simp [unrecorded]

@[simp] theorem unrecorded_append :
    unrecorded account (ops ++ ops') = unrecorded account ops + unrecorded account ops' := by
  simp [unrecorded]

theorem unrecorded_edits (edits : List Edit) : unrecorded account (edits.map .edit) = 0 := by
  induction edits with
  | nil => rfl
  | cons edit edits ih => simpa [Op.bytes, Op.snapshot?] using ih

theorem unrecorded_recordBytes (p : Outgoing) :
    unrecorded account (recordBytes p.pid p.direction p.chargeLen) = account.charge p := by
  unfold recordBytes
  split
  · next hzero => simp [Account.charge, hzero]
  · cases account with
    | process pid direction =>
      cases hpid : p.pid <;>
        simp [Op.bytes, Account.ofTally, Account.charge, Account.covers, hpid]
    | total direction =>
      cases p.pid <;> simp [Op.bytes, Account.ofTally, Account.charge, Account.covers]

theorem recordsFirst_of_all {ops : List Op} (h : ops.all (!·.records)) : RecordsFirst ops := by
  induction ops with
  | nil => trivial
  | cons op rest ih =>
    rw [List.all_cons, Bool.and_eq_true] at h
    exact ⟨fun _ => h.2, ih h.2⟩

end Lists

namespace State

/-- The bytes in the snapshots taken and in the counters. -/
def recorded (s : State) (account : Account) : ℤ :=
  ((s.snapshots.map account.ofSnapshot).sum + account.ofCounters s.counters : ℕ)

theorem check_unrecorded (s : State) (c : Check) (account : Account) :
    unrecorded account (s.check c) = 0 := by
  cases c <;> simp only [check]
  case apply command => simp [unrecorded_edits, Op.bytes, Op.snapshot?]
  all_goals repeat' split
  all_goals
    cases account <;>
      simp [Op.bytes, Op.snapshot?, Account.ofTally, recordDrop, fail, drainQueue]

theorem stage_recorded {s s' : State} {t : Tid} {env : Env} {st : Stage} {o : Outcome}
    (h : s.exec t env (.stage st) = some o) (account : Account) (hs' : s' = o.state) :
    s'.recorded account = s.recorded account := by
  have hcounters (eligible : Bool) : account.ofCounters (if eligible then { s.counters with
      packetsLossEligible := s.counters.packetsLossEligible + 1 } else s.counters) =
      account.ofCounters s.counters := by
    cases eligible with
    | true =>
      cases account with
      | process pid direction => rfl
      | total direction => cases direction <;> rfl
    | false => rfl
  subst hs'
  simp only [exec] at h
  split at h <;> cases h <;> simp [recorded, Outcome.state, hcounters]

/-- What an operation takes out of the counters it has in hand, and what it puts into them it had
in hand or has just sent. -/
theorem exec_bytes {s s' : State} {t : Tid} {env : Env} {op : Op} {pushed : List Op}
    (hfresh : op.Fresh) (h : s.exec t env op = some (.next s' pushed)) (account : Account) :
    s'.recorded account + unrecorded account pushed =
      s.recorded account + op.bytes account +
        ((op.delivers env).toList.map account.charge).sum := by
  cases op
  case check c =>
    cases h
    rw [check_unrecorded]
    simp [Op.bytes, Op.snapshot?, Op.delivers]
  case tally update =>
    cases h
    simp [recorded, Account.ofCounters_apply, Op.bytes, Op.delivers]
    omega
  case ioSend p =>
    simp only [exec, ioSend] at h
    split at h <;> cases h
    · next hsend =>
      rw [unrecorded_recordBytes]
      simp [Op.bytes, Op.snapshot?, Op.delivers, hsend, recorded]
    · next error hsend =>
      split <;> cases account <;>
        simp [Op.bytes, Op.snapshot?, Op.delivers, hsend, recorded, recordDrop, fail, drainQueue,
          Account.ofTally]
  case stage st =>
    have hsame : s'.recorded account = s.recorded account := stage_recorded h account rfl
    have hpushed : unrecorded account pushed = 0 := by
      simp only [exec] at h
      split at h <;> cases h <;>
        simp [Op.bytes, Op.snapshot?, Account.ofTally, recordDrop, send]
    rw [hsame, hpushed]
    simp [Op.bytes, Op.snapshot?, Op.delivers]
  case snapshotBlock running =>
    cases h
    cases account with
    | process pid direction =>
      cases direction <;>
        simp [Op.bytes, Op.snapshot?, Op.delivers, Account.ofSnapshot, recorded, ByteCounters.get]
    | total direction =>
      cases direction <;>
        simp [Op.bytes, Op.snapshot?, Op.delivers, Account.ofSnapshot, recorded]
  case snapshotPids snapshot =>
    obtain ⟨hpids, -⟩ := hfresh
    cases h
    cases account with
    | process pid direction =>
      cases hc : s.counters.perPid[pid]? <;> cases direction <;>
        simp [Op.bytes, Op.snapshot?, Op.delivers, Account.ofSnapshot, Account.ofCounters, recorded,
          ByteCounters.get, Std.ExtTreeMap.getElem?_map, hc, hpids]
    | total direction =>
      cases direction <;>
        simp [Op.bytes, Op.snapshot?, Op.delivers, Account.ofSnapshot, Account.ofCounters, recorded]
  case snapshotDownload snapshot =>
    obtain ⟨hdownload, -⟩ := hfresh
    cases h
    cases account with
    | process pid direction =>
      simp [Op.bytes, Op.snapshot?, Op.delivers, Account.ofSnapshot, Account.ofCounters, recorded]
    | total direction =>
      cases direction <;>
        simp [Op.bytes, Op.snapshot?, Op.delivers, Account.ofSnapshot, Account.ofCounters, recorded,
          hdownload]
  case snapshotUpload snapshot =>
    have hupload : snapshot.globalUploadBytes = 0 := hfresh
    cases h
    cases account with
    | process pid direction =>
      simp [Op.bytes, Op.snapshot?, Op.delivers, Account.ofSnapshot, Account.ofCounters, recorded]
    | total direction =>
      cases direction <;>
        simp [Op.bytes, Op.snapshot?, Op.delivers, Account.ofSnapshot, Account.ofCounters, recorded,
          hupload]
  case snapshotCounters snapshot =>
    cases h
    cases account with
    | process pid direction =>
      simp [Op.bytes, Op.snapshot?, Op.delivers, Account.ofSnapshot, recorded]
      omega
    | total direction =>
      cases direction <;>
        simp [Op.bytes, Op.snapshot?, Op.delivers, Account.ofSnapshot, recorded] <;> omega
  case discardPending =>
    cases h
    cases account with
    | process pid direction =>
      simp [Op.bytes, Op.snapshot?, Op.delivers, Account.ofCounters, recorded]
    | total direction =>
      cases direction <;>
        simp [Op.bytes, Op.snapshot?, Op.delivers, Account.ofCounters, recorded]
  all_goals
    simp only [exec, dispatch, senderLoop, tryQueue] at h
    repeat' split at h
    all_goals
      cases h <;>
        simp [Op.bytes, Op.snapshot?, Op.delivers, recorded, recordDrop, send, stop,
          drainQueue, discardPending, fail, Account.ofTally]

theorem check_records (s : State) (c : Check) :
    (s.check c).all (!·.records) ∧ ∀ op ∈ s.check c, op.Fresh := by
  cases c <;> simp only [check]
  case apply command =>
    refine ⟨by simp [Op.records], fun op hm => ?_⟩
    rcases List.mem_append.mp hm with hm | hm
    · obtain ⟨edit, -, rfl⟩ := List.mem_map.mp hm
      trivial
    · simp only [List.mem_cons, List.not_mem_nil, or_false] at hm
      rcases hm with rfl | rfl | rfl <;> trivial
  all_goals repeat' split
  all_goals simp [Op.records, Op.Fresh, recordDrop, fail, drainQueue]

theorem recordsFirst_recordBytes (p : Outgoing) {rest : List Op} (h : rest.all (!·.records)) :
    RecordsFirst (recordBytes p.pid p.direction p.chargeLen ++ rest) := by
  have hrest := recordsFirst_of_all h
  unfold recordBytes
  split
  · exact hrest
  · cases p.pid <;> simp [RecordsFirst, Op.records, hrest]

/-- Only a successful send puts up a record. -/
theorem exec_records {s s' : State} {t : Tid} {env : Env} {op : Op} {rest pushed : List Op}
    (hs : RecordsFirst (op :: rest)) (h : s.exec t env op = some (.next s' pushed)) :
    RecordsFirst (pushed ++ rest) := by
  obtain ⟨hnone, hrest⟩ := hs
  have hquiet (hpushed : pushed.all (!·.records)) (hop : op.records = false) :
      RecordsFirst (pushed ++ rest) :=
    recordsFirst_of_all (by rw [List.all_append, hpushed, hnone hop]; rfl)
  cases op
  case tally update =>
    cases h
    exact hrest
  case check c =>
    cases h
    exact hquiet (check_records s c).1 rfl
  case ioSend p =>
    simp only [exec, ioSend] at h
    split at h <;> cases h
    · exact recordsFirst_recordBytes p (hnone rfl)
    · refine hquiet ?_ rfl
      split <;> simp [Op.records, recordDrop, fail, drainQueue]
  all_goals
    refine hquiet ?_ rfl
    simp only [exec, dispatch, senderLoop, tryQueue] at h
    repeat' split at h
    all_goals
      cases h <;> simp [Op.records, recordDrop, send, stop, drainQueue, discardPending, fail]

theorem exec_fresh {s s' : State} {t : Tid} {env : Env} {op : Op} {pushed : List Op}
    (hop : op.Fresh) (h : s.exec t env op = some (.next s' pushed)) : ∀ op ∈ pushed, op.Fresh := by
  cases op
  case check c =>
    cases h
    exact (check_records s c).2
  case ioSend p =>
    simp only [exec, ioSend] at h
    split at h <;> cases h
    · obtain ⟨tallies, ht⟩ := recordBytes_eq_map p.pid p.direction p.chargeLen
      simp [ht, Op.Fresh]
    · split <;> simp [Op.Fresh, recordDrop, fail, drainQueue]
  case snapshotPids snapshot =>
    obtain ⟨-, hdownload, hupload⟩ := hop
    cases h
    simp [Op.Fresh, hdownload, hupload]
  case snapshotDownload snapshot =>
    obtain ⟨-, hupload⟩ := hop
    cases h
    simp [Op.Fresh, hupload]
  case snapshotUpload snapshot =>
    cases h
    simp [Op.Fresh]
  all_goals
    simp only [exec, dispatch, senderLoop, tryQueue] at h
    repeat' split at h
    all_goals
      cases h <;> simp [Op.Fresh, recordDrop, send, stop, drainQueue, discardPending, fail]

theorem afterPanic_records (s : State) (t : Tid) (account : Account) :
    (s.unwind t ++ afterPanic t).all (!·.records) ∧
      unrecorded account (s.unwind t ++ afterPanic t) = 0 ∧
      ∀ op ∈ s.unwind t ++ afterPanic t, op.Fresh := by
  unfold unwind
  split <;> split <;> cases t <;>
    simp [afterPanic, fail, drainQueue, recvDone, discardPending, Op.records, Op.Fresh, Op.bytes,
      Op.snapshot?]

/-- A thread records what it sent before it does anything else. -/
theorem Reachable.recordsFirst {s : State} (h : s.Reachable) (t : Tid) :
    RecordsFirst (s.ops t) ∧ ∀ op ∈ s.ops t, op.Fresh := by
  refine h.programs (P := fun _ ops => RecordsFirst ops ∧ ∀ op ∈ ops, op.Fresh) ?_ ?_ ?_ ?_ ?_ ?_ t
  · exact fun _ => ⟨trivial, by simp⟩
  · intro call
    cases call <;> simp [UiCall.program, stop, apply, RecordsFirst, Op.records, Op.Fresh]
  · simp [runWorker, RecordsFirst, Op.records, Op.Fresh]
  · simp [runWorker, recvDone, RecordsFirst, Op.records, Op.Fresh]
  · intro s s' t env op rest pushed hops hexec
    obtain ⟨hrecords, hfresh⟩ := hops
    refine ⟨exec_records hrecords hexec, fun op' hm => ?_⟩
    rcases List.mem_append.mp hm with hm | hm
    · exact exec_fresh (hfresh op List.mem_cons_self) hexec op' hm
    · exact hfresh op' (List.mem_cons_of_mem _ hm)
  · intro s s' t env op rest _ _
    obtain ⟨hrecords, -, hfresh⟩ := afterPanic_records s' t (.total .download)
    exact ⟨recordsFirst_of_all hrecords, hfresh⟩

end State

/-- The states of the engine, each with the packets that `io.send` took since the last start. -/
structure Tracked where
  state : State := {}
  sends : List Outgoing := []

namespace Tracked

def step (x : Tracked) (label : Label) : Option Tracked :=
  (x.state.step label).map fun state => {
    state
    sends := match label with
      | .call .startWithIo => []
      | .run t env => x.sends ++ ((x.state.ops t).head?.bind (Op.delivers env)).toList
      | _ => x.sends }

def Reachable : Tracked → Prop :=
  Transition.Reachable (fun x label x' => x.step label = some x') (· = {})

theorem step_eq_some {x x' : Tracked} {label : Label} (h : x.step label = some x') :
    x.state.step label = some x'.state := by
  obtain ⟨state, hstate, rfl⟩ := Option.map_eq_some_iff.mp h
  exact hstate

theorem Reachable.state {x : Tracked} (h : x.Reachable) : x.state.Reachable :=
  Transition.Reachable.map (g := Tracked.state) (by rintro _ rfl; rfl)
    (fun _ _ _ => step_eq_some) h

/-- Every run of the engine is one with its packets tracked. -/
theorem exists_of_reachable {s : State} (h : s.Reachable) : ∃ sends, Reachable ⟨s, sends⟩ := by
  obtain ⟨x, hx, rfl⟩ : ∃ x : Tracked, x.Reachable ∧ x.state = s := by
    refine Transition.Reachable.exists_of_map ?_ (fun x label s' hstep => ?_) h
    · rintro _ rfl
      exact ⟨{}, rfl, rfl⟩
    · exact ⟨_, congrArg (Option.map _) hstep, rfl⟩
  exact ⟨x.sends, hx⟩

theorem Reachable.of_follow {x : Tracked} {labels : List Label}
    (h : labels.foldlM step {} = some x) : x.Reachable :=
  ⟨{}, labels, rfl, .of_foldlM h⟩

end Tracked

namespace State

theorem unrecorded_runWorker (account : Account) (receiving : Bool) :
    unrecorded account (runWorker receiving) = 0 := by
  cases receiving <;> simp [runWorker, recvDone, Op.bytes, Op.snapshot?]

theorem unrecorded_program (account : Account) (call : UiCall) :
    unrecorded account call.program = 0 := by
  cases call <;> simp [UiCall.program, stop, apply, Op.bytes, Op.snapshot?]

theorem bytes_of_quiet (account : Account) {op : Op} (h : op.records = false) :
    op.bytes account = ((op.snapshot?.map account.ofSnapshot).getD 0 : ℕ) := by
  cases op
  case tally update =>
    cases update
    case recordPid | recordGlobal => cases h
    all_goals cases account <;> rfl
  case snapshotPids | snapshotDownload | snapshotUpload | snapshotCounters =>
    simp [Op.bytes, Op.snapshot?]
  all_goals rfl

/-- A thread that records nothing has in hand what the snapshots under way hold. -/
theorem unrecorded_of_quiet (account : Account) {ops : List Op} (h : ops.all (!·.records)) :
    unrecorded account ops = ((ops.filterMap Op.snapshot?).map account.ofSnapshot).sum := by
  induction ops with
  | nil => rfl
  | cons op rest ih =>
    rw [List.all_cons, Bool.and_eq_true, Bool.not_eq_true'] at h
    rw [unrecorded_cons, ih h.2, bytes_of_quiet account h.1, List.filterMap_cons]
    cases op.snapshot? <;> simp

theorem snapshots_of_allowed {t : Tid} (ht : t ≠ .ui) {ops : List Op}
    (h : ops.all (Op.allowed t)) : ops.filterMap Op.snapshot? = [] := by
  induction ops with
  | nil => rfl
  | cons op rest ih =>
    rw [List.all_cons, Bool.and_eq_true] at h
    rw [List.filterMap_cons, ih h.2]
    cases op <;> simp_all [Op.allowed, Op.snapshot?]

/-- A panic comes before a packet is sent or between two packets. -/
theorem panic_bytes {s s' : State} (hr : s.Reachable) {t : Tid} {env : Env} {op : Op}
    {rest : List Op} (hops : s.ops t = op :: rest) (h : s.exec t env op = some (.panic s'))
    (account : Account) :
    s'.recorded account = s.recorded account ∧ unrecorded account (op :: rest) = 0 ∧
      op.delivers env = none := by
  have ht := panic_ne_ui hr hops h
  have hop : op.records = false := by
    cases op
    case tally update => cases h
    all_goals rfl
  have hquiet : (op :: rest).all (!·.records) := by
    have hrecords : RecordsFirst (op :: rest) := hops ▸ (hr.recordsFirst t).1
    rw [List.all_cons, hrecords.1 hop, hop]
    rfl
  refine ⟨?_, ?_, ?_⟩
  · cases op
    case stage st => exact stage_recorded h account rfl
    all_goals
      simp only [exec, dispatch, senderLoop, ioSend, tryQueue] at h
      repeat' split at h
      all_goals cases h <;> rfl
  · rw [unrecorded_of_quiet account hquiet, snapshots_of_allowed ht (hops ▸ (hr.shape t).1)]
    rfl
  · cases op
    case ioSend p =>
      simp only [exec, ioSend] at h
      split at h <;> cases h
      next hsend => simp [Op.delivers, hsend]
    all_goals rfl

end State

/-- The counters, the snapshots and what is under way together hold the bytes of every packet
sent since the start. -/
theorem Tracked.Reachable.accounted {x : Tracked} (h : x.Reachable) (account : Account) :
    x.state.recorded account + x.state.pending (unrecorded account) =
      (x.sends.map account.charge).sum := by
  refine Transition.Reachable.invariant (I := fun x : Tracked =>
    x.state.recorded account + x.state.pending (unrecorded account) =
      (x.sends.map account.charge).sum) ?_ ?_ h
  · rintro _ rfl
    cases account with
    | process pid direction => cases direction <;> rfl
    | total direction => cases direction <;> rfl
  intro x label x' hx hs hstep
  have hr := Tracked.Reachable.state hx
  obtain ⟨s', hnext, rfl⟩ := Option.map_eq_some_iff.mp hstep
  cases State.Step.of_step hnext with
  | tick elapsed => exact hs
  | @call call s' hops hbegin =>
    rcases State.begin_eq_some hbegin with ⟨rfl, hactive, rfl⟩ | ⟨hcall, rfl⟩
    · obtain ⟨hw, hsd⟩ := hr.handles.stopped hactive
      have hrecv := hr.handles.worker hw
      have hsend := hr.handles.sender hsd
      have hpending : (x.state.startWithIo.setOps .ui [.spawnSender]).pending (unrecorded account) =
          0 := by
        simp [State.pending, State.setOps, State.startWithIo, Function.update, hrecv, hsend,
          Op.bytes, Op.snapshot?]
      change _ + State.pending (x.state.startWithIo.setOps .ui [.spawnSender]) _ = 0
      rw [hpending]
      cases account with
      | process pid direction => cases direction <;> rfl
      | total direction => cases direction <;> rfl
    · have hpending : (x.state.setOps .ui call.program).pending (unrecorded account) =
          x.state.pending (unrecorded account) := by
        simp [State.pending, State.setOps, Function.update, hops, State.unrecorded_program]
      change x.state.recorded account + State.pending (x.state.setOps .ui call.program) _ = _
      rw [hpending, hs]
      cases call
      case startWithIo => exact absurd rfl hcall
      all_goals rfl
  | @next t env op rest pushed s₁ hops hexec =>
    have hfresh : op.Fresh := (hr.recordsFirst t).2 op (by simp [hops])
    have hbytes := State.exec_bytes hfresh hexec account
    have hpending := State.exec_pending (s₁.setOps t (pushed ++ rest)) hr
      (unrecorded_nil account) (State.unrecorded_runWorker account) hops hexec rfl
    have hrecorded : (s₁.setOps t (pushed ++ rest)).recorded account = s₁.recorded account := rfl
    simp only [unrecorded_append, unrecorded_cons] at hpending
    simp only [hops, List.head?_cons, Option.bind_some, List.map_append, List.sum_append]
    simp only [Nat.cast_add]
    omega
  | @panic t env op rest s₁ hops hexec =>
    obtain ⟨hsame, hnone, hdelivers⟩ := State.panic_bytes hr hops hexec account
    have hpending := State.exec_pending (s₁.panicked t) hr
      (unrecorded_nil account) (State.unrecorded_runWorker account) hops hexec rfl
    have hrecorded : (s₁.panicked t).recorded account = s₁.recorded account := rfl
    have hafter := (State.afterPanic_records s₁ t account).2.1
    simp only [hops, List.head?_cons, Option.bind_some, hdelivers, Option.toList_none,
      List.append_nil]
    omega

/-- The bytes of a direction are those of its processes and of its packets without one. -/
theorem sum_charge_total (direction : Direction) {pids : Finset UInt32} {sends : List Outgoing}
    (h : ∀ p ∈ sends, ∀ pid ∈ p.pid, pid ∈ pids) :
    (sends.map (Account.total direction).charge).sum =
      ∑ pid ∈ pids, (sends.map (Account.process pid direction).charge).sum +
        ((sends.filter fun p => p.pid = none ∧ p.direction = direction).map (·.chargeLen)).sum := by
  induction sends with
  | nil => simp
  | cons p sends ih =>
    have hone : (Account.total direction).charge p =
        ∑ pid ∈ pids, (Account.process pid direction).charge p +
          if p.pid = none ∧ p.direction = direction then p.chargeLen else 0 := by
      cases hp : p.pid with
      | none => simp [Account.charge, Account.covers, hp]
      | some pid =>
        have hmem : pid ∈ pids := h p List.mem_cons_self pid hp
        by_cases hd : p.direction = direction <;>
          simp [Account.charge, Account.covers, hp, hd, hmem]
    have hrest := ih fun q hq => h q (List.mem_cons_of_mem _ hq)
    simp only [List.map_cons, List.sum_cons, Finset.sum_add_distrib, List.filter_cons, hone, hrest]
    by_cases hnone : p.pid = none ∧ p.direction = direction <;> simp [hnone] <;> omega

namespace State

/-- The snapshots taken since the start, the one under way as far as it got. -/
def taken (s : State) : List EngineSnapshot :=
  s.snapshots ++ (s.ops .ui).filterMap Op.snapshot?

/-- The bytes in all snapshots and in the counter. -/
def bytes (s : State) (account : Account) : ℕ :=
  (s.taken.map account.ofSnapshot).sum + account.ofCounters s.counters

theorem recorded_of_quiet {s : State} (hr : s.Reachable)
    (hquiet : ∀ t, (s.ops t).all (!·.records)) (account : Account) :
    s.recorded account + s.pending (unrecorded account) = s.bytes account := by
  have hnone {t : Tid} (ht : t ≠ .ui) : unrecorded account (s.ops t) = 0 := by
    rw [unrecorded_of_quiet account (hquiet t), snapshots_of_allowed ht (hr.shape t).1]
    rfl
  rw [pending, hnone (by decide), hnone (by decide), unrecorded_of_quiet account (hquiet .ui),
    recorded, bytes, taken, List.map_append, List.sum_append]
  push_cast
  omega

/-- The byte counters lose and duplicate nothing: where nothing is being recorded, the snapshots and
the counter together hold the charge of each packet that `io.send` took, for each process and
direction and for each direction as a whole. -/
theorem bytes_conserved {x : Tracked} (h : x.Reachable)
    (hquiet : ∀ t, (x.state.ops t).all (!·.records)) :
    (∀ account : Account, x.state.bytes account =
        ((x.sends.filter (account.covers ·)).map (·.chargeLen)).sum) ∧
      ∀ direction (pids : Finset UInt32), (∀ p ∈ x.sends, ∀ pid ∈ p.pid, pid ∈ pids) →
        x.state.bytes (.total direction) =
          ∑ pid ∈ pids, x.state.bytes (.process pid direction) +
            ((x.sends.filter fun p => p.pid = none ∧ p.direction = direction).map
              (·.chargeLen)).sum := by
  have hsum (account : Account) : x.state.bytes account = (x.sends.map account.charge).sum := by
    have haccounted := h.accounted account
    rw [recorded_of_quiet h.state hquiet account] at haccounted
    exact_mod_cast haccounted
  refine ⟨fun account => (hsum account).trans (account.sum_charge x.sends), ?_⟩
  intro direction pids hpids
  rw [hsum, sum_charge_total direction hpids]
  simp only [hsum]

/-- A packet of process 7 with four bytes of payload is sent, and a snapshot taken. -/
def snapshotRun : List Label :=
  let packet : List UInt8 := [0x45, 0, 0, 32, 0, 0, 0, 0, 64, 17, 0, 0, 127, 0, 0, 1,
    192, 0, 2, 1, 0x12, 0x34, 0, 53, 0, 12, 0, 0, 1, 2, 3, 4]
  let arrives : Env := { recv := .ok (packet, ⟨0x00020000⟩), ports := fun _ _ _ => some 7 }
  [.call .startWithIo] ++ List.replicate 2 (.run .ui {})
    ++ List.replicate 32 (.run .receiver arrives) ++ [.call .snapshotAndReset]
    ++ List.replicate 8 (.run .ui {})

theorem bytes_conserved_snapshotRun : ∃ x : Tracked,
    snapshotRun.foldlM Tracked.step {} = some x ∧ x.sends.map (·.chargeLen) = [4] ∧
    x.state.bytes (.process 7 .upload) =
      ((x.sends.filter ((Account.process 7 .upload).covers ·)).map (·.chargeLen)).sum ∧
    x.state.bytes (.total .upload) =
      ((x.sends.filter ((Account.total .upload).covers ·)).map (·.chargeLen)).sum := by
  have hrun : ∃ x : Tracked, snapshotRun.foldlM Tracked.step {} = some x ∧
      x.sends.map (·.chargeLen) = [4] ∧ (x.state.ops .receiver).all (!·.records) ∧
      (x.state.ops .sender).all (!·.records) ∧ (x.state.ops .ui).all (!·.records) :=
    ⟨_, rfl, rfl, rfl, rfl, rfl⟩
  obtain ⟨x, hrun, hsends, hreceiver, hsender, hui⟩ := hrun
  have hquiet : ∀ t, (x.state.ops t).all (!·.records) := by
    intro t
    cases t
    · exact hreceiver
    · exact hsender
    · exact hui
  have haccounts := (bytes_conserved (.of_follow hrun) hquiet).1
  exact ⟨x, hrun, hsends, haccounts (.process 7 .upload), haccounts (.total .upload)⟩

end State

end FlowBrake.Windows
