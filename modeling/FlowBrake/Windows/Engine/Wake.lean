import FlowBrake.Windows.Engine.Script

/-! The sender never sleeps past what it waits for. -/
namespace FlowBrake.Windows
open FlowBrake.Core Transition

/-- The thread notifies the sender before it releases the queue lock. -/
def announces : List Op → Bool
  | .note .notify :: _ => true
  | .tally _ :: rest => announces rest
  | _ => false

/-- The operations that change what the sender waits for, the sender's own apart. -/
def Op.stirs : Op → Bool
  | .dispatch _ _ | .releaseAll | .releaseRevised | .discardPending | .note .recvDone => true
  | _ => false

namespace State

/-- A wait until `deadline` ends in time for the first entry; without entries, the receiver has
still to end. -/
def Timed (s : State) (deadline : Option Instant) : Prop :=
  match s.queue.nextDeadline with
  | some next => ∃ target ∈ deadline, target ≤ next
  | none => s.status.recvDone = false

/-- A sender that parks or is parked waits no longer than it should, or is about to be woken. -/
structure Attentive (s : State) : Prop where
  park : ∀ deadline rest, s.ops .sender = .park deadline :: rest → s.Timed deadline
  awaken : ∀ deadline rest, s.ops .sender = .awaken deadline :: rest →
    s.status.notified = false →
      s.Timed deadline ∨ ∃ t, s.queueLock = some t ∧ announces (s.ops t)

theorem timed_congr {s s' : State} (hq : s'.queue.nextDeadline = s.queue.nextDeadline)
    (hr : s'.status.recvDone = s.status.recvDone) (deadline : Option Instant) :
    s'.Timed deadline ↔ s.Timed deadline := by
  rw [Timed, Timed, hq, hr]

theorem attentive_of_not_waits {s : State}
    (h : ∀ op rest, s.ops .sender = op :: rest → op.waits = false) : s.Attentive where
  park deadline rest hops := by cases h _ _ hops
  awaken deadline rest hops := by cases h _ _ hops

/-- Whoever changes what the sender waits for holds the queue lock. -/
theorem locked_of_stirs {s : State} (hr : s.Reachable) {t : Tid} {op : Op} {rest : List Op}
    (hops : s.ops t = op :: rest) (hop : op.stirs) : s.queueLock = some t := by
  obtain ⟨held', hafter, -⟩ := hr.locked.after_head hops
  have hqueue : (s.held t).queue = true → s.queueLock = some t := by simp [held]
  cases op
  case note note =>
    cases note <;> simp [Op.stirs] at hop
    exact hr.locked_recvDone hops
  case dispatch | releaseAll | releaseRevised | discardPending =>
    simp only [Op.after, Option.ite_none_right_eq_some] at hafter
    exact hqueue (by simp [hafter.1])
  all_goals cases hop

/-- An operation of another thread that is not one of those leaves the sender's wait as it is. -/
theorem exec_timed {s : State} (hr : s.Reachable) {t : Tid} {env : Env} {op : Op} {rest : List Op}
    {o : Outcome} (hops : s.ops t = op :: rest) (ht : t ≠ .sender) (hop : op.stirs = false)
    (h : s.exec t env op = some o) (deadline : Option Instant) :
    o.state.Timed deadline ↔ s.Timed deadline := by
  have hall := hr.allowed hops
  have hon : op.onQueue = false := by
    cases op <;> simp_all [Op.onQueue, Op.stirs, Op.allowed]
  refine timed_congr (by rw [(exec_queue hon h).1]) ?_ deadline
  exact (exec_flags h).1.resolve_right fun he => by rw [he] at hop; cases hop

theorem announces_of_head {ops : List Op} (h : ops.head? = some (.note .notify)) :
    announces ops := by
  cases ops with
  | nil => cases h
  | cons op rest =>
    cases Option.some.inj h
    rfl

/-- Such a change is announced, unless the receiver did not take the packet in. -/
theorem stirs_announces {s s' : State} (hr : s.Reachable) {t : Tid} {env : Env} {op : Op}
    {rest pushed : List Op} (hops : s.ops t = op :: rest) (hop : op.stirs)
    (hdone : op = .note .recvDone → announces rest)
    (h : s.exec t env op = some (.next s' pushed)) :
    s'.queueLock = s.queueLock ∧ (announces (pushed ++ rest) ∨ s' = s) := by
  have hscript := hops ▸ hr.script t
  cases op
  case note note =>
    cases note <;> simp [Op.stirs] at hop
    cases h
    exact ⟨rfl, .inl (hdone rfl)⟩
  case dispatch a delayMs =>
    simp only [exec, Option.some.injEq] at h
    rcases dispatch_cases hr.queueOk a delayMs with
      ⟨he, -⟩ | he | ⟨-, queue, ⟨he, -⟩ | ⟨he, -⟩⟩ <;> cases he.symm.trans h
    · exact ⟨rfl, .inr rfl⟩
    · exact ⟨rfl, .inr rfl⟩
    · exact ⟨rfl, .inl rfl⟩
  case releaseAll =>
    obtain ⟨queue, he, -⟩ := releaseAll_next hr.queueOk t env
    cases he.symm.trans h
    exact ⟨rfl, .inl (announces_of_head hscript.1.2.2)⟩
  case releaseRevised =>
    obtain ⟨queue, he, -⟩ := releaseRevised_next hr.queueOk t env
    cases he.symm.trans h
    exact ⟨rfl, .inl (announces_of_head hscript.1.2.2)⟩
  case discardPending =>
    cases h
    exact ⟨rfl, .inl (announces_of_head hscript.1.2.2)⟩
  all_goals cases hop

/-- A thread that is about to notify the sender stays so while others take their turns. -/
theorem exec_announcing {s : State} (hr : s.Reachable) {t t' : Tid} {env : Env} {op : Op}
    {rest : List Op} {o : Outcome} (hops : s.ops t = op :: rest) (ht : t' ≠ t)
    (h : s.exec t env op = some o) (hlock : s.queueLock = some t') (ha : announces (s.ops t')) :
    o.state.queueLock = some t' ∧ announces (o.state.ops t') := by
  obtain ⟨_, hafter, -⟩ := hr.locked.after_head hops
  have hheld := congrArg Held.queue (exec_held_other hafter h ht)
  simp only [held, decide_eq_decide] at hheld
  refine ⟨hheld.mpr hlock, ?_⟩
  rcases exec_ops h t' with he | ⟨rfl, rfl, -⟩ | ⟨rfl, rfl, -⟩
  · rw [he]
    exact ha
  · rw [hr.handles.sender (hr.handles.joined _ (ui_op hr hops rfl)).2.2] at ha
    cases ha
  · rw [hr.handles.worker (hr.handles.joined _ (ui_op hr hops rfl)).2] at ha
    cases ha

/-- Another thread's step keeps the sender's wait in time. -/
theorem Attentive.next_other {s s' : State} (hs : s.Attentive) (hr : s.Reachable) {t : Tid}
    {env : Env} {op : Op} {rest pushed : List Op} (hops : s.ops t = op :: rest) (ht : t ≠ .sender)
    (hdone : op = .note .recvDone → announces rest)
    (h : s.exec t env op = some (.next s' pushed)) : (s'.setOps t (pushed ++ rest)).Attentive := by
  have hsender : (s'.setOps t (pushed ++ rest)).ops .sender = s'.ops .sender :=
    setOps_of_ne _ (Ne.symm ht) _
  rcases exec_ops h .sender with he | ⟨-, -, he⟩ | ⟨-, ht', -⟩
  · refine ⟨fun deadline rest' hops' => ?_, fun deadline rest' hops' hn => ?_⟩
    · have hpark := he.symm.trans (hsender.symm.trans hops')
      have hstirs : op.stirs = false := by
        by_contra hop
        obtain ⟨_, hafter, -⟩ := hr.locked.after_head hpark
        simp only [Op.after, Option.ite_none_right_eq_some] at hafter
        have hlock := locked_of_stirs hr hops (by simpa using hop)
        have hheld : s.queueLock = some .sender := by
          simpa [held] using congrArg Held.queue hafter.1
        exact ht (Option.some.inj (hlock.symm.trans hheld))
      exact (exec_timed hr hops ht hstirs h deadline).mpr (hs.park deadline rest' hpark)
    · have hawaken := he.symm.trans (hsender.symm.trans hops')
      have hnotify : op ≠ .note .notify := by
        rintro rfl
        cases h
        cases hn
      have hold : s.status.notified = false := by
        rcases (exec_flags h).2.2.2 with hsame | hop | ⟨_, rfl⟩
        · exact hsame.symm.trans hn
        · exact absurd hop hnotify
        · have hall := (hr.shape t).1
          simp only [hops, List.all_cons, Bool.and_eq_true] at hall
          exact absurd (by simpa [Op.allowed] using hall.1) ht
      rcases hs.awaken deadline rest' hawaken hold with htimed | ⟨t', hlock, ha⟩
      · cases hop : op.stirs with
        | false => exact .inl ((exec_timed hr hops ht hop h deadline).mpr htimed)
        | true =>
          obtain ⟨hlock, ha | rfl⟩ := stirs_announces hr hops hop hdone h
          · refine .inr ⟨t, hlock.trans (locked_of_stirs hr hops hop), ?_⟩
            rw [setOps_self]
            exact ha
          · exact .inl htimed
      · by_cases ht' : t' = t
        · subst ht'
          rw [hops] at ha
          cases op
          case tally tally =>
            cases h
            refine .inr ⟨t', hlock, ?_⟩
            rw [setOps_self]
            exact ha
          case note note => cases note <;> first | exact absurd rfl hnotify | cases ha
          all_goals cases ha
        · obtain ⟨hlock', ha'⟩ := exec_announcing hr hops ht' h hlock ha
          refine .inr ⟨t', hlock', ?_⟩
          rw [setOps_of_ne _ ht']
          exact ha'
  · refine attentive_of_not_waits fun op' rest' hops' => ?_
    cases he.symm.trans (hsender.symm.trans hops')
    rfl
  · cases ht'

theorem attentive_of_all {s : State} (h : (s.ops .sender).all (!·.waits)) : s.Attentive := by
  refine attentive_of_not_waits fun op rest hops => ?_
  rw [hops, List.all_cons, Bool.and_eq_true, Bool.not_eq_true'] at h
  exact h.1

/-- The sender parks until the deadline it has just read. -/
theorem Attentive.next_sender {s s' : State} (hs : s.Attentive) (hr : s.Reachable) {env : Env}
    {op : Op} {rest pushed : List Op} (hops : s.ops .sender = op :: rest)
    (h : s.exec .sender env op = some (.next s' pushed)) :
    (s'.setOps .sender (pushed ++ rest)).Attentive := by
  have hrest := (hops ▸ hr.script .sender).1.2.1
  rcases (exec_pushed h).2.1 with hpushed | rfl | ⟨deadline, rfl⟩
  · refine attentive_of_all ?_
    rw [setOps_self, List.all_append, hpushed, hrest]
    rfl
  · obtain rfl : rest = [] := (hops ▸ (hr.shape .sender).2).1 rfl
    simp only [exec, Option.some.injEq] at h
    rcases hr.queueOk.consistent.popDue s.now with he | ⟨entry, heap, state, -, -, -, he, -⟩
    · simp only [senderLoop, tryQueue, he] at h
      split at h <;> cases h
      · exact attentive_of_all (by rw [setOps_self]; rfl)
      · next hwait =>
        refine ⟨fun deadline rest hops' => ?_, fun deadline rest hops' => ?_⟩
        · rw [setOps_self] at hops'
          cases hops'
          simp only [Bool.and_eq_true, Option.isNone_iff_eq_none, not_and] at hwait
          rw [Timed]
          cases hnext : s.queue.nextDeadline with
          | none =>
            simp only [setOps, hnext]
            exact Bool.eq_false_iff.mpr fun hd => hwait hd hnext
          | some next =>
            simp only [setOps, hnext]
            exact ⟨next, rfl, le_rfl⟩
        · rw [setOps_self] at hops'
          cases hops'
    · simp only [senderLoop, tryQueue, he] at h
      cases h
      exact attentive_of_all (by rw [setOps_self]; rfl)
  · cases h
    refine ⟨fun deadline' rest' hops' => ?_, fun deadline' rest' hops' _ => .inl ?_⟩
    · rw [setOps_self] at hops'
      cases hops'
    · rw [setOps_self] at hops'
      cases hops'
      exact hs.park deadline rest hops

/-- A panic touches neither the entries nor the flags. -/
theorem panic_keeps {s s' : State} (hr : s.Reachable) {t : Tid} {env : Env} {op : Op}
    {rest : List Op} (hops : s.ops t = op :: rest) (h : s.exec t env op = some (.panic s')) :
    s'.queue.heap = s.queue.heap ∧ s'.status = s.status ∧ s'.queueLock = s.queueLock ∧
      s'.ops = s.ops := by
  rcases panic_cases hr hops h with ⟨p, -, rfl⟩ | rfl
  · exact ⟨rfl, rfl, rfl, rfl⟩
  have hall := hr.allowed hops
  cases op
  case dispatch a delayMs =>
    simp only [exec, dispatch, Option.some.injEq] at h
    split at h
    · next hheld =>
      rcases s.queue.enqueue_cases a.pending (if s.status.draining then a.receivedAt
        else a.receivedAt + delayMs.toNat * 1000000) with he | he | ⟨-, he⟩ <;>
        simp only [he] at h <;> cases h
      exact ⟨rfl, rfl, rfl, rfl⟩
    · cases h
  case releaseAll =>
    obtain ⟨queue, he, -⟩ := releaseAll_next hr.queueOk .receiver env
    cases he.symm.trans h
  case senderLoop | finish | releaseRevised => simp [Op.allowed] at hall
  all_goals
    simp only [exec, ioSend] at h
    repeat' split at h
    all_goals cases h <;> exact ⟨rfl, rfl, rfl, rfl⟩

/-- A step keeps the sender's wait in time, except where a start that failed marks the receiver as
done. -/
theorem Attentive.step {s s' : State} {label : Label} (hs : s.Attentive) (hr : s.Reachable)
    (hdone : ∀ rest, s.ops .ui = .note .recvDone :: rest → announces rest)
    (hstep : s.Step label s') : s'.Attentive := by
  have hsilent {t : Tid} {rest : List Op} (hops : s.ops t = .note .recvDone :: rest) :
      announces rest := by
    obtain ⟨hne, -, hnotify | ⟨rfl, -⟩⟩ := (hops ▸ hr.script t).1.2.2
    · exact announces_of_head hnotify
    · exact hdone rest hops
  cases hstep with
  | tick elapsed => exact ⟨hs.park, hs.awaken⟩
  | @call call s' hops hbegin =>
    rcases begin_eq_some hbegin with ⟨-, hactive, rfl⟩ | ⟨-, rfl⟩
    · refine attentive_of_all ?_
      rw [setOps_of_ne _ (by decide)]
      exact (hr.handles.sender (hr.handles.stopped hactive).2) ▸ rfl
    · refine ⟨fun deadline rest hops' => ?_, fun deadline rest hops' hn => ?_⟩
      · exact hs.park deadline rest hops'
      · rcases hs.awaken deadline rest hops' hn with htimed | ⟨t, hlock, ha⟩
        · exact .inl htimed
        · have ht : t ≠ .ui := by
            rintro rfl
            rw [hops] at ha
            cases ha
          exact .inr ⟨t, hlock, by rwa [setOps_of_ne _ ht]⟩
  | @next t env op rest pushed s₁ hops hexec =>
    by_cases ht : t = .sender
    · subst ht
      exact hs.next_sender hr hops hexec
    · exact hs.next_other hr hops ht (fun he => hsilent (he ▸ hops)) hexec
  | @panic t env op rest s₁ hops hexec =>
    by_cases ht : t = .sender
    · subst ht
      refine attentive_of_all ?_
      rw [panicked_self]
      unfold unwind
      split <;> split <;> rfl
    · obtain ⟨hheap, hstatus, hlock, hothers⟩ := panic_keeps hr hops hexec
      have hsender : (s₁.panicked t).ops .sender = s.ops .sender :=
        (panicked_of_ne s₁ (Ne.symm ht)).trans (congrFun hothers _)
      have htimed (deadline : Option Instant) : (s₁.panicked t).Timed deadline ↔ s.Timed deadline :=
        timed_congr (congrArg (fun heap => heap.peek?.map Entry.deadline) hheap)
          (congrArg Status.recvDone hstatus) deadline
      refine ⟨fun deadline rest' hops' => ?_, fun deadline rest' hops' hn => ?_⟩
      · exact (htimed deadline).mpr (hs.park deadline rest' (hsender.symm.trans hops'))
      · have hn' : s.status.notified = false := (congrArg Status.notified hstatus).symm.trans hn
        rcases hs.awaken deadline rest' (hsender.symm.trans hops') hn' with htime | ⟨t', hl, ha⟩
        · exact .inl ((htimed deadline).mpr htime)
        · refine .inr ⟨t', hlock.trans hl, ?_⟩
          -- A thread that panics was not about to notify.
          have ht' : t' ≠ t := by
            rintro rfl
            rw [hops] at ha
            cases op
            case note note => cases hexec
            case tally tally => cases hexec
            all_goals cases ha
          rw [panicked_of_ne s₁ ht', hothers]
          exact ha

/-- A start has returned, and no other has begun. -/
def Started (s : State) : Prop := (s.ops .ui).all (!·.starts)

theorem Started.step {s s' : State} {label : Label} (hs : s.Started)
    (hlabel : label ≠ .call .startWithIo) (hstep : s.Step label s') : s'.Started := by
  unfold Started at hs ⊢
  cases hstep with
  | tick elapsed => exact hs
  | @call call s' hops hbegin =>
    rw [begin_ops hbegin, Function.update_self]
    cases call <;> first | rfl | exact absurd rfl hlabel
  | @next t env op rest pushed s₁ hops hexec =>
    by_cases ht : t = .ui
    · subst ht
      rw [hops, List.all_cons, Bool.and_eq_true, Bool.not_eq_true'] at hs
      rw [setOps_self, List.all_append, (exec_pushed hexec).2.2 hs.1, hs.2]
      rfl
    · rw [setOps_of_ne _ (Ne.symm ht), show s₁.ops .ui = s.ops .ui from exec_ui_ops hexec]
      exact hs
  | @panic t env op rest s₁ hops hexec =>
    by_cases ht : t = .ui
    · subst ht
      rw [panicked_self]
      unfold unwind
      split <;> split <;> rfl
    · rw [panicked_of_ne _ (Ne.symm ht), show s₁.ops .ui = s.ops .ui from exec_ui_ops hexec]
      exact hs

/-- The owner is on its way to join the sender. -/
def Joining (s : State) : Prop :=
  .check .stop ∈ s.ops .ui ∨ .joinWorker ∈ s.ops .ui ∨ .joinSender ∈ s.ops .ui

/-- Once the sender is joined, there is no one to wake. -/
theorem Joining.next {s s' : State} (hs : s.Joining) {env : Env} {op : Op} {rest pushed : List Op}
    (hr : s.Reachable) (hops : s.ops .ui = op :: rest)
    (h : s.exec .ui env op = some (.next s' pushed)) :
    (s'.setOps .ui (pushed ++ rest)).Joining ∨ (s'.setOps .ui (pushed ++ rest)).Attentive := by
  have hkeep {op' : Op} (hm : op' ∈ s.ops .ui) (hne : op' ≠ op) : op' ∈ pushed ++ rest := by
    rw [hops] at hm
    exact List.mem_append_right _ ((List.mem_cons.mp hm).resolve_left hne)
  by_cases hstop : op = .check .stop
  · subst hstop
    cases h
    exact .inl (.inr (.inl (by rw [setOps_self]; simp [check])))
  by_cases hworker : op = .joinWorker
  · subst hworker
    simp only [exec, Option.ite_none_left_eq_some] at h
    obtain ⟨-, h⟩ := h
    cases h
    exact .inl (.inr (.inr (by rw [setOps_self]; simp)))
  by_cases hsender : op = .joinSender
  · subst hsender
    simp only [exec, Option.ite_none_left_eq_some] at h
    obtain ⟨hdone, h⟩ := h
    cases h
    refine .inr (attentive_of_all ?_)
    rw [setOps_of_ne _ (by decide)]
    have hnil : s.ops .sender = [] := by
      cases hsd : s.sender with
      | false => exact hr.handles.sender hsd
      | true => simpa [hsd] using hdone
    exact hnil ▸ rfl
  left
  rw [Joining, setOps_self]
  exact hs.imp (hkeep · (Ne.symm hstop)) (Or.imp (hkeep · (Ne.symm hworker))
    (hkeep · (Ne.symm hsender)))

theorem Joining.step {s s' : State} {label : Label} (hs : s.Joining) (hr : s.Reachable)
    (hstep : s.Step label s') : s'.Joining ∨ s'.Attentive := by
  cases hstep with
  | tick elapsed => exact .inl hs
  | call hops hbegin =>
    rw [Joining, hops] at hs
    simp at hs
  | @next t env op rest pushed s₁ hops hexec =>
    by_cases ht : t = .ui
    · subst ht
      exact hs.next hr hops hexec
    · left
      rw [Joining, setOps_of_ne _ (Ne.symm ht), show s₁.ops .ui = s.ops .ui from exec_ui_ops hexec]
      exact hs
  | @panic t env op rest s₁ hops hexec =>
    left
    rw [Joining, panicked_of_ne _ (Ne.symm (panic_ne_ui hr hops hexec)),
      show s₁.ops .ui = s.ops .ui from exec_ui_ops hexec]
    exact hs

theorem Reachable.attentive {s : State} (h : s.Reachable) : s.Joining ∨ s.Attentive := by
  refine h.invariant (I := fun s => s.Joining ∨ s.Attentive) ?_ ?_
  · exact .inr (attentive_of_all rfl)
  intro s label s' hr hs hstep
  by_cases hjoin : s.Joining
  · exact hjoin.step hr hstep
  · refine .inr ((hs.resolve_left hjoin).step hr (fun rest hops => ?_) hstep)
    obtain ⟨hne, -, hnotify | ⟨-, hstop⟩⟩ := (hops ▸ hr.script .ui).1.2.2
    · exact announces_of_head hnotify
    · exact absurd (.inl (by rw [hops]; exact List.mem_cons_of_mem _ hstop)) hjoin

/-- After a start has returned, a parked sender that no notification awaits, with no thread in
the queue's critical section, wakes up in time for the first entry, and waits without a deadline
only for a receiver that has still to end. -/
theorem no_lost_wakeup {s₀ s : State} {labels : List Label} (hr : s₀.Reachable)
    (hidle : s₀.ops .ui = []) (hrun : Runs s₀ labels s)
    (hstart : ∀ label ∈ labels, label ≠ .call .startWithIo) {deadline : Option Instant}
    {rest : List Op} (hparked : s.ops .sender = .awaken deadline :: rest)
    (hnotified : s.status.notified = false) (hlock : s.queueLock = none) :
    (s.queue.heap.entries ≠ [] → ∃ target next, deadline = some target ∧
        s.queue.nextDeadline = some next ∧ target ≤ next) ∧
      (s.queue.heap.entries = [] → s.status.recvDone = false) := by
  have hinv : s.Reachable ∧ s.Attentive ∧ s.Started := by
    refine hrun.preserves_of_labels (I := fun s => s.Reachable ∧ s.Attentive ∧ s.Started) ?_ hstart
      ⟨hr, hr.attentive.resolve_left ?_, ?_⟩
    · intro s label s' hs hlabel hstep
      obtain ⟨hr, ha, hst⟩ := hs
      refine ⟨hr.next hstep, ha.step hr (fun rest hops => ?_) (.of_step hstep),
        hst.step hlabel (.of_step hstep)⟩
      rw [Started, hops] at hst
      cases hst
    · simp [Joining, hidle]
    · rw [Started, hidle]
      rfl
  have htimed : s.Timed deadline := by
    rcases hinv.2.1.awaken deadline rest hparked hnotified with htimed | ⟨t, ht, -⟩
    · exact htimed
    · rw [hlock] at ht
      cases ht
  rw [Timed] at htimed
  constructor
  · intro hne
    cases hnext : s.queue.nextDeadline with
    | none => exact absurd (DelayQueue.nextDeadline_eq_none.mp hnext) hne
    | some next =>
      rw [hnext] at htimed
      obtain ⟨target, htarget, hle⟩ := htimed
      exact ⟨target, next, htarget, rfl, hle⟩
  · intro hempty
    rw [DelayQueue.nextDeadline_eq_none.mpr hempty] at htimed
    exact htimed

/-- A delay for all traffic, a packet that it holds back, and the sender parked for it. -/
def delayedPacketRun : List Label :=
  let packet : List UInt8 := [0x45, 0, 0, 28, 0, 0, 0, 0, 64, 17, 0, 0, 127, 0, 0, 1,
    192, 0, 2, 1, 0x12, 0x34, 0, 53, 0, 8, 0, 0]
  let arrives : Env := { recv := .ok (packet, ⟨0x00020000⟩) }
  [.call (.apply (.setGlobalRule { uploadDelayMs := some 50 }))]
    ++ List.replicate 11 (.run .ui {}) ++ List.replicate 27 (.run .receiver arrives)
    ++ List.replicate 3 (.run .sender {})

theorem no_lost_wakeup_delayedPacketRun : ∃ s₀ s : State, ∃ deadline rest,
    follow {} ([.call .startWithIo] ++ List.replicate 2 (.run .ui {})) = some s₀ ∧
    follow s₀ delayedPacketRun = some s ∧ s.ops .sender = .awaken deadline :: rest ∧
    ∃ target next, deadline = some target ∧ s.queue.nextDeadline = some next ∧ target ≤ next := by
  have hstart : ∃ s₀, follow {} ([.call .startWithIo] ++ List.replicate 2 (.run .ui {})) = some s₀ ∧
      s₀.ops .ui = [] ∧ ∃ s, follow s₀ delayedPacketRun = some s ∧
        s.ops .sender = [.awaken (some 50000000)] ∧ s.status.notified = false ∧
        s.queueLock = none ∧ s.queue.nextDeadline = some 50000000 :=
    ⟨_, rfl, rfl, _, rfl, rfl, rfl, rfl, rfl⟩
  obtain ⟨s₀, hs₀, hidle, s, hs, hparked, hnotified, hlock, hnext⟩ := hstart
  have hlabels : ∀ label ∈ delayedPacketRun, label ≠ .call .startWithIo := by
    intro label hlabel
    simp only [delayedPacketRun, List.mem_append, List.mem_singleton, List.mem_replicate] at hlabel
    obtain ((rfl | ⟨-, rfl⟩) | ⟨-, rfl⟩) | ⟨-, rfl⟩ := hlabel <;> simp
  have hne : s.queue.heap.entries ≠ [] := fun hempty => by
    rw [DelayQueue.nextDeadline_eq_none.mpr hempty] at hnext
    cases hnext
  exact ⟨s₀, s, _, _, hs₀, hs, hparked, (no_lost_wakeup (.of_follow hs₀) hidle (.of_follow hs)
    hlabels hparked hnotified hlock).1 hne⟩

end State

end FlowBrake.Windows
