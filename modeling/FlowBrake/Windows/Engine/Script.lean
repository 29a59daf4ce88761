import FlowBrake.Windows.Engine.Queue

/-! What a thread does right before and after the operations that the other threads wait for. -/
namespace FlowBrake.Windows
open FlowBrake.Core Transition

/-- The operations of a receiver that may still put a packet into the queue. -/
def Op.receives : Op → Bool
  | .recvInit _ | .recv | .stage _ | .dispatch _ _ => true
  | .check c => match c with
    | .admitAborted _ | .processDelay _ | .globalDelay _ => true
    | _ => false
  | _ => false

/-- The operations with which the sender waits. -/
def Op.waits : Op → Bool
  | .park _ | .awaken _ => true
  | _ => false

/-- The operations of a start, and the one with which a start that failed ends the receiver. -/
def Op.starts : Op → Bool
  | .spawnSender | .spawnReceiver | .note .recvDone => true
  | _ => false

/-- What `rest`, the operations of thread `t` behind `op`, begins with or contains. -/
def Follows (t : Tid) (op : Op) (rest : List Op) : Prop :=
  (rest.head? = some (.note .recvDone) → op = .lockQueue) ∧ rest.all (!·.waits) ∧
    match op with
    | .releaseAll | .releaseRevised | .discardPending => rest.head? = some (.note .notify)
    | .note .draining => rest.head? = some .releaseAll
    -- Where the receiver could not be started, `stop` wakes the sender.
    | .note .recvDone => t ≠ .sender ∧ rest.all (!·.receives) ∧
        (rest.head? = some (.note .notify) ∨ t = .ui ∧ .check .stop ∈ rest)
    | .tally _ => t ≠ .ui
    | _ => True

def Script (t : Tid) : List Op → Prop
  | [] => True
  | op :: rest => Follows t op rest ∧ Script t rest

namespace State

theorem receives_of_allowed {t : Tid} {op : Op} (h : op.allowed t) (ht : t ≠ .receiver) :
    op.receives = false := by
  cases op
  case check c => cases c <;> simp_all [Op.allowed, Op.receives]
  all_goals simp_all [Op.allowed, Op.receives]

theorem script_tallies {t : Tid} {tallies : List Tally} {rest : List Op} (ht : t ≠ .ui)
    (hne : rest.head? ≠ some (.note .recvDone)) (hw : rest.all (!·.waits)) (h : Script t rest) :
    Script t (tallies.map .tally ++ rest) := by
  induction tallies with
  | nil => exact h
  | cons tally tallies ih =>
    refine ⟨⟨fun hd => ?_, by simpa [Op.waits] using hw, ht⟩, ih⟩
    cases tallies with
    | nil => exact absurd hd hne
    | cons => simp at hd

theorem script_edits {t : Tid} {edits : List Edit} {rest : List Op}
    (hne : rest.head? ≠ some (.note .recvDone)) (hw : rest.all (!·.waits)) (h : Script t rest) :
    Script t (edits.map .edit ++ rest) := by
  induction edits with
  | nil => exact h
  | cons edit edits ih =>
    refine ⟨⟨fun hd => ?_, by simpa [Op.waits] using hw, trivial⟩, ih⟩
    cases edits with
    | nil => exact absurd hd hne
    | cons => simp at hd

theorem check_script {s : State} {t : Tid} {c : Check} {rest : List Op}
    (hop : (Op.check c).allowed t) (hne : rest.head? ≠ some (.note .recvDone))
    (hw : rest.all (!·.waits)) (h : Script t rest) : Script t (s.check c ++ rest) := by
  cases c <;> simp only [check]
  case apply command =>
    rw [List.append_assoc]
    refine script_edits (by simp) (by simpa [Op.waits] using hw) ?_
    simpa [Script, Follows, Op.waits, h, hne] using hw
  all_goals repeat' split
  all_goals
    simp_all [Script, Follows, recordDrop, fail, drainQueue, Op.allowed, Op.waits]

theorem exec_script {s s' : State} {t : Tid} {env : Env} {op : Op} {rest pushed : List Op}
    (hop : op.allowed t) (hspawn : op.final → rest = []) (hs : Script t (op :: rest))
    (h : s.exec t env op = some (.next s' pushed)) : Script t (pushed ++ rest) := by
  obtain ⟨⟨hafter, hw, -⟩, hrest⟩ := hs
  by_cases hlock : op = .lockQueue
  · subst hlock
    simp only [exec, Option.ite_none_right_eq_some] at h
    obtain ⟨-, h⟩ := h
    cases h
    exact hrest
  have hne : rest.head? ≠ some (.note .recvDone) := fun hd => hlock (hafter hd)
  cases op
  case check c =>
    cases h
    exact check_script hop hne hw hrest
  case ioSend p =>
    have ht : t ≠ .ui := by simpa [Op.allowed] using hop
    simp only [exec, ioSend] at h
    split at h <;> cases h
    · obtain ⟨tallies, htallies⟩ := recordBytes_eq_map p.pid p.direction p.chargeLen
      exact htallies ▸ script_tallies ht hne hw hrest
    · split <;> simp_all [Script, Follows, recordDrop, fail, drainQueue, Op.waits]
  all_goals
    simp only [Op.allowed, decide_eq_true_eq] at hop
    simp only [exec, dispatch, senderLoop, tryQueue] at h
    repeat' split at h
    all_goals
      cases h <;>
        simp_all [Script, Follows, Op.final, recordDrop, send, stop, drainQueue, discardPending,
          fail, Op.receives, Op.waits]

theorem afterPanic_script (s : State) (t : Tid) : Script t (s.unwind t ++ afterPanic t) := by
  unfold unwind
  split <;> split <;> cases t <;>
    simp [afterPanic, fail, drainQueue, recvDone, discardPending, Script, Follows, Op.receives,
      Op.waits]

/-- Each thread's remaining operations keep to the order of its program. -/
theorem Reachable.script {s : State} (h : s.Reachable) (t : Tid) : Script t (s.ops t) := by
  refine (h.programs (P := fun t ops =>
    ((ops.all (Op.allowed t) ∧ Shape ops) ∧ Script t ops)) ?_ ?_ ?_ ?_ ?_ ?_ t).2
  · exact fun _ => ⟨⟨rfl, trivial⟩, trivial⟩
  · intro call
    cases call <;>
      simp [UiCall.program, stop, apply, Shape, Script, Follows, Op.allowed, Op.final, Op.lead,
        Op.spawns, Op.carries, Op.waits]
  · simp [runWorker, Shape, Script, Follows, Op.allowed, Op.final, Op.lead, Op.spawns, Op.carries,
      Op.waits]
  · simp [runWorker, recvDone, Shape, Script, Follows, Op.allowed, Op.final, Op.lead, Op.spawns,
      Op.carries, Op.receives, Op.waits]
  · intro s s' t env op rest pushed hops hexec
    obtain ⟨⟨hall, hshape⟩, hscript⟩ := hops
    simp only [List.all_cons, Bool.and_eq_true] at hall
    refine ⟨⟨?_, exec_shape hall.2 hall.1 hshape hexec⟩, exec_script hall.1 hshape.1 hscript hexec⟩
    rw [List.all_append, exec_allowed hall.1 hexec, hall.2]
    rfl
  · exact fun _ _ => ⟨afterPanic_shape _ _, afterPanic_script _ _⟩

/-- The flags change only at the operations that are there for it. -/
theorem exec_flags {s : State} {t : Tid} {env : Env} {op : Op} {o : Outcome}
    (h : s.exec t env op = some o) :
    (o.state.status.recvDone = s.status.recvDone ∨ op = .note .recvDone) ∧
      (o.state.status.draining = s.status.draining ∨ op = .note .draining) ∧
      (o.state.status.aborted = s.status.aborted ∨ op = .note .abort) ∧
      (o.state.status.notified = s.status.notified ∨ op = .note .notify ∨
        ∃ deadline, op = .park deadline) := by
  cases op
  case note note =>
    cases h
    cases note <;> simp [Outcome.state, Note.apply]
  all_goals
    simp only [exec, dispatch, senderLoop, ioSend, tryQueue] at h
    repeat' split at h
    all_goals cases h <;> simp [Outcome.state]

theorem check_pushed (s : State) (c : Check) :
    (s.check c).head? ≠ some (.note .recvDone) ∧ (s.check c).all (!·.waits) ∧
      (s.check c).all (!·.starts) := by
  cases c <;> simp only [check]
  case apply command =>
    refine ⟨fun hd => ?_, by simp [Op.waits], by simp [Op.starts]⟩
    cases hedits : command.edits <;> simp [hedits] at hd
  all_goals repeat' split
  all_goals simp [recordDrop, fail, drainQueue, Op.waits, Op.starts]

/-- The sender waits only when `senderLoop` found nothing due, and only a start starts threads. -/
theorem exec_pushed {s s' : State} {t : Tid} {env : Env} {op : Op} {pushed : List Op}
    (h : s.exec t env op = some (.next s' pushed)) :
    pushed.head? ≠ some (.note .recvDone) ∧
      (pushed.all (!·.waits) ∨ op = .senderLoop ∨ ∃ deadline, op = .park deadline) ∧
      (op.starts = false → pushed.all (!·.starts)) := by
  cases op
  case check c =>
    cases h
    obtain ⟨hhead, hwaits, hstarts⟩ := check_pushed s c
    exact ⟨hhead, .inl hwaits, fun _ => hstarts⟩
  case ioSend p =>
    simp only [exec, ioSend] at h
    split at h <;> cases h
    · obtain ⟨tallies, ht⟩ := recordBytes_eq_map p.pid p.direction p.chargeLen
      rw [ht]
      refine ⟨fun hd => ?_, .inl (by simp [Op.waits]), fun _ => by simp [Op.starts]⟩
      cases tallies <;> simp at hd
    · split <;> simp [recordDrop, fail, drainQueue, Op.waits, Op.starts]
  all_goals
    simp only [exec, dispatch, senderLoop, tryQueue] at h
    repeat' split at h
    all_goals
      cases h <;>
        simp [recordDrop, send, stop, drainQueue, discardPending, fail, Op.waits, Op.starts]

/-- The receiver is marked as done under the queue lock. -/
theorem Reachable.locked_recvDone {s : State} (h : s.Reachable) {t : Tid} {rest : List Op}
    (hops : s.ops t = .note .recvDone :: rest) : s.queueLock = some t := by
  refine h.invariant (I := fun s => ∀ t rest, s.ops t = .note .recvDone :: rest →
    s.queueLock = some t) (by simp) ?_ t rest hops
  intro s label s' hr hs hstep t' rest' hops'
  have hother {t : Tid} {env : Env} {op : Op} {rest : List Op} {o : Outcome}
      (hops : s.ops t = op :: rest) (hexec : s.exec t env op = some o) (ht : t' ≠ t)
      (hops' : o.state.ops t' = .note .recvDone :: rest') : o.state.queueLock = some t' := by
    obtain ⟨_, hafter, -⟩ := hr.locked.after_head hops
    have hheld := congrArg Held.queue (exec_held_other hafter hexec ht)
    simp only [held, decide_eq_decide] at hheld
    rcases exec_ops hexec t' with he | ⟨-, -, he⟩ | ⟨-, -, he⟩
    · exact hheld.mpr (hs t' rest' (he ▸ hops'))
    · simp [he, runWorker] at hops'
    · simp [he, runWorker] at hops'
  cases hstep with
  | tick elapsed => exact hs t' rest' hops'
  | @call call s' hops hbegin =>
    rw [begin_ops hbegin] at hops'
    by_cases ht : t' = .ui
    · subst ht
      rw [Function.update_self] at hops'
      cases call <;> simp [UiCall.program, stop, apply] at hops'
    · rw [Function.update_of_ne ht] at hops'
      rcases begin_eq_some hbegin with ⟨-, -, rfl⟩ | ⟨-, rfl⟩ <;> exact hs t' rest' hops'
  | @next t env op rest pushed s₁ hops hexec =>
    by_cases ht : t' = t
    · subst ht
      rw [setOps_self] at hops'
      cases hpushed : pushed with
      | nil =>
        rw [hpushed, List.nil_append] at hops'
        have hscript := hops ▸ hr.script t'
        obtain rfl := hscript.1.1 (by rw [hops']; rfl)
        simp only [exec, Option.ite_none_right_eq_some] at hexec
        obtain ⟨-, hexec⟩ := hexec
        cases hexec
        rfl
      | cons op' ops' =>
        rw [hpushed, List.cons_append, List.cons.injEq] at hops'
        exact absurd (by rw [hpushed, hops'.1]; rfl) (exec_pushed hexec).1
    · rw [setOps_of_ne _ ht] at hops'
      exact hother hops hexec ht hops'
  | @panic t env op rest s₁ hops hexec =>
    by_cases ht : t' = t
    · subst ht
      rw [panicked_self] at hops'
      unfold unwind at hops'
      split at hops' <;> split at hops' <;> cases t' <;> simp [afterPanic, fail] at hops'
    · exact hother hops hexec ht (panicked_of_ne s₁ ht ▸ hops')

end State

end FlowBrake.Windows
