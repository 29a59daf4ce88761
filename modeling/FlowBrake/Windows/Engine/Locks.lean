import FlowBrake.Windows.Engine.Threads

/-! The lock discipline: what each operation needs to hold and what it leaves held. -/
namespace FlowBrake.Windows
open FlowBrake.Core Transition

/-- The locks a thread holds. -/
structure Held where
  gate : Bool
  queue : Bool
  deriving DecidableEq

/-- The locks held after `op` and all it puts in its place; `none` where `op` may not run. -/
def Op.after (held : Held) : Op → Option Held
  | .lockGate => if held = ⟨false, false⟩ then some ⟨true, false⟩ else none
  | .unlockGate => if held = ⟨true, false⟩ then some ⟨false, false⟩ else none
  | .lockQueue => if held.queue then none else some { held with queue := true }
  | .unlockQueue => if held.queue then some { held with queue := false } else none
  | .tally _ | .note _ => some held
  | .edit _ | .ioSend _ => if held = ⟨true, false⟩ then some held else none
  | .check (.sendAborted _) | .check (.sendGlobalBlocks _) | .check (.sendProcessBlocks _)
  | .check (.releaseIfRevised _) => if held = ⟨true, false⟩ then some held else none
  | .check (.admitAborted _) | .check (.processDelay _) | .check (.globalDelay _)
  | .check (.apply _) => if held = ⟨true, false⟩ then some ⟨false, false⟩ else none
  | .releaseAll | .discardPending => if held.queue then some held else none
  | .releaseRevised => if held = ⟨true, true⟩ then some held else none
  | .dispatch _ _ => if held = ⟨true, true⟩ then some ⟨false, false⟩ else none
  | .finish _ | .snapshotDownload _ | .snapshotUpload _ | .snapshotCounters _ =>
    if held = ⟨false, true⟩ then some held else none
  | .senderLoop | .park _ => if held = ⟨false, true⟩ then some ⟨false, false⟩ else none
  | .check _ | .stage _ | .recvInit _ | .recv | .awaken _ | .swapStopping | .shutdownRecv
  | .spawnSender | .spawnReceiver | .joinWorker | .joinSender | .takeActiveWorker
  | .syncSocketBlock | .snapshotBlock _ | .snapshotPids _ =>
    if held = ⟨false, false⟩ then some held else none

/-- The locks held after a list of operations. -/
def heldAfter (held : Held) : List Op → Option Held
  | [] => some held
  | op :: ops => (op.after held).bind fun held => heldAfter held ops

theorem heldAfter_append (held : Held) (ops ops' : List Op) :
    heldAfter held (ops ++ ops') = (heldAfter held ops).bind fun held => heldAfter held ops' := by
  induction ops generalizing held with
  | nil => rfl
  | cons op ops ih =>
    simp only [List.cons_append, heldAfter]
    cases op.after held with
    | none => rfl
    | some held => exact ih held

theorem heldAfter_tallies (held : Held) (tallies : List Tally) :
    heldAfter held (tallies.map .tally) = some held := by
  induction tallies with
  | nil => rfl
  | cons tally tallies ih => exact ih

theorem heldAfter_edits (edits : List Edit) :
    heldAfter ⟨true, false⟩ (edits.map .edit) = some ⟨true, false⟩ := by
  induction edits with
  | nil => rfl
  | cons edit edits ih => exact ih

namespace State

def held (s : State) (t : Tid) : Held := ⟨s.gate = some t, s.queueLock = some t⟩

/-- Every thread's operations start from the locks it holds and end with none held. -/
def Locked (s : State) : Prop := ∀ t, heldAfter (s.held t) (s.ops t) = some ⟨false, false⟩

theorem check_heldAfter {s : State} {c : Check} {held held' : Held}
    (h : (Op.check c).after held = some held') : heldAfter held (s.check c) = some held' := by
  cases c <;> simp only [Op.after, Option.ite_none_right_eq_some] at h <;>
    obtain ⟨rfl, h⟩ := h <;> cases h <;> simp only [check]
  case apply command =>
    rw [heldAfter_append, heldAfter_edits]
    rfl
  all_goals repeat' split
  all_goals rfl

theorem ioSend_heldAfter {s s' : State} {env : Env} {p : Outgoing} {pushed : List Op}
    (h : s.ioSend env p = .next s' pushed) :
    heldAfter ⟨true, false⟩ pushed = some ⟨true, false⟩ := by
  unfold ioSend at h
  split at h
  · cases h
  · cases h
    obtain ⟨tallies, ht⟩ := recordBytes_eq_map p.pid p.direction p.chargeLen
    exact ht ▸ heldAfter_tallies ..
  · cases h
    split <;> rfl

theorem dispatch_heldAfter {s s' : State} {a : Admission} {delayMs : UInt32} {pushed : List Op}
    (h : s.dispatch a delayMs = .next s' pushed) :
    heldAfter ⟨true, true⟩ pushed = some ⟨false, false⟩ := by
  simp only [dispatch] at h
  repeat' split at h
  all_goals cases h <;> rfl

/-- What an operation puts in its place takes the thread from the locks it then holds to those
it should end with. -/
theorem exec_heldAfter {s s' : State} {t : Tid} {env : Env} {op : Op} {pushed : List Op}
    {held' : Held} (hop : op.after (s.held t) = some held')
    (h : s.exec t env op = some (.next s' pushed)) :
    heldAfter (s'.held t) pushed = some held' := by
  cases op
  case check c =>
    cases h
    exact check_heldAfter hop
  case tally | note =>
    cases h
    exact hop
  case lockGate =>
    simp only [exec, Option.ite_none_right_eq_some] at h
    obtain ⟨-, h⟩ := h
    cases h
    simp_all [Op.after, held, heldAfter]
  case lockQueue =>
    simp only [exec, Option.ite_none_right_eq_some] at h
    obtain ⟨-, h⟩ := h
    cases h
    simp_all [Op.after, held, heldAfter]
  case unlockGate | unlockQueue =>
    cases h
    simp_all [Op.after, held, heldAfter]
  case park deadline =>
    cases h
    simp_all [Op.after, held, heldAfter]
  case awaken deadline =>
    simp only [exec, Option.ite_none_right_eq_some] at h
    obtain ⟨-, h⟩ := h
    cases h
    simp_all [Op.after, held, heldAfter]
  case ioSend p =>
    simp only [Op.after, Option.ite_none_right_eq_some] at hop
    obtain ⟨hh, hop⟩ := hop
    cases hop
    have hs' : s'.held t = s.held t := by
      simp only [exec, ioSend] at h
      repeat' split at h
      all_goals cases h <;> rfl
    rw [hs', hh]
    exact ioSend_heldAfter (Option.some_injective _ h)
  case dispatch a delayMs =>
    simp only [Op.after, Option.ite_none_right_eq_some] at hop
    obtain ⟨hh, hop⟩ := hop
    cases hop
    have hs' : s'.held t = s.held t := by
      simp only [exec, dispatch] at h
      repeat' split at h
      all_goals cases h <;> rfl
    rw [hs', hh]
    exact dispatch_heldAfter (Option.some_injective _ h)
  all_goals
    simp only [Op.after, Option.ite_none_right_eq_some] at hop
    obtain ⟨hh, hop⟩ := hop
    cases hop
    simp only [exec, senderLoop, tryQueue] at h
    repeat' split at h
    all_goals
      cases h
      try
        change heldAfter (s.held t) _ = _
        first | rfl | (rw [hh]; rfl)

/-- An operation leaves the locks of the other threads alone. -/
theorem exec_held_other {s : State} {t t' : Tid} {env : Env} {op : Op} {o : Outcome} {held' : Held}
    (hop : op.after (s.held t) = some held') (h : s.exec t env op = some o) (ht : t' ≠ t) :
    o.state.held t' = s.held t' := by
  have ht' : t ≠ t' := ht.symm
  cases op
  case lockGate | lockQueue | awaken =>
    simp only [exec, Option.ite_none_right_eq_some] at h
    obtain ⟨hfree, h⟩ := h
    cases h
    simp [held, Outcome.state, hfree, ht']
    rfl
  case unlockGate | unlockQueue | park =>
    cases h
    simp_all [Op.after, held, Outcome.state]
    rfl
  all_goals
    simp only [exec, dispatch, senderLoop, ioSend, tryQueue] at h
    repeat' split at h
    all_goals cases h <;> rfl

theorem heldAfter_unwind (s : State) (t : Tid) :
    heldAfter (s.held t) (s.unwind t ++ afterPanic t) = some ⟨false, false⟩ := by
  unfold unwind held
  by_cases hq : s.queueLock = some t <;> by_cases hg : s.gate = some t <;>
    simp only [hq, hg, if_true, if_false, decide_true, decide_false] <;> cases t <;> rfl

theorem heldAfter_program (call : UiCall) :
    heldAfter ⟨false, false⟩ call.program = some ⟨false, false⟩ := by
  cases call <;> rfl

theorem Locked.idle {s : State} (h : s.Locked) {t : Tid} (ht : s.ops t = []) :
    s.held t = ⟨false, false⟩ := by
  have := h t
  rw [ht] at this
  exact Option.some_injective _ this

theorem Locked.after_head {s : State} (h : s.Locked) {t : Tid} {op : Op} {rest : List Op}
    (hops : s.ops t = op :: rest) :
    ∃ held', op.after (s.held t) = some held' ∧ heldAfter held' rest = some ⟨false, false⟩ := by
  have := h t
  rw [hops] at this
  exact Option.bind_eq_some_iff.mp this

/-- A thread at a spawn is the owner. -/
theorem ui_op {s : State} (hr : s.Reachable) {t : Tid} {op : Op} {rest : List Op}
    (hops : s.ops t = op :: rest) (hop : op.spawns) : op ∈ s.ops .ui := by
  have hall := hr.allowed hops
  have ht : t = .ui := by cases op <;> simp_all [Op.spawns, Op.allowed]
  rw [← ht, hops]
  exact List.mem_cons_self

/-- A thread that has operations left keeps them while another one takes its turn. -/
theorem exec_ops_of_ne {s : State} (hr : s.Reachable) {t t' : Tid} {env : Env} {op : Op}
    {rest : List Op} {o : Outcome} (hops : s.ops t = op :: rest) (hbusy : s.ops t' ≠ [])
    (h : s.exec t env op = some o) : o.state.ops t' = s.ops t' := by
  rcases exec_ops h t' with he | ⟨rfl, rfl, -⟩ | ⟨rfl, rfl, -⟩
  · exact he
  · exact absurd (hr.handles.sender (hr.handles.joined _ (ui_op hr hops rfl)).2.2) hbusy
  · exact absurd (hr.handles.worker (hr.handles.joined _ (ui_op hr hops rfl)).2) hbusy

theorem Reachable.locked {s : State} (h : s.Reachable) : s.Locked := by
  refine h.invariant (I := Locked) (fun t => rfl) ?_
  intro s label s' hr hs hstep t'
  have hstarted {t : Tid} {env : Env} {op : Op} {rest : List Op} {o : Outcome}
      (hops : s.ops t = op :: rest) (hexec : s.exec t env op = some o) (ht : t' ≠ t) :
      heldAfter (o.state.held t') (o.state.ops t') = some ⟨false, false⟩ := by
    obtain ⟨held', hafter, -⟩ := hs.after_head hops
    rw [exec_held_other hafter hexec ht]
    rcases exec_ops hexec t' with he | ⟨rfl, rfl, he⟩ | ⟨rfl, rfl, he⟩ <;> rw [he]
    · exact hs t'
    · have hidle := hr.handles.sender (hr.handles.joined _ (ui_op hr hops rfl)).2.2
      rw [hs.idle hidle]
      rfl
    · have hidle := hr.handles.worker (hr.handles.joined _ (ui_op hr hops rfl)).2
      rw [hs.idle hidle]
      rfl
  cases hstep with
  | tick elapsed => exact hs t'
  | @call call s' hops hbegin =>
    have hheld : s'.held t' = s.held t' := by
      rcases begin_eq_some hbegin with ⟨-, -, rfl⟩ | ⟨-, rfl⟩ <;> rfl
    rw [hheld, begin_ops hbegin]
    by_cases ht : t' = .ui
    · subst ht
      rw [Function.update_self, hs.idle hops]
      exact heldAfter_program call
    · rw [Function.update_of_ne ht]
      exact hs t'
  | @next t env op rest pushed s₁ hops hexec =>
    by_cases ht : t' = t
    · subst ht
      obtain ⟨held', hafter, hrest⟩ := hs.after_head hops
      change heldAfter (s₁.held t') _ = _
      rw [setOps_self, heldAfter_append, exec_heldAfter hafter hexec]
      exact hrest
    · change heldAfter (s₁.held t') _ = _
      rw [setOps_of_ne _ ht]
      exact hstarted hops hexec ht
  | @panic t env op rest s₁ hops hexec =>
    by_cases ht : t' = t
    · subst ht
      exact (panicked_self s₁ t').symm ▸ heldAfter_unwind s₁ t'
    · exact (panicked_of_ne s₁ ht).symm ▸ hstarted hops hexec ht

end State

end FlowBrake.Windows
