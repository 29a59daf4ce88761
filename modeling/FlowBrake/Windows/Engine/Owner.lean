import FlowBrake.Windows.Engine.Threads

/-! The owner's side of the engine: `start` as the calls that it is made of. -/
namespace FlowBrake.Windows
open FlowBrake.Core Transition

/-- Where the owner is in `start`. -/
inductive StartPhase
  | idle
  | stopping
  | syncing
  deriving DecidableEq

structure Owner where
  engine : State := {}
  phase : StartPhase := .idle

/-- The public methods other than `start`. -/
def UiCall.isPublic : UiCall → Bool
  | .startWithIo | .syncSocketBlock => false
  | _ => true

inductive OwnerLabel
  | run (t : Tid) (env : Env)
  | tick (elapsed : ℕ)
  | call (call : UiCall)
  | start
  /-- `WinDivert::open_from_dir` after the stop, and whether it returned a handle. -/
  | openDivert (opened : Bool)
  /-- The return of `sync_socket_block`. -/
  | synced

namespace Owner

/-- No method of the engine is running. -/
def Between (o : Owner) : Prop := o.phase = .idle ∧ o.engine.ops .ui = []

def step (o : Owner) : OwnerLabel → Option Owner
  | .run t env => (o.engine.step (.run t env)).map fun engine => { o with engine }
  | .tick elapsed => (o.engine.step (.tick elapsed)).map fun engine => { o with engine }
  | .call call =>
    if o.phase = .idle ∧ call.isPublic then
      (o.engine.step (.call call)).map fun engine => { o with engine }
    else none
  | .start =>
    if o.phase = .idle ∧ (o.engine.ops .ui).isEmpty then
      if o.engine.isRunning then some o
      else (o.engine.step (.call .stop)).map fun engine => { engine, phase := .stopping }
    else none
  | .openDivert opened =>
    if o.phase = .stopping ∧ (o.engine.ops .ui).isEmpty then
      if opened then
        (o.engine.step (.call .syncSocketBlock)).map fun engine => { engine, phase := .syncing }
      else some { o with phase := .idle }
    else none
  -- `sync_socket_block` fails exactly where it leaves an error in the block.
  | .synced =>
    if o.phase = .syncing ∧ (o.engine.ops .ui).isEmpty then
      if o.engine.status.socketBlock.error.isSome then some { o with phase := .idle }
      else (o.engine.step (.call .startWithIo)).map fun engine => { engine }
    else none

def follow (o : Owner) : List OwnerLabel → Option Owner
  | [] => some o
  | label :: labels => (o.step label).bind (·.follow labels)

abbrev Runs : Owner → List OwnerLabel → Owner → Prop := Run fun o label o' => o.step label = some o'

/-- The states that an owner with a new engine gets to. -/
def Reachable : Owner → Prop :=
  Transition.Reachable (fun o label o' => o.step label = some o') (· = {})

theorem Runs.of_follow {o o' : Owner} {labels : List OwnerLabel} (h : o.follow labels = some o') :
    Runs o labels o' := by
  induction labels generalizing o with
  | nil =>
    cases h
    exact .nil _
  | cons label labels ih =>
    obtain ⟨o₁, hstep, h⟩ := Option.bind_eq_some_iff.mp h
    exact .cons hstep (ih h)

/-- The steps of the owner. -/
inductive Step (o : Owner) : OwnerLabel → Owner → Prop
  | run {t : Tid} {env : Env} {s : State} : o.engine.step (.run t env) = some s →
      Step o (.run t env) { o with engine := s }
  | tick {elapsed : ℕ} {s : State} : o.engine.step (.tick elapsed) = some s →
      Step o (.tick elapsed) { o with engine := s }
  | call {call : UiCall} {s : State} : o.phase = .idle → call.isPublic →
      o.engine.step (.call call) = some s → Step o (.call call) { o with engine := s }
  | running : o.phase = .idle → o.engine.isRunning → Step o .start o
  | start {s : State} : o.phase = .idle → o.engine.isRunning = false →
      o.engine.step (.call .stop) = some s → Step o .start { engine := s, phase := .stopping }
  | unopened : o.phase = .stopping → o.engine.ops .ui = [] →
      Step o (.openDivert false) { o with phase := .idle }
  | opened {s : State} : o.phase = .stopping → o.engine.ops .ui = [] →
      o.engine.step (.call .syncSocketBlock) = some s →
      Step o (.openDivert true) { engine := s, phase := .syncing }
  | unsynced : o.phase = .syncing → o.engine.ops .ui = [] →
      o.engine.status.socketBlock.error.isSome → Step o .synced { o with phase := .idle }
  | synced {s : State} : o.phase = .syncing → o.engine.ops .ui = [] →
      o.engine.step (.call .startWithIo) = some s → Step o .synced { engine := s }

theorem Step.of_step {o o' : Owner} {label : OwnerLabel} (h : o.step label = some o') :
    Step o label o' := by
  cases label with
  | run t env =>
    obtain ⟨s, hs, rfl⟩ := Option.map_eq_some_iff.mp h
    exact .run hs
  | tick elapsed =>
    cases h
    exact .tick rfl
  | call call =>
    simp only [step, Option.ite_none_right_eq_some] at h
    obtain ⟨⟨hidle, hpublic⟩, h⟩ := h
    obtain ⟨s, hs, rfl⟩ := Option.map_eq_some_iff.mp h
    exact .call hidle hpublic hs
  | start =>
    simp only [step, Option.ite_none_right_eq_some] at h
    obtain ⟨⟨hidle, -⟩, h⟩ := h
    split at h
    · next hrun =>
      cases h
      exact .running hidle hrun
    · next hrun =>
      obtain ⟨s, hs, rfl⟩ := Option.map_eq_some_iff.mp h
      exact .start hidle (by simpa using hrun) hs
  | openDivert opened =>
    simp only [step, Option.ite_none_right_eq_some, List.isEmpty_iff] at h
    obtain ⟨⟨hphase, hops⟩, h⟩ := h
    cases opened with
    | false =>
      cases h
      exact .unopened hphase hops
    | true =>
      obtain ⟨s, hs, rfl⟩ := Option.map_eq_some_iff.mp h
      exact .opened hphase hops hs
  | synced =>
    simp only [step, Option.ite_none_right_eq_some, List.isEmpty_iff] at h
    obtain ⟨⟨hphase, hops⟩, h⟩ := h
    split at h
    · next herror =>
      cases h
      exact .unsynced hphase hops herror
    · obtain ⟨s, hs, rfl⟩ := Option.map_eq_some_iff.mp h
      exact .synced hphase hops hs

/-- The owner's engine is one of an engine's runs. -/
theorem Reachable.engine {o : Owner} (h : o.Reachable) : o.engine.Reachable := by
  refine Transition.Reachable.invariant (I := fun o => o.engine.Reachable) ?_ ?_ h
  · rintro o rfl
    exact .new
  · intro o label o' _ hs hstep
    cases Step.of_step hstep with
    | run h | tick h | call _ _ h | start _ _ h | opened _ _ h | synced _ _ h => exact hs.next h
    | running | unopened | unsynced => exact hs

theorem Reachable.invariant {I : Owner → Prop} (h0 : I {})
    (hI : ∀ o label o', o.Reachable → I o → o.Step label o' → I o') {o : Owner}
    (h : o.Reachable) : I o :=
  Transition.Reachable.invariant (fun _ he => he ▸ h0)
    (fun o label o' hr ho hstep => hI o label o' hr ho (.of_step hstep)) h

end Owner

end FlowBrake.Windows
