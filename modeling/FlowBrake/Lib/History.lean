import FlowBrake.Lib.Transition

/-! Histories that are kept beside the states of a transition system and do not bear on them. -/
namespace Transition

/-- A state and what is remembered of how it was reached. -/
structure Traced (σ η : Type*) where
  state : σ
  history : η

variable {σ α η : Type*} (step : σ → α → Option σ) (record : σ → α → η → η)

def Traced.next (x : Traced σ η) (a : α) : Option (Traced σ η) :=
  (step x.state a).map fun state => ⟨state, record x.state a x.history⟩

/-- What the runs from a state with an empty history reach. -/
def TracedReachable (s₀ : σ) (h₀ : η) : Traced σ η → Prop :=
  Reachable (fun x a x' => x.next step record a = some x') (· = ⟨s₀, h₀⟩)

variable {step record} {s₀ : σ} {h₀ : η}

theorem Traced.next_eq_some {x x' : Traced σ η} {a : α} (h : x.next step record a = some x') :
    step x.state a = some x'.state ∧ x'.history = record x.state a x.history := by
  obtain ⟨state, hstate, rfl⟩ := Option.map_eq_some_iff.mp h
  exact ⟨hstate, rfl⟩

theorem TracedReachable.state {x : Traced σ η} (h : TracedReachable step record s₀ h₀ x) :
    Reachable (fun s a t => step s a = some t) (· = s₀) x.state :=
  Reachable.map (g := Traced.state) (by rintro _ rfl; rfl)
    (fun _ _ _ hnext => (Traced.next_eq_some hnext).1) h

theorem TracedReachable.of_foldlM {x : Traced σ η} {as : List α}
    (h : as.foldlM (Traced.next step record) ⟨s₀, h₀⟩ = some x) :
    TracedReachable step record s₀ h₀ x :=
  ⟨_, as, rfl, .of_foldlM h⟩

/-- An invariant of the states with their histories, whose step may use what is known of every
reachable state. -/
theorem TracedReachable.invariant {I : Traced σ η → Prop} (h0 : I ⟨s₀, h₀⟩)
    (hI : ∀ x a t, Reachable (fun s a t => step s a = some t) (· = s₀) x.state → I x →
      step x.state a = some t → I ⟨t, record x.state a x.history⟩) {x : Traced σ η}
    (h : TracedReachable step record s₀ h₀ x) : I x := by
  refine Reachable.invariant (fun _ hx => hx ▸ h0) (fun x a x' hx hIx hnext => ?_) h
  obtain ⟨hstep, hhistory⟩ := Traced.next_eq_some hnext
  have hnextI := hI x a x'.state (TracedReachable.state hx) hIx hstep
  rw [← hhistory] at hnextI
  exact hnextI

end Transition
