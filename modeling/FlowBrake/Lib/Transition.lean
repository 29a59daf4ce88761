import Mathlib.Logic.Basic
import Mathlib.Data.List.Basic
import Mathlib.Data.List.Induction

/-! Runs of labelled transition systems and the induction rules for their invariants. -/
namespace Transition

variable {σ α : Type*} {step : σ → α → σ → Prop} {init : σ → Prop}

/-- `Run step s as t`: the labels `as`, in order, lead from `s` to `t`. -/
inductive Run (step : σ → α → σ → Prop) : σ → List α → σ → Prop
  | nil (s : σ) : Run step s [] s
  | cons {s t u : σ} {a : α} {as : List α} : step s a t → Run step t as u → Run step s (a :: as) u

theorem Run.append {s t u : σ} {as bs : List α} (h : Run step s as t) (h' : Run step t bs u) :
    Run step s (as ++ bs) u := by
  induction h with
  | nil => exact h'
  | cons hs _ ih => exact .cons hs (ih h')

theorem Run.single {s t : σ} {a : α} (h : step s a t) : Run step s [a] t := .cons h (.nil t)

/-- What every step with a label in `P` preserves, every run of such labels preserves. -/
theorem Run.preserves_of_labels {I : σ → Prop} {P : α → Prop}
    (hI : ∀ s a t, I s → P a → step s a t → I t) {s t : σ} {as : List α}
    (h : Run step s as t) (hP : ∀ a ∈ as, P a) (hs : I s) : I t := by
  induction h with
  | nil => exact hs
  | cons hst _ ih =>
    exact ih (fun a ha => hP a (List.mem_cons_of_mem _ ha))
      (hI _ _ _ hs (hP _ List.mem_cons_self) hst)

theorem Run.mono {step' : σ → α → σ → Prop} (hsub : ∀ s a t, step s a t → step' s a t) {s t : σ}
    {as : List α} (h : Run step s as t) : Run step' s as t := by
  induction h with
  | nil => exact .nil _
  | cons hst _ ih => exact .cons (hsub _ _ _ hst) ih

/-- The states that runs from an initial state reach. -/
def Reachable (step : σ → α → σ → Prop) (init : σ → Prop) (t : σ) : Prop :=
  ∃ s as, init s ∧ Run step s as t

theorem Reachable.of_init {s : σ} (h : init s) : Reachable step init s := ⟨s, [], h, .nil s⟩

theorem Reachable.run {s t : σ} {as : List α} (h : Reachable step init s) (hr : Run step s as t) :
    Reachable step init t := by
  obtain ⟨s₀, bs, hi, hb⟩ := h
  exact ⟨s₀, bs ++ as, hi, hb.append hr⟩

theorem Reachable.next {s t : σ} {a : α} (h : Reachable step init s) (hs : step s a t) :
    Reachable step init t :=
  h.run (.single hs)

theorem Reachable.mono {step' : σ → α → σ → Prop} (hsub : ∀ s a t, step s a t → step' s a t)
    {s : σ} (h : Reachable step init s) : Reachable step' init s := by
  obtain ⟨s₀, as, hi, hr⟩ := h
  exact ⟨s₀, as, hi, hr.mono hsub⟩

/-- An inductive invariant, whose step may use what is known of every reachable state. -/
theorem Reachable.invariant {I : σ → Prop} (h0 : ∀ s, init s → I s)
    (hI : ∀ s a t, Reachable step init s → I s → step s a t → I t) {s : σ}
    (h : Reachable step init s) : I s := by
  obtain ⟨s₀, as, hi, hr⟩ := h
  have hgen : ∀ s u bs, Reachable step init s → I s → Run step s bs u → I u := by
    intro s u bs hs hIs hru
    induction hru with
    | nil => exact hIs
    | cons hst _ ih => exact ih (hs.next hst) (hI _ _ _ hs hIs hst)
  exact hgen s₀ s as (.of_init hi) (h0 s₀ hi) hr

section Projection
variable {τ : Type*} {step' : τ → α → τ → Prop} {init' : τ → Prop} {g : σ → τ}

/-- What a projection forgets, its runs do not need. -/
theorem Reachable.map (hinit : ∀ s, init s → init' (g s))
    (hstep : ∀ s a t, step s a t → step' (g s) a (g t)) {s : σ} (h : Reachable step init s) :
    Reachable step' init' (g s) :=
  h.invariant (I := fun s => Reachable step' init' (g s)) (fun s hs => .of_init (hinit s hs))
    fun s a t _ hs hst => hs.next (hstep s a t hst)

/-- Where it follows every step, every reachable state is the projection of one. -/
theorem Reachable.exists_of_map (hinit : ∀ t, init' t → ∃ s, init s ∧ g s = t)
    (hstep : ∀ s a t, step' (g s) a t → ∃ s', step s a s' ∧ g s' = t) {t : τ}
    (h : Reachable step' init' t) : ∃ s, Reachable step init s ∧ g s = t := by
  refine h.invariant (I := fun t => ∃ s, Reachable step init s ∧ g s = t) ?_ ?_
  · intro t ht
    obtain ⟨s, hs, he⟩ := hinit t ht
    exact ⟨s, .of_init hs, he⟩
  · rintro _ a t - ⟨s, hs, rfl⟩ hst
    obtain ⟨s', hs', he⟩ := hstep s a t hst
    exact ⟨s', hs.next hs', he⟩

end Projection

theorem Run.of_foldlM {f : σ → α → Option σ} {s t : σ} {as : List α}
    (h : as.foldlM f s = some t) : Run (fun s a t => f s a = some t) s as t := by
  induction as generalizing s with
  | nil =>
    cases h
    exact .nil _
  | cons a as ih =>
    obtain ⟨u, hu, h⟩ := Option.bind_eq_some_iff.mp h
    exact .cons hu (ih h)

section Deterministic
variable {f : σ → α → σ} {I P : σ → Prop} {G : σ → α → Prop}

/-- Where steps that meet `G` keep an invariant with consequence `P`, and no other step gets to a
state with `P`, a run has `P` throughout exactly if each of its steps meets `G`. -/
theorem forall_prefix_iff_of_invariant (hP : ∀ s, I s → P s) (hG : ∀ s a, I s → P (f s a) → G s a)
    (hI : ∀ s a, I s → G s a → I (f s a)) {s : σ} (hs : I s) (as : List α) :
    (∀ bs, bs <+: as → P (bs.foldl f s)) ↔ ∀ bs a, bs ++ [a] <+: as → G (bs.foldl f s) a := by
  constructor
  · intro h bs a hbs
    have hinv : ∀ cs, cs <+: bs → I (cs.foldl f s) := by
      intro cs hcs
      induction cs using List.reverseRecOn with
      | nil => exact hs
      | append_singleton cs c ih =>
        have hle : cs ++ [c] <+: as := hcs.trans ((List.prefix_append bs [a]).trans hbs)
        have hlast := h _ hle
        have hI' := ih ((List.prefix_append cs [c]).trans hcs)
        rw [List.foldl_append] at hlast ⊢
        exact hI _ c hI' (hG _ c hI' hlast)
    have hlast := h _ hbs
    rw [List.foldl_append] at hlast
    exact hG _ a (hinv bs (List.prefix_refl bs)) hlast
  · intro h bs hbs
    apply hP
    induction bs using List.reverseRecOn with
    | nil => exact hs
    | append_singleton bs a ih =>
      rw [List.foldl_append]
      exact hI _ a (ih ((List.prefix_append bs [a]).trans hbs)) (h bs a hbs)

/-- Where a step keeps `I` exactly if it meets `G`, a run keeps `I` throughout exactly if each of
its steps meets `G`. -/
theorem forall_prefix_iff (hI : ∀ s a, I s → (I (f s a) ↔ G s a)) {s : σ} (hs : I s)
    (as : List α) :
    (∀ bs, bs <+: as → I (bs.foldl f s)) ↔ ∀ bs a, bs ++ [a] <+: as → G (bs.foldl f s) a :=
  forall_prefix_iff_of_invariant (fun _ h => h) (fun s a h => (hI s a h).mp)
    (fun s a h => (hI s a h).mpr) hs as

end Deterministic

end Transition
