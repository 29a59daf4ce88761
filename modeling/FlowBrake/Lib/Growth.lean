import Mathlib.Algebra.Order.Field.Basic
import Mathlib.Tactic.Ring
import Mathlib.Tactic.Linarith

/-! Values that every step multiplies by a factor, within bounds. -/
namespace Growth

variable {K α : Type*} [Field K] [LinearOrder K] [IsStrictOrderedRing K]
variable {f : K → α → K} {factor bottom top x : K} {as : List α}

/-- From `x` on, the steps stay at the top or below, and those below it grow by the factor. -/
theorem le_foldl_of_grows (hfactor : 1 ≤ factor) (hbottom : 0 < bottom)
    (hgrows : ∀ x, bottom ≤ x → x ≤ top → ∀ a ∈ as,
      (bottom ≤ f x a ∧ f x a ≤ top) ∧ min (factor * x) top ≤ f x a)
    (hx : bottom ≤ x) (hxt : x ≤ top) :
    min (factor ^ as.length * x) top ≤ as.foldl f x ∧ as.foldl f x ≤ top := by
  induction as generalizing x with
  | nil => simp [hxt]
  | cons a as ih =>
    obtain ⟨⟨hlow, hhigh⟩, hstep⟩ := hgrows x hx hxt a List.mem_cons_self
    have hrest := ih (fun x hx hxt b hb => hgrows x hx hxt b (List.mem_cons_of_mem _ hb)) hlow hhigh
    refine ⟨le_trans ?_ hrest.1, hrest.2⟩
    have hpow : 1 ≤ factor ^ as.length := one_le_pow₀ hfactor
    have htop : 0 < top := hbottom.trans_le (hx.trans hxt)
    rw [List.length_cons, pow_succ]
    refine le_min ?_ (min_le_right _ _)
    calc min (factor ^ as.length * factor * x) top
        ≤ factor ^ as.length * min (factor * x) top := by
          rw [mul_min_of_nonneg _ _ (zero_le_one.trans hpow), mul_assoc]
          exact min_le_min_left _ (le_mul_of_one_le_left htop.le hpow)
      _ ≤ factor ^ as.length * f x a :=
          mul_le_mul_of_nonneg_left hstep (zero_le_one.trans hpow)

/-- From `x` on, the steps stay at the bottom or above, and those above it shrink by the factor. -/
theorem foldl_le_of_shrinks (hfactor : 0 ≤ factor) (hfactor' : factor ≤ 1) (hbottom : 0 ≤ bottom)
    (hshrinks : ∀ x, bottom ≤ x → x ≤ top → ∀ a ∈ as,
      (bottom ≤ f x a ∧ f x a ≤ top) ∧ f x a ≤ max (factor * x) bottom)
    (hx : bottom ≤ x) (hxt : x ≤ top) :
    bottom ≤ as.foldl f x ∧ as.foldl f x ≤ max (factor ^ as.length * x) bottom := by
  induction as generalizing x with
  | nil => simp [hx]
  | cons a as ih =>
    obtain ⟨⟨hlow, hhigh⟩, hstep⟩ := hshrinks x hx hxt a List.mem_cons_self
    have hrest := ih (fun x hx hxt b hb => hshrinks x hx hxt b (List.mem_cons_of_mem _ hb)) hlow
      hhigh
    refine ⟨hrest.1, hrest.2.trans ?_⟩
    have hpow : 0 ≤ factor ^ as.length := pow_nonneg hfactor _
    have hpow' : factor ^ as.length ≤ 1 := pow_le_one₀ hfactor hfactor'
    rw [List.length_cons, pow_succ]
    refine max_le ?_ (le_max_right _ _)
    calc factor ^ as.length * f x a
        ≤ factor ^ as.length * max (factor * x) bottom := mul_le_mul_of_nonneg_left hstep hpow
      _ ≤ max (factor ^ as.length * factor * x) bottom := by
          rw [mul_max_of_nonneg _ _ hpow, mul_assoc]
          exact max_le_max_left _ (mul_le_of_le_one_left hbottom hpow')

end Growth
