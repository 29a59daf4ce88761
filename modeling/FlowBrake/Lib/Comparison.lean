import Mathlib.Data.List.Sort

/-! Lists sorted by a key, where a comparison of keys decides. -/
namespace Comparison

variable {α κ : Type*} {cmp : κ → κ → Ordering} {key : α → κ}

section Sorting
variable [Std.TransCmp cmp]

local instance total_ne_gt : Std.Total fun a b : α => cmp (key a) (key b) ≠ .gt := by
  refine ⟨fun a b => ?_⟩
  rw [@Std.OrientedCmp.eq_swap _ cmp _ (key b) (key a)]
  cases cmp (key a) (key b) <;> simp

local instance trans_ne_gt : IsTrans α fun a b : α => cmp (key a) (key b) ≠ .gt := by
  refine ⟨fun a b c hab hbc => ?_⟩
  exact Ordering.isLE_iff_ne_gt.mp (Std.TransCmp.isLE_trans
    (Ordering.isLE_iff_ne_gt.mpr hab) (Ordering.isLE_iff_ne_gt.mpr hbc))

theorem pairwise_insertionSort (l : List α) :
    (l.insertionSort fun a b => cmp (key a) (key b) ≠ .gt).Pairwise
      fun a b => cmp (key a) (key b) ≠ .gt :=
  List.pairwise_insertionSort _ l

/-- A list with distinct keys, sorted by them, has increasing keys. -/
theorem increasing_insertionSort [Std.LawfulEqCmp cmp] {l : List α} (h : (l.map key).Nodup) :
    ((l.insertionSort fun a b => cmp (key a) (key b) ≠ .gt).map key).Pairwise
      (cmp · · = .lt) := by
  have hsorted : (l.insertionSort fun a b => cmp (key a) (key b) ≠ .gt).Pairwise
      fun a b => cmp (key a) (key b) ≠ .gt := pairwise_insertionSort l
  have hperm := List.perm_insertionSort (fun a b : α => cmp (key a) (key b) ≠ .gt) l
  have hdistinct : (l.insertionSort fun a b => cmp (key a) (key b) ≠ .gt).Pairwise
      fun a b => key a ≠ key b := List.pairwise_map.mp ((hperm.map key).nodup_iff.mpr h)
  refine List.pairwise_map.mpr ((hsorted.and hdistinct).imp fun {a b} ⟨hle, hne⟩ => ?_)
  cases hcmp : cmp (key a) (key b) with
  | lt => rfl
  | eq => exact absurd (Std.LawfulEqCmp.eq_of_compare hcmp) hne
  | gt => exact absurd hcmp hle

variable [DecidableEq κ]

end Sorting

/-- A list with increasing members is determined by its members. -/
theorem eq_of_increasing [Std.TransCmp cmp] {l m : List κ} (hl : l.Pairwise (cmp · · = .lt))
    (hm : m.Pairwise (cmp · · = .lt)) (h : ∀ a, a ∈ l ↔ a ∈ m) : l = m := by
  have : Std.Irrefl fun a b : κ => cmp a b = .lt := by
    refine ⟨fun a ha => ?_⟩
    rw [@Std.ReflCmp.compare_self _ cmp] at ha
    cases ha
  have : Std.Antisymm fun a b : κ => cmp a b = .lt := by
    refine ⟨fun a b hab hba => ?_⟩
    rw [@Std.OrientedCmp.eq_swap _ cmp, hba] at hab
    cases hab
  exact hl.eq_of_mem_iff hm h

/-- An increasing list has no member twice. -/
theorem nodup_of_increasing [Std.TransCmp cmp] {l : List κ} (h : l.Pairwise (cmp · · = .lt)) :
    l.Nodup := by
  refine h.imp fun {a b} hab heq => ?_
  rw [heq, @Std.ReflCmp.compare_self _ cmp] at hab
  cases hab

/-- Pairs are compared by their first parts, then by their second ones. -/
def lex {β : Type*} [Ord α] [Ord β] (a b : α × β) : Ordering :=
  (compare a.1 b.1).then (compare a.2 b.2)

section Lex
variable {β : Type*} [Ord α] [Ord β]

instance [Std.TransOrd α] [Std.TransOrd β] : Std.TransCmp (lex : α × β → α × β → Ordering) :=
  inferInstanceAs (Std.TransCmp (compareLex (compareOn Prod.fst) (compareOn Prod.snd)))

instance [Std.LawfulEqOrd α] [Std.LawfulEqOrd β] :
    Std.LawfulEqCmp (lex : α × β → α × β → Ordering) where
  compare_self := by simp [lex]
  eq_of_compare {a b} h := by
    rw [lex, Ordering.then_eq_eq] at h
    exact Prod.ext (Std.LawfulEqOrd.eq_of_compare h.1) (Std.LawfulEqOrd.eq_of_compare h.2)

end Lex

end Comparison
