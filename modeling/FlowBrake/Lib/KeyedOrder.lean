import Mathlib.Data.List.Perm.Subperm
import Mathlib.Data.List.Nodup

/-! Lists whose elements have keys, up to the order of elements with different keys. -/
namespace KeyedOrder

variable {α κ : Type*} [DecidableEq κ] {key : α → Option κ} {a b c a' b' : List α} {x : α}

/-- The elements of `l` with key `k`. -/
def lane (key : α → Option κ) (k : κ) (l : List α) : List α := l.filter (key · = some k)

@[simp] theorem lane_append (k : κ) (a b : List α) :
    lane key k (a ++ b) = lane key k a ++ lane key k b :=
  List.filter_append ..

/-- `b` comes from `a` by leaving elements out and moving some past others of another key. -/
structure Thins (key : α → Option κ) (a b : List α) : Prop where
  subperm : b.Subperm a
  lanes : ∀ k, (lane key k b).Sublist (lane key k a)

namespace Thins

theorem of_sublist (h : b.Sublist a) : Thins key a b where
  subperm := h.subperm
  lanes _ := h.filter _

protected theorem refl (a : List α) : Thins key a a := .of_sublist (.refl a)

theorem of_eq (h : b = a) : Thins key a b := h ▸ .refl b

theorem trans (h : Thins key a b) (h' : Thins key b c) : Thins key a c where
  subperm := h'.subperm.trans h.subperm
  lanes k := (h'.lanes k).trans (h.lanes k)

theorem append (h : Thins key a a') (h' : Thins key b b') : Thins key (a ++ b) (a' ++ b') where
  subperm := h.subperm.append h'.subperm
  lanes k := by simpa only [lane_append] using (h.lanes k).append (h'.lanes k)

/-- An element may move to the front when none before it has its key. -/
theorem move (h : ∀ k, key x = some k → lane key k a = []) : Thins key (a ++ [x]) (x :: a) where
  subperm := (List.perm_append_singleton x a).symm.subperm
  lanes k := by
    by_cases hk : key x = some k
    · simp [lane, hk, show a.filter (key · = some k) = [] from h k hk]
    · simp [lane, hk]

/-- An element may be taken out to the front when it is the first of its key. -/
theorem pull (hp : a.Perm (x :: b))
    (h : ∀ k, lane key k a = lane key k (x :: b)) : Thins key a (x :: b) where
  subperm := hp.symm.subperm
  lanes k := h k ▸ .refl _

variable {β : Type*} {f : α → β} {R : β → β → Prop}

theorem pairwise (h : Thins key a b) {k : κ} (ha : ((lane key k a).map f).Pairwise R) :
    ((lane key k b).map f).Pairwise R :=
  ha.sublist ((h.lanes k).map f)

theorem nodup (h : Thins key a b) (ha : (a.map f).Nodup) : (b.map f).Nodup := by
  obtain ⟨l, hp, hl⟩ := h.subperm
  exact (hp.map f).nodup_iff.mp (ha.sublist (hl.map f))

end Thins

/-- Two lists with the same elements under each key are permutations of each other. -/
theorem perm_of_filter_eq [DecidableEq α] {key : α → κ}
    (h : ∀ k, a.filter (key · = k) = b.filter (key · = k)) : a.Perm b := by
  refine List.perm_iff_count.mpr fun x => ?_
  have hx := congrArg (List.count x) (h (key x))
  rwa [List.count_filter (by simp), List.count_filter (by simp)] at hx

end KeyedOrder
