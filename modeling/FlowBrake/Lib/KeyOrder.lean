import Mathlib.Data.List.Sort

/-! Lists and priority queues ordered by a key into a linear order. -/
namespace KeyOrder

variable {α β κ : Type*} [LinearOrder κ]

/-- The list in nondecreasing order of its keys. -/
def sortBy (key : α → κ) (l : List α) : List α :=
  l.insertionSort (fun a b => key a ≤ key b)

theorem sortBy_perm (key : α → κ) (l : List α) : (sortBy key l).Perm l :=
  List.perm_insertionSort _ l

@[simp] theorem mem_sortBy (key : α → κ) (l : List α) (a : α) : a ∈ sortBy key l ↔ a ∈ l :=
  (sortBy_perm key l).mem_iff

theorem sortBy_pairwise_le (key : α → κ) (l : List α) :
    (sortBy key l).Pairwise (fun a b => key a ≤ key b) := by
  have : Std.Total (fun a b : α => key a ≤ key b) := ⟨fun a b => le_total (key a) (key b)⟩
  have : IsTrans α (fun a b : α => key a ≤ key b) := ⟨fun _ _ _ => le_trans⟩
  exact List.pairwise_insertionSort _ l

/-- Lists with increasing keys are determined by their elements. -/
theorem eq_of_perm_of_increasing (key : α → κ) {l m : List α} (hp : l.Perm m)
    (hl : l.Pairwise (fun a b => key a < key b)) (hm : m.Pairwise (fun a b => key a < key b)) :
    l = m :=
  hp.eq_of_pairwise (fun _ _ _ _ hab hba => absurd hab hba.asymm) hl hm

theorem sortBy_increasing {key : α → κ} {l : List α} (h : (l.map key).Nodup) :
    (sortBy key l).Pairwise (fun a b => key a < key b) := by
  have hn : ((sortBy key l).map key).Nodup := ((sortBy_perm key l).map key).nodup_iff.mpr h
  have hne : (sortBy key l).Pairwise (fun a b => key a ≠ key b) := List.pairwise_map.mp hn
  exact ((sortBy_pairwise_le key l).and hne).imp fun h => lt_of_le_of_ne h.1 h.2

/-- In a list with increasing keys, what holds between earlier and later elements holds between
those with smaller and larger keys. -/
theorem of_increasing {key : α → κ} {R : α → α → Prop} {l : List α} (hR : l.Pairwise R)
    (hl : l.Pairwise (fun a b => key a < key b)) {a b : α} (ha : a ∈ l) (hb : b ∈ l)
    (h : key a < key b) : R a b := by
  induction l with
  | nil => cases ha
  | cons c rest ih =>
    obtain ⟨hRc, hR⟩ := List.pairwise_cons.mp hR
    obtain ⟨hlc, hl⟩ := List.pairwise_cons.mp hl
    rcases List.mem_cons.mp ha with rfl | har <;> rcases List.mem_cons.mp hb with rfl | hbr
    · exact absurd h (lt_irrefl _)
    · exact hRc b hbr
    · exact absurd h (hlc a har).asymm
    · exact ih hR hl har hbr

/-- With distinct keys, sorting is the only increasing arrangement. -/
theorem sortBy_eq {key : α → κ} {l m : List α} (hp : m.Perm l)
    (hm : m.Pairwise (fun a b => key a < key b)) : sortBy key l = m := by
  have hn : (l.map key).Nodup := by
    rw [← (hp.map key).nodup_iff]
    exact List.pairwise_map.mpr (hm.imp fun h => h.ne)
  exact eq_of_perm_of_increasing key ((sortBy_perm key l).trans hp.symm) (sortBy_increasing hn) hm

/-- A new largest element goes last. -/
theorem sortBy_append_max {key : α → κ} {l m : List α} {a : α} (hp : m.Perm (a :: l))
    (hn : (l.map key).Nodup) (ha : ∀ b ∈ l, key b < key a) :
    sortBy key m = sortBy key l ++ [a] := by
  refine sortBy_eq ?_ ?_
  · exact (List.perm_append_comm.trans ((sortBy_perm key l).cons a)).trans hp.symm
  · refine List.pairwise_append.mpr ⟨sortBy_increasing hn, List.pairwise_singleton _ _, ?_⟩
    intro b hb c hc
    rw [List.mem_singleton.mp hc]
    exact ha b ((mem_sortBy key l b).mp hb)

/-- The smallest of the elements with property `p` heads their sorted list. -/
theorem filter_sortBy_min {key : α → κ} {l m : List α} {a : α} {p : α → Bool}
    (hp : l.Perm (a :: m)) (hn : (l.map key).Nodup) (hpa : p a)
    (ha : ∀ b ∈ m, p b → key a < key b) :
    (sortBy key l).filter p = a :: (sortBy key m).filter p := by
  have hnm : ((a :: m).map key).Nodup := (hp.map key).nodup_iff.mp hn
  refine eq_of_perm_of_increasing key ?_ ?_ ?_
  · have h := ((sortBy_perm key l).trans hp).filter p
    rw [List.filter_cons_of_pos hpa] at h
    exact h.trans (((sortBy_perm key m).filter p).symm.cons a)
  · exact (sortBy_increasing hn).filter p
  · refine List.pairwise_cons.mpr ⟨?_, (sortBy_increasing (List.nodup_cons.mp hnm).2).filter p⟩
    intro b hb
    obtain ⟨hb, hpb⟩ := List.mem_filter.mp hb
    exact ha b ((mem_sortBy key m b).mp hb) hpb

/-- Removing an element without property `p` does not show in the list of those with it. -/
theorem filter_sortBy_of_not {key : α → κ} {l m : List α} {a : α} {p : α → Bool}
    (hp : l.Perm (a :: m)) (hn : (l.map key).Nodup) (hpa : ¬ p a) :
    (sortBy key l).filter p = (sortBy key m).filter p := by
  have hnm : ((a :: m).map key).Nodup := (hp.map key).nodup_iff.mp hn
  refine eq_of_perm_of_increasing key ?_ ?_ ?_
  · have h := ((sortBy_perm key l).trans hp).filter p
    rw [List.filter_cons_of_neg hpa] at h
    exact h.trans ((sortBy_perm key m).filter p).symm
  · exact (sortBy_increasing hn).filter p
  · exact (sortBy_increasing (List.nodup_cons.mp hnm).2).filter p

/-- A priority queue: its entries, least key first. -/
structure MinHeap (key : α → κ) where
  entries : List α
  sorted : entries.Pairwise (fun a b => key a ≤ key b)

namespace MinHeap

variable {key : α → κ}

def empty : MinHeap key := ⟨[], .nil⟩

def ofList (l : List α) : MinHeap key := ⟨sortBy key l, sortBy_pairwise_le key l⟩

def push (h : MinHeap key) (a : α) : MinHeap key := ofList (a :: h.entries)

def peek? (h : MinHeap key) : Option α := h.entries.head?

def pop? (h : MinHeap key) : Option (α × MinHeap key) :=
  match h with
  | ⟨[], _⟩ => none
  | ⟨a :: rest, hs⟩ => some (a, ⟨rest, (List.pairwise_cons.mp hs).2⟩)

instance : Inhabited (MinHeap key) := ⟨empty⟩

@[simp] theorem entries_empty : (empty : MinHeap key).entries = [] := rfl

theorem ofList_perm (l : List α) : (ofList l : MinHeap key).entries.Perm l := sortBy_perm key l

theorem push_perm (h : MinHeap key) (a : α) : (h.push a).entries.Perm (a :: h.entries) :=
  ofList_perm _

@[simp] theorem mem_push (h : MinHeap key) (a b : α) :
    b ∈ (h.push a).entries ↔ b = a ∨ b ∈ h.entries :=
  (h.push_perm a).mem_iff.trans List.mem_cons

theorem pop?_eq_some {h h' : MinHeap key} {a : α} (hp : h.pop? = some (a, h')) :
    h.entries = a :: h'.entries ∧ ∀ b ∈ h'.entries, key a ≤ key b := by
  obtain ⟨_ | ⟨b, rest⟩, hs⟩ := h
  · cases hp
  · cases hp
    exact ⟨rfl, (List.pairwise_cons.mp hs).1⟩

theorem pop?_isSome_of_peek? {h : MinHeap key} {a : α} (hp : h.peek? = some a) :
    ∃ h', h.pop? = some (a, h') := by
  obtain ⟨_ | ⟨b, rest⟩, hs⟩ := h
  · cases hp
  · cases hp
    exact ⟨_, rfl⟩

theorem peek?_eq_none {h : MinHeap key} : h.peek? = none ↔ h.entries = [] := List.head?_eq_none_iff

end MinHeap

end KeyOrder
