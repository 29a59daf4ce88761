import FlowBrake.Windows.Engine.State

/-! The text of the socket filter, and the processes that it blocks. -/
namespace FlowBrake.Windows
open FlowBrake.Core Text

/-- The PIDs with a blocking rule, in the order of the entries. -/
def blockedPids (entries : List (UInt32 × ProcessRule)) : List UInt32 :=
  entries.filterMap fun (pid, rule) => if rule.blockAll then some pid else none

def socketBlockEvents : Text := "!loopback and (event == CONNECT or event == ACCEPT)".toList

/-- The PIDs as the clauses of the filter. -/
def processClauses (pids : List UInt32) : Text :=
  List.intercalate " or ".toList
    (pids.map fun pid => "processId == ".toList ++ Nat.toDigits 10 pid.toNat)

/-- `socket_block_filter`, on the rules in the order in which the hash map lists them. -/
def socketBlockFilterOf (globalRule : GlobalRule) (entries : List (UInt32 × ProcessRule)) :
    Option Text :=
  if globalRule.blockAll then some socketBlockEvents
  else
    let pids := (blockedPids entries).insertionSort (· ≤ ·)
    if pids.isEmpty then none
    else some (socketBlockEvents ++ " and (".toList ++ processClauses pids ++ ")".toList)

/-- The rules block the same processes: all of them, or those of the same PIDs. -/
def SameBlocked (globalRule : GlobalRule) (rules : RuleMap) (globalRule' : GlobalRule)
    (rules' : RuleMap) : Prop :=
  globalRule.blockAll ∧ globalRule'.blockAll ∨
    ¬ globalRule.blockAll ∧ ¬ globalRule'.blockAll ∧
      ∀ pid : UInt32, rules[pid]?.any (·.blockAll) = rules'[pid]?.any (·.blockAll)

section Pids

theorem mem_blockedPids (rules : RuleMap) (pid : UInt32) :
    pid ∈ blockedPids rules.toList ↔ rules[pid]?.any (·.blockAll) := by
  simp only [blockedPids, List.mem_filterMap, Option.ite_none_right_eq_some, Option.some.injEq,
    Option.any_eq_true]
  constructor
  · rintro ⟨⟨_, rule⟩, hmem, hblock, rfl⟩
    exact ⟨rule, Std.ExtTreeMap.mem_toList_iff_getElem?_eq_some.mp hmem, hblock⟩
  · rintro ⟨rule, hrule, hblock⟩
    exact ⟨(pid, rule), Std.ExtTreeMap.mem_toList_iff_getElem?_eq_some.mpr hrule, hblock, rfl⟩

/-- The map lists its PIDs in ascending order. -/
theorem blockedPids_pairwise (rules : RuleMap) :
    (blockedPids rules.toList).Pairwise (fun a b => a < b) := by
  refine List.Pairwise.filterMap _ ?_ Std.ExtTreeMap.ordered_keys_toList
  rintro ⟨a, rule⟩ ⟨b, rule'⟩ hlt c hc d hd
  simp only [Option.ite_none_right_eq_some, Option.some.injEq] at hc hd
  obtain ⟨-, rfl⟩ := hc
  obtain ⟨-, rfl⟩ := hd
  exact compareOfLessAndEq_eq_lt.mp hlt

/-- Ascending lists of PIDs are told apart by their members. -/
theorem eq_of_ascending {pids pids' : List UInt32} (h : pids.Pairwise (fun a b => a < b))
    (h' : pids'.Pairwise (fun a b => a < b)) (hmem : ∀ pid, pid ∈ pids ↔ pid ∈ pids') :
    pids = pids' := by
  have hne : pids.Nodup := h.imp fun hlt => UInt32.ne_of_lt hlt
  have hne' : pids'.Nodup := h'.imp fun hlt => UInt32.ne_of_lt hlt
  have hperm : pids.Perm pids' := (List.perm_ext_iff_of_nodup hne hne').mpr hmem
  exact hperm.eq_of_pairwise (fun a b _ _ hab hba => absurd hba (UInt32.lt_asymm hab)) h h'

theorem insertionSort_blockedPids {entries : List (UInt32 × ProcessRule)} {rules : RuleMap}
    (h : entries.Perm rules.toList) :
    (blockedPids entries).insertionSort (· ≤ ·) = blockedPids rules.toList := by
  have htotal : Std.Total (fun a b : UInt32 => a ≤ b) := ⟨UInt32.le_total⟩
  have htrans : IsTrans UInt32 (fun a b : UInt32 => a ≤ b) := ⟨fun _ _ _ => UInt32.le_trans⟩
  have hperm : ((blockedPids entries).insertionSort (· ≤ ·)).Perm (blockedPids rules.toList) :=
    (List.perm_insertionSort _ _).trans (h.filterMap _)
  refine hperm.eq_of_pairwise (fun a b _ _ hab hba => ?_)
    (List.pairwise_insertionSort (fun a b : UInt32 => a ≤ b) _)
    ((blockedPids_pairwise rules).imp fun hlt => UInt32.le_of_lt hlt)
  exact UInt32.le_antisymm hab hba

/-- The order in which the hash map lists the rules does not show in the filter. -/
theorem socketBlockFilterOf_eq {entries : List (UInt32 × ProcessRule)} {rules : RuleMap}
    (globalRule : GlobalRule) (h : entries.Perm rules.toList) :
    socketBlockFilterOf globalRule entries = socketBlockFilter globalRule rules := by
  rw [socketBlockFilterOf, insertionSort_blockedPids h]
  rfl

end Pids

section Clauses

/-- Decimal numbers are read off a text without a separator behind them that is a digit. -/
theorem append_digits_inj {m n : ℕ} {x y : Text} (hx : ∀ c ∈ x.head?, c.isDigit = false)
    (hy : ∀ c ∈ y.head?, c.isDigit = false)
    (h : Nat.toDigits 10 m ++ x = Nat.toDigits 10 n ++ y) : m = n ∧ x = y := by
  have hread (k : ℕ) (z : Text) (hz : ∀ c ∈ z.head?, c.isDigit = false) :
      (Nat.toDigits 10 k ++ z).takeWhile Char.isDigit = Nat.toDigits 10 k := by
    rw [List.takeWhile_append_of_pos fun c hc => isDigit_of_mem_toDigits hc]
    cases z with
    | nil => simp
    | cons c z => simp [hz c rfl]
  have hdigits : Nat.toDigits 10 m = Nat.toDigits 10 n := by
    rw [← hread m x hx, h, hread n y hy]
  rw [hdigits] at h
  refine ⟨?_, List.append_cancel_left h⟩
  have hvalue := congrArg (Nat.ofDigitChars 10 · 0) hdigits
  simpa only [Nat.ofDigitChars_ten_toDigits] using hvalue

theorem processClauses_cons (pid : UInt32) (pids : List UInt32) :
    processClauses (pid :: pids) = "processId == ".toList ++ (Nat.toDigits 10 pid.toNat ++
      if pids.isEmpty then [] else " or ".toList ++ processClauses pids) := by
  cases pids with
  | nil => simp [processClauses]
  | cons next pids =>
    rw [processClauses, List.map_cons, List.map_cons, List.intercalate_cons_cons,
      List.append_assoc, List.append_assoc]
    rfl

/-- The clauses name their PIDs. -/
theorem processClauses_inj {pids pids' : List UInt32} (hne : pids ≠ []) (hne' : pids' ≠ [])
    (h : processClauses pids = processClauses pids') : pids = pids' := by
  induction pids generalizing pids' with
  | nil => exact absurd rfl hne
  | cons pid pids ih =>
    obtain ⟨pid', pids', rfl⟩ := List.exists_cons_of_ne_nil hne'
    rw [processClauses_cons, processClauses_cons, List.append_cancel_left_eq] at h
    have hhead (rest : List UInt32) : ∀ c ∈ (if rest.isEmpty then []
        else " or ".toList ++ processClauses rest).head?, c.isDigit = false := by
      intro c hc
      split at hc
      · cases hc
      · cases hc
        rfl
    obtain ⟨hpid, hrest⟩ := append_digits_inj (hhead pids) (hhead pids') h
    rw [UInt32.toNat_inj] at hpid
    subst hpid
    cases pids with
    | nil =>
      cases pids' with
      | nil => rfl
      | cons => simp at hrest
    | cons second pids =>
      cases pids' with
      | nil => simp at hrest
      | cons second' pids' =>
        simp only [List.isEmpty_cons, Bool.false_eq_true, if_false,
          List.append_cancel_left_eq] at hrest
        rw [ih (by simp) (by simp) hrest]

end Clauses

/-- The filter of the PIDs. -/
theorem socketBlockFilter_of_not_blockAll {globalRule : GlobalRule} (h : ¬ globalRule.blockAll)
    (rules : RuleMap) : socketBlockFilter globalRule rules =
      if blockedPids rules.toList = [] then none
      else some (socketBlockEvents ++ " and (".toList ++ processClauses (blockedPids rules.toList)
        ++ ")".toList) := by
  rw [socketBlockFilter, if_neg h]
  simp only [← List.isEmpty_iff]
  rfl

/-- Two filters are the same exactly if they block the same processes. -/
theorem socketBlockFilter_eq_iff (globalRule globalRule' : GlobalRule) (rules rules' : RuleMap) :
    socketBlockFilter globalRule rules = socketBlockFilter globalRule' rules' ↔
      SameBlocked globalRule rules globalRule' rules' := by
  have hall (globalRule : GlobalRule) (rules : RuleMap) (h : globalRule.blockAll) :
      socketBlockFilter globalRule rules = some socketBlockEvents := if_pos h
  have hother (globalRule : GlobalRule) (rules : RuleMap) (h : ¬ globalRule.blockAll) :
      socketBlockFilter globalRule rules ≠ some socketBlockEvents := by
    rw [socketBlockFilter_of_not_blockAll h]
    split
    · simp
    · intro heq
      have hlength := congrArg List.length (Option.some.inj heq)
      simp only [List.length_append, String.length_toList] at hlength
      have : " and (".length = 6 := rfl
      omega
  by_cases hglobal : globalRule.blockAll <;> by_cases hglobal' : globalRule'.blockAll
  · exact iff_of_true ((hall _ rules hglobal).trans (hall _ rules' hglobal').symm)
      (.inl ⟨hglobal, hglobal'⟩)
  · rw [hall _ _ hglobal]
    refine iff_of_false (hother _ rules' hglobal').symm ?_
    simp [SameBlocked, hglobal, hglobal']
  · rw [hall _ _ hglobal']
    refine iff_of_false (hother _ rules hglobal) ?_
    simp [SameBlocked, hglobal, hglobal']
  · have hpids : SameBlocked globalRule rules globalRule' rules' ↔
        blockedPids rules.toList = blockedPids rules'.toList := by
      have hmem : SameBlocked globalRule rules globalRule' rules' ↔
          ∀ pid, pid ∈ blockedPids rules.toList ↔ pid ∈ blockedPids rules'.toList := by
        simp [SameBlocked, hglobal, hglobal', mem_blockedPids]
      rw [hmem]
      constructor
      · exact eq_of_ascending (blockedPids_pairwise rules) (blockedPids_pairwise rules')
      · intro heq pid
        rw [heq]
    rw [hpids, socketBlockFilter_of_not_blockAll hglobal,
      socketBlockFilter_of_not_blockAll hglobal']
    constructor
    · intro h
      split at h <;> split at h
      · next hnil hnil' => rw [hnil, hnil']
      · cases h
      · cases h
      · next hne hne' =>
        rw [Option.some.injEq, List.append_cancel_right_eq, List.append_cancel_left_eq] at h
        exact processClauses_inj hne hne' h
    · intro h
      rw [h]

/-- The filter's text stands for the blocked processes, whatever the order of the hash map: an
installed filter is kept exactly for rules that block the processes that it was made for. -/
theorem filter_text_identifies_blocked :
    (∀ globalRule globalRule' rules rules',
      socketBlockFilter globalRule rules = socketBlockFilter globalRule' rules' ↔
        SameBlocked globalRule rules globalRule' rules') ∧
    (∀ globalRule (rules : RuleMap) entries, entries.Perm rules.toList →
      socketBlockFilterOf globalRule entries = socketBlockFilter globalRule rules) ∧
    ∀ (policy installed : Policy) block opened filter, block.active = some filter →
      socketBlockFilter installed.globalRule installed.rules = some filter →
      socketBlockFilter policy.globalRule policy.rules = some filter →
        syncSocketBlock policy block opened = block ∧
          SameBlocked policy.globalRule policy.rules installed.globalRule installed.rules := by
  refine ⟨socketBlockFilter_eq_iff, fun globalRule rules entries h =>
    socketBlockFilterOf_eq globalRule h, ?_⟩
  intro policy installed block opened filter hactive hinstalled hpolicy
  refine ⟨?_, (socketBlockFilter_eq_iff _ _ _ _).mp (hpolicy.trans hinstalled.symm)⟩
  rw [syncSocketBlock, hpolicy]
  exact if_pos hactive

end FlowBrake.Windows
