import FlowBrake.Core.Rows
import FlowBrake.Lib.Comparison

/-! The table of processes as a partition of them: one group for each lower-cased name. -/
namespace FlowBrake.Core
open Text

/-- What `str::to_lowercase` makes of an ASCII letter does not depend on the letter's case. -/
def IgnoresAsciiCase (lower : Text → Text) : Prop := ∀ t, lower (toAsciiLowercase t) = lower t

theorem ignoresAsciiCase_toAsciiLowercase : IgnoresAsciiCase toAsciiLowercase :=
  fullyLowercases_toAsciiLowercase.idempotent

namespace RowKind

/-- The rule that a row shows, of the rules as they are. -/
def rule (rules : RuleMap) (globalRule : GlobalRule) : RowKind → ProcessRule
  | global => globalRule
  | group _ _ _ pids _ => firstExistingRule pids rules
  | child _ _ _ pid => rules[pid]?.getD {}

/-- The rates that a row of processes shows, download first. -/
def speeds (speeds : Speeds) : RowKind → ℚ × ℚ
  | global => (0, 0)
  | group _ _ _ pids _ => (sumSpeed pids speeds .download, sumSpeed pids speeds .upload)
  | child _ _ _ pid => speedOf speeds pid

def row (rules : RuleMap) (speeds : Speeds) (globalRule : GlobalRule) (kind : RowKind) :
    ProcessRow where
  kind := kind
  dlBps := (kind.speeds speeds).1
  ulBps := (kind.speeds speeds).2
  rule := kind.rule rules globalRule

end RowKind

/-- What the table shows of the processes of one name. -/
structure TableGroup where
  processName : Text
  displayName : Text
  exePath : Text
  pids : List UInt32
  deriving DecidableEq

/-- The rows of a group: its own, and those of its processes where there are several to show. -/
def TableGroup.kinds (group : TableGroup) (expanded : Bool) : List RowKind :=
  .group group.processName group.displayName group.exePath group.pids expanded ::
    if group.pids.length > 1 && expanded then
      group.pids.map fun pid =>
        .child group.processName group.displayName group.exePath pid
    else []

/-- How lower-cased names are compared. -/
def SortDirection.compareNames : SortDirection → Text → Text → Ordering
  | ascending, a, b => compare a b
  | descending, a, b => (compare a b).swap

section Spec
variable (lower : Text → Text)

/-- The processes of one lower-cased name, in their order. -/
def named (processes : List ProcessInfo) (key : Text) : List ProcessInfo :=
  processes.filter fun process => lower process.name = key

/-- The group of a name: the name, display name and path of its first process, and the PIDs of
all in ascending order. -/
def tableGroup (processes : List ProcessInfo) (key : Text) : Option TableGroup :=
  (named lower processes key).head?.map fun first =>
    { processName := first.name
      displayName := first.displayName
      exePath := first.exePath
      pids := ((named lower processes key).map ProcessInfo.pid).insertionSort (· ≤ ·) }

def kindsOf (processes : List ProcessInfo) (expandedNames : Std.ExtTreeSet Text) (key : Text) :
    List RowKind :=
  (tableGroup lower processes key).toList.flatMap (·.kinds (expandedNames.contains key))

/-- The lower-cased names, in strict order. -/
structure Names (processes : List ProcessInfo) (sortDirection : SortDirection)
    (keys : List Text) : Prop where
  ordered : keys.Pairwise (sortDirection.compareNames · · = .lt)
  mem_iff : ∀ key, key ∈ keys ↔ ∃ process ∈ processes, lower process.name = key

/-- The kinds of the rows are those of the machine and of the groups in the order of their
names. -/
def IsTable (processes : List ProcessInfo) (expandedNames : Std.ExtTreeSet Text)
    (sortDirection : SortDirection) (kinds : List RowKind) : Prop :=
  ∃ keys, Names lower processes sortDirection keys ∧
    kinds = .global :: keys.flatMap (kindsOf lower processes expandedNames)

/-- The rows of the hash map's groups, which it enumerates in some order. -/
def rowsOf (enumerated : List Group) (processes : List ProcessInfo)
    (expandedNames : Std.ExtTreeSet Text) (rules : RuleMap) (speeds : Speeds)
    (globalRule : GlobalRule) (sortColumn : SortColumn) (sortDirection : SortDirection) :
    List ProcessRow :=
  let groups := enumerated.map fun (name, pids) => (name, pids.insertionSort (· ≤ ·))
  let groups := groups.insertionSort fun a b =>
    compareGroups lower a b speeds sortColumn sortDirection ≠ .gt
  .global globalRule :: groups.flatMap (groupRows lower processes expandedNames rules speeds)

/-- The groups as the hash map enumerates them. -/
def Enumerates (processes : List ProcessInfo) (enumerated : List Group) : Prop :=
  enumerated.Perm ((groupProcesses lower processes).toList.map Prod.snd)

end Spec

section Names
variable {lower : Text → Text} {processes : List ProcessInfo} {key : Text}

instance (sortDirection : SortDirection) : Std.TransCmp sortDirection.compareNames := by
  cases sortDirection with
  | ascending => exact inferInstanceAs (Std.TransCmp (compare : Text → Text → Ordering))
  | descending =>
    have heq : SortDirection.descending.compareNames = fun a b : Text => compare b a := by
      funext a b
      exact (Std.OrientedOrd.eq_swap).symm
    rw [heq]
    exact Std.TransOrd.opposite

instance (sortDirection : SortDirection) : Std.LawfulEqCmp sortDirection.compareNames where
  compare_self {a} := by cases sortDirection <;> simp [SortDirection.compareNames]
  eq_of_compare {a b} h := by
    cases sortDirection with
    | ascending => exact Std.LawfulEqOrd.eq_of_compare h
    | descending =>
      rw [SortDirection.compareNames, Ordering.swap_eq_eq] at h
      exact Std.LawfulEqOrd.eq_of_compare h

theorem getElem?_groupProcesses (processes : List ProcessInfo) (key : Text) :
    (groupProcesses lower processes)[key]? = (named lower processes key).head?.map fun first =>
      (first.name, (named lower processes key).map ProcessInfo.pid) := by
  have hgen : ∀ groups : Std.ExtTreeMap Text Group, (processes.foldl (fun groups process =>
      groups.alter (lower process.name) fun group =>
        let (name, pids) := group.getD (process.name, [])
        some (name, pids ++ [process.pid])) groups)[key]? =
      match groups[key]? with
      | some (name, pids) => some (name, pids ++ (named lower processes key).map ProcessInfo.pid)
      | none => (named lower processes key).head?.map fun first =>
          (first.name, (named lower processes key).map ProcessInfo.pid) := by
    induction processes with
    | nil =>
      intro groups
      cases hgroup : groups[key]? with
      | none => simp [hgroup, named]
      | some group => simp [hgroup, named]
    | cons process processes ih =>
      intro groups
      rw [List.foldl_cons, ih, Std.ExtTreeMap.getElem?_alter]
      by_cases hkey : lower process.name = key
      · have hnamed : named lower (process :: processes) key =
            process :: named lower processes key := List.filter_cons_of_pos (by simpa using hkey)
        rw [hnamed, hkey]
        cases groups[key]? <;> simp
      · have hnamed : named lower (process :: processes) key = named lower processes key :=
          List.filter_cons_of_neg (by simpa using hkey)
        rw [hnamed, if_neg (by simpa using hkey)]
  rw [groupProcesses, hgen ∅]
  simp

theorem lower_of_mem_named {process : ProcessInfo} (h : process ∈ named lower processes key) :
    lower process.name = key := by
  simpa using (List.mem_filter.mp h).2

theorem tableGroup_eq_none : tableGroup lower processes key = none ↔
    ∀ process ∈ processes, lower process.name ≠ key := by
  rw [tableGroup, Option.map_eq_none_iff, List.head?_eq_none_iff, named, List.filter_eq_nil_iff]
  simp

/-- A group bears the name that it is listed under. -/
theorem lower_processName {group : TableGroup} (h : tableGroup lower processes key = some group) :
    lower group.processName = key := by
  obtain ⟨first, hfirst, rfl⟩ := Option.map_eq_some_iff.mp h
  exact lower_of_mem_named (List.mem_of_mem_head? hfirst)

/-- A group has exactly the PIDs of its name's processes. -/
theorem mem_pids {group : TableGroup} (h : tableGroup lower processes key = some group)
    (pid : UInt32) : pid ∈ group.pids ↔
      ∃ process ∈ processes, process.pid = pid ∧ lower process.name = key := by
  obtain ⟨first, -, rfl⟩ := Option.map_eq_some_iff.mp h
  rw [(List.perm_insertionSort _ _).mem_iff, List.mem_map]
  refine ⟨?_, ?_⟩
  · rintro ⟨process, hprocess, rfl⟩
    exact ⟨process, (List.mem_filter.mp hprocess).1, rfl, lower_of_mem_named hprocess⟩
  · rintro ⟨process, hprocess, rfl, hkey⟩
    exact ⟨process, List.mem_filter.mpr ⟨hprocess, by simpa using hkey⟩, rfl⟩

/-- Processes with distinct PIDs have them in strict order in their groups. -/
theorem pids_pairwise {group : TableGroup} (h : tableGroup lower processes key = some group)
    (hpids : (processes.map ProcessInfo.pid).Nodup) : group.pids.Pairwise (· < ·) := by
  obtain ⟨first, -, rfl⟩ := Option.map_eq_some_iff.mp h
  have : Std.Total fun a b : UInt32 => a ≤ b := ⟨UInt32.le_total⟩
  have : IsTrans UInt32 fun a b => a ≤ b := ⟨fun _ _ _ => UInt32.le_trans⟩
  have hnodup : ((named lower processes key).map ProcessInfo.pid).Nodup :=
    hpids.sublist (List.filter_sublist.map _)
  have hsorted := List.pairwise_insertionSort (fun a b : UInt32 => a ≤ b)
    ((named lower processes key).map ProcessInfo.pid)
  have hdistinct := (List.perm_insertionSort (fun a b : UInt32 => a ≤ b)
    ((named lower processes key).map ProcessInfo.pid)).nodup_iff.mpr hnodup
  exact (hsorted.and hdistinct).imp fun ⟨hle, hne⟩ => UInt32.lt_of_le_of_ne hle hne

/-- The first process whose name differs from a name of a process in ASCII case alone is the
first with the lower-cased name. -/
theorem processPresentation_eq (hlower : IgnoresAsciiCase lower) {first : ProcessInfo}
    (h : (named lower processes key).head? = some first) :
    processPresentation processes first.name = (first.displayName, first.exePath) := by
  have hkey := lower_of_mem_named (List.mem_of_mem_head? h)
  rw [named, List.head?_filter] at h
  obtain ⟨-, before, after, rfl, hbefore⟩ := List.find?_eq_some_iff_append.mp h
  have hnone : before.find? (fun process =>
      process.name.toAsciiLowercase = first.name.toAsciiLowercase) = none := by
    rw [List.find?_eq_none]
    intro process hprocess heq
    have hascii : process.name.toAsciiLowercase = first.name.toAsciiLowercase := by
      simpa using heq
    have hsame : lower process.name = key := by
      rw [← hlower, hascii, hlower, hkey]
    simpa [hsame] using hbefore process hprocess
  rw [processPresentation, List.find?_append, hnone]
  simp

end Names

section Rows
variable {lower : Text → Text} {processes : List ProcessInfo} {enumerated : List Group}
  {expandedNames : Std.ExtTreeSet Text} {rules : RuleMap} {speeds : Speeds}
  {globalRule : GlobalRule} {sortDirection : SortDirection}

theorem mem_enumerated (h : Enumerates lower processes enumerated) {group : Group}
    (hgroup : group ∈ enumerated) : ∃ first,
      (named lower processes (lower group.1)).head? = some first ∧ group.1 = first.name ∧
        group.2 = (named lower processes (lower group.1)).map ProcessInfo.pid := by
  obtain ⟨⟨key, _⟩, hkey, rfl⟩ := List.mem_map.mp (h.mem_iff.mp hgroup)
  have hget := Std.ExtTreeMap.mem_toList_iff_getElem?_eq_some.mp hkey
  rw [getElem?_groupProcesses, Option.map_eq_some_iff] at hget
  obtain ⟨first, hfirst, rfl⟩ := hget
  have hlower := lower_of_mem_named (List.mem_of_mem_head? hfirst)
  exact ⟨first, by rw [hlower, hfirst], rfl, by rw [hlower]⟩

/-- The names of the hash map's groups, in whatever order. -/
theorem keys_enumerated (h : Enumerates lower processes enumerated) :
    (enumerated.map fun group => lower group.1).Perm (groupProcesses lower processes).keys := by
  refine (h.map _).trans (.of_eq ?_)
  rw [← Std.ExtTreeMap.map_fst_toList_eq_keys, List.map_map]
  refine List.map_congr_left fun ⟨key, group⟩ hmem => ?_
  have hget := Std.ExtTreeMap.mem_toList_iff_getElem?_eq_some.mp hmem
  rw [getElem?_groupProcesses, Option.map_eq_some_iff] at hget
  obtain ⟨first, hfirst, rfl⟩ := hget
  exact lower_of_mem_named (List.mem_of_mem_head? hfirst)

theorem mem_keys (key : Text) : key ∈ (groupProcesses lower processes).keys ↔
    ∃ process ∈ processes, lower process.name = key := by
  rw [Std.ExtTreeMap.mem_keys, Std.ExtTreeMap.mem_iff_isSome_getElem?, getElem?_groupProcesses,
    Option.isSome_map, named, List.head?_filter, List.find?_isSome]
  simp

/-- A group's rows are those of its name. -/
theorem groupRows_eq (hlower : IgnoresAsciiCase lower) {group : Group} {first : ProcessInfo}
    (hfirst : (named lower processes (lower group.1)).head? = some first)
    (hname : group.1 = first.name)
    (hpids : group.2 = ((named lower processes (lower group.1)).map
      ProcessInfo.pid).insertionSort (· ≤ ·)) :
    groupRows lower processes expandedNames rules speeds group =
      (kindsOf lower processes expandedNames (lower group.1)).map
        (RowKind.row rules speeds globalRule) := by
  obtain ⟨name, pids⟩ := group
  have hpresentation := processPresentation_eq hlower hfirst
  simp only at hname hpids hfirst
  rw [← hname] at hpresentation
  rw [kindsOf, tableGroup, hfirst, groupRows, hpresentation]
  simp only [Option.map_some, Option.toList_some, List.flatMap_singleton, TableGroup.kinds,
    ← hpids, ← hname, List.map_cons]
  split
  · rw [List.map_map]
    rfl
  · rfl

/-- Sorted by name, the rows are those of the names in their order. -/
theorem rowsOf_eq (hlower : IgnoresAsciiCase lower) (h : Enumerates lower processes enumerated) :
    ∃ keys, Names lower processes sortDirection keys ∧
      rowsOf lower enumerated processes expandedNames rules speeds globalRule .process
        sortDirection = (.global :: keys.flatMap (kindsOf lower processes expandedNames)).map
          (RowKind.row rules speeds globalRule) := by
  have hcompare (a b : Group) : compareGroups lower a b speeds .process sortDirection =
      sortDirection.compareNames (lower a.1) (lower b.1) := by
    cases sortDirection <;> rfl
  have hkeys := keys_enumerated h
  set listed := enumerated.map fun (name, pids) => (name, pids.insertionSort (· ≤ ·))
    with hlisted
  have hnames : listed.map (fun group => lower group.1) =
      enumerated.map fun group => lower group.1 := by
    rw [hlisted, List.map_map]
    rfl
  set sorted := listed.insertionSort fun a b =>
    sortDirection.compareNames (lower a.1) (lower b.1) ≠ .gt with hsorted
  have hperm : sorted.Perm listed := List.perm_insertionSort _ _
  refine ⟨sorted.map fun group => lower group.1, ⟨?_, fun key => ?_⟩, ?_⟩
  · refine Comparison.increasing_insertionSort ?_
    rw [hnames]
    exact hkeys.nodup_iff.mpr Std.ExtTreeMap.nodup_keys
  · rw [(hperm.map _).mem_iff, hnames, hkeys.mem_iff, mem_keys]
  · rw [rowsOf, List.map_cons, List.map_flatMap, List.flatMap_map]
    simp only [hcompare]
    refine congrArg₂ _ rfl (List.flatMap_congr fun group hgroup => ?_)
    obtain ⟨⟨name, pids⟩, hmem, rfl⟩ := List.mem_map.mp (hperm.mem_iff.mp hgroup)
    obtain ⟨first, hfirst, hname, hpids⟩ := mem_enumerated h hmem
    exact groupRows_eq hlower hfirst hname (congrArg _ hpids)

theorem Names.unique {keys keys' : List Text} (h : Names lower processes sortDirection keys)
    (h' : Names lower processes sortDirection keys') : keys = keys' :=
  Comparison.eq_of_increasing h.ordered h'.ordered fun key =>
    (h.mem_iff key).trans (h'.mem_iff key).symm

/-- The rows do not depend on the order in which the hash map enumerates its groups. -/
theorem rowsOf_eq_buildProcessRows (hlower : IgnoresAsciiCase lower)
    (h : Enumerates lower processes enumerated) :
    rowsOf lower enumerated processes expandedNames rules speeds globalRule .process
      sortDirection = buildProcessRows lower processes expandedNames rules speeds globalRule
        .process sortDirection := by
  obtain ⟨keys, hkeys, hrows⟩ := rowsOf_eq hlower h
  obtain ⟨keys', hkeys', hrows'⟩ := rowsOf_eq hlower (List.Perm.refl _)
  rw [hrows, hkeys.unique hkeys']
  exact hrows'.symm

/-- The table built from the processes is the one they make, and each row shows its own rule
and rates. -/
theorem isTable_buildProcessRows (hlower : IgnoresAsciiCase lower) (processes : List ProcessInfo)
    (expandedNames : Std.ExtTreeSet Text) (rules : RuleMap) (speeds : Speeds)
    (globalRule : GlobalRule) (sortDirection : SortDirection) : ∃ kinds,
      IsTable lower processes expandedNames sortDirection kinds ∧
      buildProcessRows lower processes expandedNames rules speeds globalRule .process
        sortDirection = kinds.map (RowKind.row rules speeds globalRule) := by
  obtain ⟨keys, hkeys, hrows⟩ := rowsOf_eq hlower (List.Perm.refl _)
  exact ⟨_, ⟨keys, hkeys, rfl⟩, hrows⟩

theorem IsTable.unique {kinds kinds' : List RowKind}
    (h : IsTable lower processes expandedNames sortDirection kinds)
    (h' : IsTable lower processes expandedNames sortDirection kinds') : kinds = kinds' := by
  obtain ⟨keys, hkeys, rfl⟩ := h
  obtain ⟨keys', hkeys', rfl⟩ := h'
  rw [hkeys.unique hkeys']

/-- Every row that is built shows its rule as it is. -/
theorem rule_of_mem_buildProcessRows {sortColumn : SortColumn} {row : ProcessRow}
    (h : row ∈ buildProcessRows lower processes expandedNames rules speeds globalRule sortColumn
      sortDirection) : row.rule = row.kind.rule rules globalRule := by
  simp only [buildProcessRows, List.mem_cons, List.mem_flatMap] at h
  rcases h with rfl | ⟨⟨name, pids⟩, -, hrow⟩
  · rfl
  · rw [groupRows, List.mem_cons] at hrow
    rcases hrow with rfl | hrow
    · rfl
    · split at hrow
      · obtain ⟨pid, -, rfl⟩ := List.mem_map.mp hrow
        rfl
      · cases hrow

theorem tableGroup_isSome_iff {key : Text} : (tableGroup lower processes key).isSome ↔
    ∃ process ∈ processes, lower process.name = key := by
  rw [Option.isSome_iff_ne_none, ne_eq, tableGroup_eq_none]
  push Not
  rfl

/-- The rows of groups in a table are those of the names' groups. -/
theorem IsTable.mem_iff {kinds : List RowKind}
    (h : IsTable lower processes expandedNames sortDirection kinds) (group : TableGroup)
    (expanded : Bool) :
    .group group.processName group.displayName group.exePath group.pids expanded ∈ kinds ↔
      tableGroup lower processes (lower group.processName) = some group ∧
        expanded = expandedNames.contains (lower group.processName) := by
  obtain ⟨keys, hkeys, rfl⟩ := h
  constructor
  · intro hmem
    rcases List.mem_cons.mp hmem with heq | hmem
    · cases heq
    · obtain ⟨key, -, hmem⟩ := List.mem_flatMap.mp hmem
      obtain ⟨listed, hlisted, hmem⟩ := List.mem_flatMap.mp hmem
      have hlisted := Option.mem_toList.mp hlisted
      rcases List.mem_cons.mp hmem with heq | hmem
      · injection heq with hname hdisplay hpath hpids hexpanded
        obtain rfl : group = listed := by
          cases group
          cases listed
          simp_all
        rw [lower_processName hlisted]
        exact ⟨hlisted, hexpanded⟩
      · split at hmem
        · obtain ⟨_, -, heq⟩ := List.mem_map.mp hmem
          cases heq
        · cases hmem
  · rintro ⟨hgroup, rfl⟩
    refine List.mem_cons_of_mem _ (List.mem_flatMap.mpr ⟨lower group.processName, ?_, ?_⟩)
    · exact (hkeys.mem_iff _).mpr (tableGroup_isSome_iff.mp (hgroup ▸ rfl))
    · exact List.mem_flatMap.mpr ⟨group, Option.mem_toList.mpr hgroup, List.mem_cons_self⟩

/-- The table of some processes is that of others exactly if the names have the same groups. -/
theorem IsTable.iff_tableGroup_eq {kinds : List RowKind}
    (h : IsTable lower processes expandedNames sortDirection kinds)
    (processes' : List ProcessInfo) :
    IsTable lower processes' expandedNames sortDirection kinds ↔
      tableGroup lower processes = tableGroup lower processes' := by
  constructor
  · intro h'
    have hsame (group : TableGroup) (key : Text) (hkey : lower group.processName = key) :
        tableGroup lower processes key = some group ↔
          tableGroup lower processes' key = some group := by
      subst hkey
      have hmem := h.mem_iff group (expandedNames.contains (lower group.processName))
      have hmem' := h'.mem_iff group (expandedNames.contains (lower group.processName))
      rw [eq_self, and_true] at hmem hmem'
      exact hmem.symm.trans hmem'
    refine funext fun key => Option.ext fun group => ⟨fun hgroup => ?_, fun hgroup => ?_⟩
    · exact (hsame group key (lower_processName hgroup)).mp hgroup
    · exact (hsame group key (lower_processName hgroup)).mpr hgroup
  · intro heq
    obtain ⟨keys, hkeys, rfl⟩ := h
    refine ⟨keys, ⟨hkeys.ordered, fun key => ?_⟩, ?_⟩
    · rw [hkeys.mem_iff, ← tableGroup_isSome_iff, heq, tableGroup_isSome_iff]
    · have hkinds : kindsOf lower processes expandedNames =
          kindsOf lower processes' expandedNames := by
        funext key
        rw [kindsOf, kindsOf, heq]
      rw [hkinds]

end Rows

end FlowBrake.Core
