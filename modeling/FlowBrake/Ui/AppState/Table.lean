import FlowBrake.Core.Rows.Table
import FlowBrake.Ui.AppState

/-! The table of processes, and what its rows select. -/
namespace FlowBrake.Ui
open FlowBrake.Core Text

section
variable {lower : Text → Text} {processes : List ProcessInfo} {enumerated : List Group}
  {expandedNames : Std.ExtTreeSet Text} {rules : RuleMap} {speeds : Speeds}
  {globalRule : GlobalRule} {sortDirection : SortDirection} {keys : List Text} {key : Text}

/-- The rows of a name select its group or one of its processes. -/
theorem mem_selections {selection : RowSelection}
    (h : selection ∈ (kindsOf lower processes expandedNames key).map (RowSelection.ofKind lower)) :
    selection = .group key ∨
      ∃ process ∈ processes, lower process.name = key ∧ selection = .child process.pid := by
  obtain ⟨kind, hkind, rfl⟩ := List.mem_map.mp h
  obtain ⟨group, hgroup, hkind⟩ := List.mem_flatMap.mp hkind
  have hgroup := Option.mem_toList.mp hgroup
  rcases List.mem_cons.mp hkind with rfl | hkind
  · exact .inl (congrArg _ (lower_processName hgroup))
  · split at hkind
    · obtain ⟨pid, hpid, rfl⟩ := List.mem_map.mp hkind
      obtain ⟨process, hprocess, rfl, hkey⟩ := (mem_pids hgroup pid).mp hpid
      exact .inr ⟨process, hprocess, hkey, rfl⟩
    · cases hkind

theorem nodup_selections_kindsOf (hpids : (processes.map ProcessInfo.pid).Nodup) :
    ((kindsOf lower processes expandedNames key).map (RowSelection.ofKind lower)).Nodup := by
  rw [kindsOf]
  cases hgroup : tableGroup lower processes key with
  | none => exact .nil
  | some group =>
    have hnodup : group.pids.Nodup :=
      (pids_pairwise hgroup hpids).imp fun hlt => UInt32.ne_of_lt hlt
    have hchild : (group.pids.map RowSelection.child).Nodup :=
      hnodup.map fun _ _ heq => RowSelection.child.inj heq
    rw [Option.toList_some, List.flatMap_singleton, TableGroup.kinds, List.map_cons]
    refine List.nodup_cons.mpr ⟨?_, ?_⟩
    · split <;> simp [RowSelection.ofKind]
    · split
      · rw [List.map_map]
        exact hchild
      · exact .nil

/-- No two rows of the table select the same. -/
theorem nodup_selections (hkeys : Names lower processes sortDirection keys)
    (hpids : (processes.map ProcessInfo.pid).Nodup) :
    ((.global :: keys.flatMap (kindsOf lower processes expandedNames)).map
      (RowSelection.ofKind lower)).Nodup := by
  rw [List.map_cons, List.map_flatMap]
  refine List.nodup_cons.mpr ⟨fun hglobal => ?_, List.nodup_flatMap.mpr ⟨fun key _ => ?_, ?_⟩⟩
  · obtain ⟨key, -, hmem⟩ := List.mem_flatMap.mp hglobal
    rcases mem_selections hmem with heq | ⟨_, _, _, heq⟩ <;> cases heq
  · exact nodup_selections_kindsOf hpids
  · refine (Comparison.nodup_of_increasing hkeys.ordered).imp fun {key key'} hne => ?_
    refine List.disjoint_left.mpr fun selection hmem hmem' => ?_
    rcases mem_selections hmem with rfl | ⟨process, hprocess, hkey, rfl⟩
    · rcases mem_selections hmem' with heq | ⟨_, _, _, heq⟩
      · exact hne (RowSelection.group.inj heq)
      · cases heq
    · rcases mem_selections hmem' with heq | ⟨process', hprocess', hkey', heq⟩
      · cases heq
      · have hsame : process = process' :=
          List.inj_on_of_nodup_map hpids hprocess hprocess' (RowSelection.child.inj heq)
        rw [hsame, hkey'] at hkey
        exact hne hkey.symm

end

section
variable (lower : Text → Text) (processes : List ProcessInfo)

/-- The group of a name shows the first process of the name, and has its PIDs in order. -/
structure GroupOf (key : Text) (group : TableGroup) (first : ProcessInfo) : Prop where
  head : (named lower processes key).head? = some first
  processName : group.processName = first.name
  displayName : group.displayName = first.displayName
  exePath : group.exePath = first.exePath
  ascending : group.pids.Pairwise (· < ·)
  mem_pids : ∀ pid, pid ∈ group.pids ↔
    ∃ process ∈ processes, process.pid = pid ∧ lower process.name = key

/-- The rows partition the processes by the names `keys`: the machine's row, then for each name
its group's, and the rows of the group's processes where it shows them. -/
structure Partition (expandedNames : Std.ExtTreeSet Text) (rules : RuleMap) (speeds : Speeds)
    (globalRule : GlobalRule) (sortDirection : SortDirection) (keys : List Text)
    (rows : List ProcessRow) : Prop where
  names : Names lower processes sortDirection keys
  group : ∀ key ∈ keys, ∃ group first, tableGroup lower processes key = some group ∧
    GroupOf lower processes key group first ∧
    kindsOf lower processes expandedNames key = group.kinds (expandedNames.contains key)
  shown : rows = (.global :: keys.flatMap (kindsOf lower processes expandedNames)).map
    (RowKind.row rules speeds globalRule)
  selections : (rows.map fun row => RowSelection.ofKind lower row.kind).Nodup

end

/-- Whatever order the hash map enumerates the groups in, the rows sorted by name partition the
processes. -/
theorem rows_partition {lower : Text → Text} (hlower : IgnoresAsciiCase lower)
    {processes : List ProcessInfo} (hpids : (processes.map ProcessInfo.pid).Nodup)
    {enumerated : List Group} (h : Enumerates lower processes enumerated)
    (expandedNames : Std.ExtTreeSet Text) (rules : RuleMap) (speeds : Speeds)
    (globalRule : GlobalRule) (sortDirection : SortDirection) :
    let rows := rowsOf lower enumerated processes expandedNames rules speeds globalRule .process
      sortDirection
    (∃ keys, Partition lower processes expandedNames rules speeds globalRule sortDirection keys
      rows) ∧
    rows = buildProcessRows lower processes expandedNames rules speeds globalRule .process
      sortDirection := by
  obtain ⟨keys, hkeys, hrows⟩ := rowsOf_eq hlower h
  refine ⟨⟨keys, hkeys, fun key hkey => ?_, hrows, ?_⟩, rowsOf_eq_buildProcessRows hlower h⟩
  · cases hgroup : tableGroup lower processes key with
    | none =>
      obtain ⟨process, hprocess, hname⟩ := (hkeys.mem_iff key).mp hkey
      exact absurd hname (tableGroup_eq_none.mp hgroup process hprocess)
    | some group =>
      obtain ⟨first, hfirst, heq⟩ := Option.map_eq_some_iff.mp hgroup
      have hascending := pids_pairwise hgroup hpids
      have hmem := mem_pids hgroup
      rw [kindsOf, hgroup, Option.toList_some, List.flatMap_singleton]
      subst heq
      exact ⟨_, first, rfl, ⟨hfirst, rfl, rfl, rfl, hascending, hmem⟩, rfl⟩
  · rw [hrows, List.map_map]
    exact nodup_selections hkeys hpids

def mixedCase : List ProcessInfo :=
  [.new 7 "Code".toList, .new 3 "app".toList, .new 5 "CODE".toList]

/-- Two processes whose names differ in case make one group. -/
theorem rows_partition_mixedCase :
    let rows := rowsOf toAsciiLowercase
      ((groupProcesses toAsciiLowercase mixedCase).toList.map Prod.snd).reverse mixedCase
      {"code".toList} ∅ ∅ {} .process .ascending
    (∃ keys, Partition toAsciiLowercase mixedCase {"code".toList} ∅ ∅ {} .ascending keys rows) ∧
      rows = buildProcessRows toAsciiLowercase mixedCase {"code".toList} ∅ ∅ {} .process
        .ascending :=
  rows_partition ignoresAsciiCase_toAsciiLowercase (by decide) (List.reverse_perm _) _ ∅ ∅ {}
    .ascending

end FlowBrake.Ui
