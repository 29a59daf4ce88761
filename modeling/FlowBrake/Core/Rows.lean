import Mathlib.Data.List.Sort
import Mathlib.Algebra.BigOperators.Group.List.Basic
import Std.Data.ExtTreeSet
import FlowBrake.Core.Rule
import FlowBrake.Lib.Text

/-! The table of processes: the machine, then the processes grouped by name. -/
namespace FlowBrake.Core

structure ProcessInfo where
  pid : UInt32
  name : Text
  displayName : Text
  exePath : Text
  deriving DecidableEq

namespace ProcessInfo

def new (pid : UInt32) (name : Text) : ProcessInfo where
  pid := pid
  name := name
  displayName := name
  exePath := []

end ProcessInfo

inductive RowKind
  | global
  | group (processName displayName exePath : Text) (pids : List UInt32) (expanded : Bool)
  | child (processName displayName exePath : Text) (pid : UInt32)
  deriving DecidableEq

namespace RowKind

/-- `pids_for_row_kind` -/
def pids : RowKind → List UInt32
  | global => []
  | group _ _ _ pids _ => pids
  | child _ _ _ pid => [pid]

end RowKind

structure ProcessRow where
  kind : RowKind
  dlBps : ℚ
  ulBps : ℚ
  rule : ProcessRule
  deriving DecidableEq

def ProcessRow.global (rule : GlobalRule) : ProcessRow where
  kind := .global
  dlBps := 0
  ulBps := 0
  rule := rule

inductive SortColumn
  | process
  | pid
  | downloadSpeed
  | uploadSpeed

inductive SortDirection
  | ascending
  | descending

/-- The measured rates of processes, download first. -/
abbrev Speeds := Std.ExtTreeMap UInt32 (ℚ × ℚ)

section Groups

def speedOf (speeds : Speeds) (pid : UInt32) : ℚ × ℚ := speeds[pid]?.getD (0, 0)

def sumSpeed (pids : List UInt32) (speeds : Speeds) (direction : Direction) : ℚ :=
  (pids.map fun pid => match direction with
    | .download => (speedOf speeds pid).1
    | .upload => (speedOf speeds pid).2).sum

def firstExistingRule (pids : List UInt32) (rules : RuleMap) : ProcessRule :=
  (pids.findSome? fun pid => rules[pid]?).getD {}

/-- A group: the name of its first process, and its PIDs. -/
abbrev Group := Text × List UInt32

variable (lower : Text → Text)

def compareGroups (a b : Group) (speeds : Speeds) (sortColumn : SortColumn)
    (sortDirection : SortDirection) : Ordering :=
  let ordering := match sortColumn with
    | .process => compare (lower a.1) (lower b.1)
    | .pid => compare a.2.min? b.2.min?
    | .downloadSpeed => compare (sumSpeed a.2 speeds .download) (sumSpeed b.2 speeds .download)
    | .uploadSpeed => compare (sumSpeed a.2 speeds .upload) (sumSpeed b.2 speeds .upload)
  match sortDirection with
  | .ascending => ordering
  | .descending => ordering.swap

def processPresentation (processes : List ProcessInfo) (name : Text) : Text × Text :=
  match processes.find? fun process =>
      process.name.toAsciiLowercase = name.toAsciiLowercase with
  | some process => (process.displayName, process.exePath)
  | none => (name, [])

/-- The groups under their lower-cased names, with the PIDs in the order of the processes. -/
def groupProcesses (processes : List ProcessInfo) : Std.ExtTreeMap Text Group :=
  processes.foldl (fun groups process =>
    groups.alter (lower process.name) fun group =>
      let (name, pids) := group.getD (process.name, [])
      some (name, pids ++ [process.pid])) ∅

/-- The rows of one group: its own, and when it is expanded those of its processes. -/
def groupRows (processes : List ProcessInfo) (expandedNames : Std.ExtTreeSet Text)
    (rules : RuleMap) (speeds : Speeds) (group : Group) : List ProcessRow :=
  let (name, pids) := group
  let expanded := expandedNames.contains (lower name)
  let (displayName, exePath) := processPresentation processes name
  { kind := .group name displayName exePath pids expanded
    dlBps := sumSpeed pids speeds .download
    ulBps := sumSpeed pids speeds .upload
    rule := firstExistingRule pids rules }
  :: if pids.length > 1 && expanded then
      pids.map fun pid =>
        { kind := .child name displayName exePath pid
          dlBps := (speedOf speeds pid).1
          ulBps := (speedOf speeds pid).2
          rule := rules[pid]?.getD {} }
    else []

/-- The hash map's groups are taken in the order of their keys; the sort is stable. -/
def buildProcessRows (processes : List ProcessInfo) (expandedNames : Std.ExtTreeSet Text)
    (rules : RuleMap) (speeds : Speeds) (globalRule : GlobalRule) (sortColumn : SortColumn)
    (sortDirection : SortDirection) : List ProcessRow :=
  let groups := ((groupProcesses lower processes).toList.map Prod.snd).map fun (name, pids) =>
    (name, pids.insertionSort (· ≤ ·))
  let groups := groups.insertionSort fun a b =>
    compareGroups lower a b speeds sortColumn sortDirection ≠ .gt
  .global globalRule :: groups.flatMap (groupRows lower processes expandedNames rules speeds)

end Groups

section Rows
variable {lower : Text → Text} {rules : RuleMap} {P : ProcessRule → Prop}

/-- Every group has a process. -/
theorem pids_ne_nil_of_groupProcesses {processes : List ProcessInfo} {key : Text} {group : Group}
    (h : (groupProcesses lower processes)[key]? = some group) : group.2 ≠ [] := by
  have hgen : ∀ groups : Std.ExtTreeMap Text Group,
      (∀ (key : Text) (group : Group), groups[key]? = some group → group.2 ≠ []) →
        ∀ (key : Text) (group : Group), (processes.foldl (fun groups process =>
          groups.alter (lower process.name) fun group =>
            let (name, pids) := group.getD (process.name, [])
            some (name, pids ++ [process.pid])) groups)[key]? = some group → group.2 ≠ [] := by
    clear h
    induction processes with
    | nil => exact fun _ hgroups => hgroups
    | cons process processes ih =>
      intro groups hgroups
      refine ih _ fun key group hgroup => ?_
      rw [Std.ExtTreeMap.getElem?_alter] at hgroup
      split at hgroup
      · cases hgroup
        simp
      · exact hgroups key group hgroup
  exact hgen ∅ (by simp) key group h

/-- A row shows the global rule or a PID's; the row of a group has a PID. -/
theorem mem_buildProcessRows {processes : List ProcessInfo} {expandedNames : Std.ExtTreeSet Text}
    {speeds : Speeds} {globalRule : GlobalRule} {sortColumn : SortColumn}
    {sortDirection : SortDirection} (hglobal : P globalRule) (hdefault : P {})
    (hrules : ∀ (pid : UInt32) (rule : ProcessRule), rules[pid]? = some rule → P rule)
    {row : ProcessRow} (h : row ∈ buildProcessRows lower processes expandedNames rules speeds
      globalRule sortColumn sortDirection) :
    P row.rule ∧ (row.kind = .global ∨ row.kind.pids ≠ []) := by
  have hvalue : ∀ rule : Option ProcessRule, (∀ r ∈ rule, ∃ pid : UInt32, rules[pid]? = some r) →
      P (rule.getD {}) := by
    intro rule hrule
    cases rule with
    | none => exact hdefault
    | some r =>
      obtain ⟨pid, hpid⟩ := hrule r rfl
      exact hrules pid r hpid
  simp only [buildProcessRows, List.mem_cons, List.mem_flatMap] at h
  rcases h with rfl | ⟨group, hgroup, hrow⟩
  · exact ⟨hglobal, .inl rfl⟩
  · have hpids : group.2 ≠ [] := by
      have hsorted := (List.perm_insertionSort _ _).mem_iff.mp hgroup
      obtain ⟨listed, hlisted, rfl⟩ := List.mem_map.mp hsorted
      obtain ⟨⟨key, _⟩, hkey, rfl⟩ := List.mem_map.mp hlisted
      have hne := pids_ne_nil_of_groupProcesses
        (Std.ExtTreeMap.mem_toList_iff_getElem?_eq_some.mp hkey)
      intro hnil
      exact hne ((List.perm_insertionSort _ _).symm.trans (.of_eq hnil)).eq_nil
    obtain ⟨name, pids⟩ := group
    rw [groupRows, List.mem_cons] at hrow
    rcases hrow with rfl | hrow
    · refine ⟨hvalue _ fun rule hrule => ?_, .inr hpids⟩
      obtain ⟨pid, _, hpid⟩ := List.exists_of_findSome?_eq_some hrule
      exact ⟨pid, hpid⟩
    · split at hrow
      · obtain ⟨pid, _, rfl⟩ := List.mem_map.mp hrow
        exact ⟨hvalue _ fun rule hrule => ⟨pid, hrule⟩, .inr (by simp [RowKind.pids])⟩
      · cases hrow

end Rows

end FlowBrake.Core
