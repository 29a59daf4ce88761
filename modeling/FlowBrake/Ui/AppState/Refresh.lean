import FlowBrake.Ui.AppState.Frame
import FlowBrake.Ui.AppState.Table

/-! The table's refresh between rebuilds, against a rebuild. -/
namespace FlowBrake.Ui
open FlowBrake.Core FlowBrake.Windows Text

namespace AppState

/-- The rates that a row shows, download first; the machine's are measured on their own. -/
def shownSpeeds (st : AppState) : RowKind → ℚ × ℚ
  | .global => (st.globalDlBps, st.globalUlBps)
  | kind => kind.speeds st.speeds

/-- The row of a kind, with its rule and rates as they are. -/
def shownRow (st : AppState) (kind : RowKind) : ProcessRow where
  kind := kind
  dlBps := (st.shownSpeeds kind).1
  ulBps := (st.shownSpeeds kind).2
  rule := kind.rule st.rules st.globalRule

/-- The row shows the rule that the maps have for it. -/
def UpToDate (st : AppState) (row : ProcessRow) : Prop :=
  row.rule = row.kind.rule st.rules st.globalRule

instance (st : AppState) (row : ProcessRow) : Decidable (st.UpToDate row) :=
  inferInstanceAs (Decidable (_ = _))

def withShownSpeeds (st : AppState) (row : ProcessRow) : ProcessRow :=
  { row with dlBps := (st.shownSpeeds row.kind).1, ulBps := (st.shownSpeeds row.kind).2 }

section Rows
variable {lower : Text → Text} {st : AppState} {processes : List ProcessInfo}
  {expandedNames : Std.ExtTreeSet Text} {sortDirection : SortDirection} {kinds : List RowKind}

theorem global_not_mem_kindsOf (key : Text) :
    RowKind.global ∉ kindsOf lower processes expandedNames key := by
  intro hmem
  obtain ⟨group, -, hkind⟩ := List.mem_flatMap.mp hmem
  rcases List.mem_cons.mp hkind with heq | hkind
  · cases heq
  · split at hkind
    · obtain ⟨_, -, heq⟩ := List.mem_map.mp hkind
      cases heq
    · cases hkind

/-- The machine has the first row of a table, and no other. -/
theorem exists_rest_of_isTable (h : IsTable lower processes expandedNames sortDirection kinds) :
    ∃ rest, kinds = .global :: rest ∧ RowKind.global ∉ rest := by
  obtain ⟨keys, -, rfl⟩ := h
  refine ⟨_, rfl, fun hmem => ?_⟩
  obtain ⟨key, -, hkind⟩ := List.mem_flatMap.mp hmem
  exact global_not_mem_kindsOf key hkind

/-- The fast refresh keeps the kinds and the rules of the rows. -/
theorem map_kind_rule_refreshRowSpeeds (st : AppState) :
    (st.refreshRowSpeeds.rows.map fun row => (row.kind, row.rule)) =
      st.rows.map fun row => (row.kind, row.rule) := by
  unfold refreshRowSpeeds
  split
  · rfl
  · next global rest hrows =>
    rw [hrows, List.map_cons, List.map_cons, List.map_map]
    refine congrArg _ (List.map_congr_left fun row _ => ?_)
    dsimp only [Function.comp_apply]
    split <;> rfl

/-- In a table, it gives every row the rates that the row shows. -/
theorem refreshRowSpeeds_rows {restKinds : List RowKind}
    (hkinds : st.rows.map ProcessRow.kind = .global :: restKinds)
    (hglobal : RowKind.global ∉ restKinds) :
    st.refreshRowSpeeds.rows = st.rows.map st.withShownSpeeds := by
  unfold refreshRowSpeeds
  split
  · next hrows =>
    rw [hrows]
    rfl
  · next global rest hrows =>
    rw [hrows, List.map_cons] at hkinds
    injection hkinds with hkind hrest
    rw [hrows, List.map_cons]
    refine congrArg₂ _ ?_ (List.map_congr_left fun row hrow => ?_)
    · rw [withShownSpeeds, hkind]
      rfl
    · have hne : row.kind ≠ .global := by
        intro heq
        rw [← hrest, ← heq] at hglobal
        exact hglobal (List.mem_map_of_mem hrow)
      rw [withShownSpeeds]
      cases hkind : row.kind with
      | global => exact absurd hkind hne
      | group | child => rfl

/-- A rebuilt table shows everything as it is. -/
theorem rebuildRowsFrom_rows (hlower : IgnoresAsciiCase lower) (st : AppState)
    (processes : List ProcessInfo) : ∃ kinds,
      IsTable lower processes st.expanded .ascending kinds ∧
        (st.rebuildRowsFrom lower processes).rows = kinds.map st.shownRow := by
  obtain ⟨kinds, hkinds, hrows⟩ := isTable_buildProcessRows hlower processes st.expanded st.rules
    st.speeds st.globalRule .ascending
  obtain ⟨rest, hrest, hglobal⟩ := exists_rest_of_isTable hkinds
  have hmap : (kinds.map (RowKind.row st.rules st.speeds st.globalRule)).map ProcessRow.kind =
      kinds := by
    rw [List.map_map]
    exact List.map_id kinds
  refine ⟨kinds, hkinds, ?_⟩
  rw [rebuildRowsFrom, hrows, refreshRowSpeeds_rows (hmap.trans hrest) hglobal, List.map_map]
  rfl

/-- The fast refresh is right exactly where the rows that it leaves are those of the table that
the processes make, and every row shows its rule. -/
theorem refreshRowSpeeds_eq_rebuild_iff (hlower : IgnoresAsciiCase lower) (st : AppState)
    (processes : List ProcessInfo) :
    st.refreshRowSpeeds.rows = (st.rebuildRowsFrom lower processes).rows ↔
      IsTable lower processes st.expanded .ascending (st.rows.map ProcessRow.kind) ∧
        ∀ row ∈ st.rows, st.UpToDate row := by
  obtain ⟨kinds, hkinds, hrebuilt⟩ := rebuildRowsFrom_rows hlower st processes
  rw [hrebuilt]
  constructor
  · intro heq
    have hpairs := map_kind_rule_refreshRowSpeeds st
    rw [heq, List.map_map] at hpairs
    have hkind : st.rows.map ProcessRow.kind = kinds := by
      have h := congrArg (List.map Prod.fst) hpairs
      rw [List.map_map, List.map_map] at h
      exact (h.symm.trans (List.map_id kinds) :)
    refine ⟨hkind ▸ hkinds, fun row hrow => ?_⟩
    have hmem : (row.kind, row.rule) ∈ st.rows.map fun row => (row.kind, row.rule) :=
      List.mem_map_of_mem hrow
    rw [← hpairs] at hmem
    obtain ⟨kind, -, hpair⟩ := List.mem_map.mp hmem
    injection hpair with hkind hrule
    rw [UpToDate, ← hkind, ← hrule]
    rfl
  · rintro ⟨htable, hrules⟩
    obtain ⟨rest, hrest, hglobal⟩ := exists_rest_of_isTable htable
    rw [refreshRowSpeeds_rows hrest hglobal, ← htable.unique hkinds, List.map_map]
    refine List.map_congr_left fun row hrow => ?_
    have hrule := hrules row hrow
    rw [UpToDate] at hrule
    rw [withShownSpeeds, Function.comp_apply, shownRow, ← hrule]

end Rows

section Built
variable {lower : Text → Text} {parseF64 : Text → Option ℚ} {st : AppState}
  {listed : List ProcessInfo}

variable (lower listed) in
/-- The table was built from the processes, when their fingerprint was taken. -/
def BuiltFrom (st : AppState) : Prop :=
  ∃ expandedNames, IsTable lower listed expandedNames .ascending (st.rows.map ProcessRow.kind) ∧
    st.tableFingerprint = .fromProcesses listed expandedNames

/-- What a table keeps between rebuilds. -/
def tableKinds (st : AppState) : List RowKind × TableFingerprint :=
  (st.rows.map ProcessRow.kind, st.tableFingerprint)

theorem tableKinds_of_table {st st' : AppState} (h : st'.table = st.table) :
    st'.tableKinds = st.tableKinds :=
  congrArg (fun table => (table.1.map ProcessRow.kind, table.2)) h

theorem BuiltFrom.of_tableKinds {st' : AppState} (h : BuiltFrom lower listed st)
    (hkinds : st'.tableKinds = st.tableKinds) : BuiltFrom lower listed st' := by
  obtain ⟨hrows, hfingerprint⟩ := Prod.mk.inj hkinds
  rw [BuiltFrom, hrows, hfingerprint]
  exact h

theorem tableKinds_refreshRowSpeeds (st : AppState) :
    st.refreshRowSpeeds.tableKinds = st.tableKinds := by
  have hrows := congrArg (List.map Prod.fst) (map_kind_rule_refreshRowSpeeds st)
  rw [List.map_map, List.map_map] at hrows
  refine Prod.ext hrows ?_
  unfold refreshRowSpeeds
  split <;> rfl

theorem expanded_refreshRowSpeeds (st : AppState) :
    st.refreshRowSpeeds.expanded = st.expanded := by
  unfold refreshRowSpeeds
  split <;> rfl

/-- A rebuild builds the table from the processes that it reads. -/
theorem isTable_rebuildRowsFrom (hlower : IgnoresAsciiCase lower) (st : AppState)
    (processes : List ProcessInfo) : IsTable lower processes st.expanded .ascending
      ((st.rebuildRowsFrom lower processes).rows.map ProcessRow.kind) := by
  obtain ⟨kinds, hkinds, hrows⟩ := rebuildRowsFrom_rows hlower st processes
  have hmap : (kinds.map st.shownRow).map ProcessRow.kind = kinds := by
    rw [List.map_map]
    exact List.map_id kinds
  rw [hrows, hmap]
  exact hkinds

theorem tableFingerprint_rebuildRowsFrom (st : AppState) (processes : List ProcessInfo) :
    (st.rebuildRowsFrom lower processes).tableFingerprint = st.tableFingerprint :=
  congrArg Prod.snd (tableKinds_refreshRowSpeeds { st with
    rows := buildProcessRows lower processes st.expanded st.rules st.speeds st.globalRule
      .process .ascending })

theorem builtFrom_rebuildRows (hlower : IgnoresAsciiCase lower) (st : AppState)
    (processes : List ProcessInfo) : BuiltFrom lower processes (st.rebuildRows lower processes) :=
  ⟨_, isTable_rebuildRowsFrom hlower (st.applyNameRulesFrom lower processes) processes, by
    rw [rebuildRows, rebuildRowsFrom, expanded_refreshRowSpeeds]⟩

/-- Whether the event makes the application build its table anew. -/
def rebuilds (st : AppState) : Event → Bool
  | .rebuildRows _ => true
  | .refreshTableOnTick processes => .fromProcesses processes st.expanded ≠ st.tableFingerprint
  | _ => false

variable (lower parseF64) in
/-- The processes from which the table was built last in a run. -/
def lastBuilt (st : AppState) : List Event → Option (List ProcessInfo)
  | [] => none
  | e :: events =>
    (lastBuilt (st.step lower parseF64 e) events).or (if st.rebuilds e then e.processes else none)

theorem mem_of_lastBuilt {events : List Event}
    (h : lastBuilt lower parseF64 st events = some listed) :
    ∃ e ∈ events, e.processes = some listed := by
  induction events generalizing st with
  | nil => cases h
  | cons e events ih =>
    rcases Option.or_eq_some_iff.mp h with hlater | ⟨-, hnow⟩
    · obtain ⟨e', he', hlisted⟩ := ih hlater
      exact ⟨e', List.mem_cons_of_mem _ he', hlisted⟩
    · split at hnow
      · exact ⟨e, List.mem_cons_self, hnow⟩
      · cases hnow

/-- A tick's refresh builds the table anew, or leaves its rows as they are. -/
theorem builtFrom_refreshTableOnTick (hlower : IgnoresAsciiCase lower) (st : AppState)
    (processes : List ProcessInfo) :
    if st.rebuilds (.refreshTableOnTick processes) then
      BuiltFrom lower processes (st.refreshTableOnTick lower processes)
    else (st.refreshTableOnTick lower processes).tableKinds = st.tableKinds := by
  obtain ⟨engine, rules, hrules⟩ := exists_applyNameRulesFrom lower st processes
  simp only [refreshTableOnTick, rebuilds, hrules, decide_eq_true_eq]
  split
  · refine ⟨_, isTable_rebuildRowsFrom hlower _ processes, ?_⟩
    rw [tableFingerprint_rebuildRowsFrom]
  · rw [tableKinds_refreshRowSpeeds]
    rfl

/-- After any event, the table is built from the processes that the event read, or as it was. -/
theorem builtFrom_step (hlower : IgnoresAsciiCase lower) (parseF64 : Text → Option ℚ)
    (st : AppState) (e : Event) :
    if st.rebuilds e then ∃ processes, e.processes = some processes ∧
      BuiltFrom lower processes (st.step lower parseF64 e)
    else (st.step lower parseF64 e).tableKinds = st.tableKinds := by
  cases e with
  | rebuildRows processes => exact ⟨processes, rfl, builtFrom_rebuildRows hlower st processes⟩
  | refreshTableOnTick processes =>
    have hbuilt := builtFrom_refreshTableOnTick hlower st processes
    split at hbuilt
    · next h =>
      rw [if_pos h]
      exact ⟨processes, rfl, hbuilt⟩
    · next h =>
      rw [if_neg h]
      exact hbuilt
  | _ => exact tableKinds_of_table (table_step rfl)

/-- After any events, the table is the one that was built last, or as it was. -/
theorem builtFrom_lastBuilt (hlower : IgnoresAsciiCase lower) (st : AppState)
    (events : List Event) :
    match lastBuilt lower parseF64 st events with
    | some listed => BuiltFrom lower listed (st.run lower parseF64 events)
    | none => (st.run lower parseF64 events).tableKinds = st.tableKinds := by
  induction events generalizing st with
  | nil => rfl
  | cons e events ih =>
    have hstep := builtFrom_step hlower parseF64 st e
    have hrun := ih (st.step lower parseF64 e)
    rw [lastBuilt, show st.run lower parseF64 (e :: events) =
      (st.step lower parseF64 e).run lower parseF64 events from rfl]
    cases hlast : lastBuilt lower parseF64 (st.step lower parseF64 e) events with
    | some listed =>
      rw [hlast] at hrun
      exact hrun
    | none =>
      rw [hlast] at hrun
      dsimp only at hrun
      rw [Option.none_or]
      split at hstep
      · next hrebuilds =>
        obtain ⟨processes, hprocesses, hbuilt⟩ := hstep
        rw [if_pos hrebuilds, hprocesses]
        exact hbuilt.of_tableKinds hrun
      · next hkept =>
        rw [if_neg hkept]
        exact hrun.trans hstep

/-- After any events, the table is as it was, or built from the processes that one of them read. -/
theorem builtFrom_run (hlower : IgnoresAsciiCase lower) (st : AppState) (events : List Event) :
    (∃ e ∈ events, ∃ processes, e.processes = some processes ∧
      BuiltFrom lower processes (st.run lower parseF64 events)) ∨
    (st.run lower parseF64 events).tableKinds = st.tableKinds := by
  have hrun := @builtFrom_lastBuilt lower parseF64 hlower st events
  cases hlast : lastBuilt lower parseF64 st events with
  | some listed =>
    rw [hlast] at hrun
    obtain ⟨e, he, hlisted⟩ := mem_of_lastBuilt hlast
    exact .inl ⟨e, he, listed, hlisted, hrun⟩
  | none =>
    rw [hlast] at hrun
    exact .inr hrun

/-- The fast refresh of a table is right exactly if the names' groups are those that it was built
from, and no row shows an older rule. -/
theorem BuiltFrom.refreshRowSpeeds_eq_rebuild_iff (hlower : IgnoresAsciiCase lower)
    (h : BuiltFrom lower listed st) {processes : List ProcessInfo}
    (hfingerprint : .fromProcesses processes st.expanded = st.tableFingerprint) :
    st.refreshRowSpeeds.rows = (st.rebuildRowsFrom lower processes).rows ↔
      tableGroup lower listed = tableGroup lower processes ∧ ∀ row ∈ st.rows, st.UpToDate row := by
  obtain ⟨expandedNames, htable, hbuilt⟩ := h
  rw [hbuilt] at hfingerprint
  have hexpanded : st.expanded = expandedNames :=
    Std.ExtTreeSet.toList_inj.mp (congrArg TableFingerprint.expanded hfingerprint)
  rw [AppState.refreshRowSpeeds_eq_rebuild_iff hlower, hexpanded, htable.iff_tableGroup_eq]

end Built

/-- For every state, the fast refresh is right exactly where the stored rows are those of the
table that the processes make and show their rules. In a run of the application, this is where
the names' groups are those from which the table was built last, and no row shows an older rule;
before the first rebuild it is nowhere. -/
theorem fastRefresh_iff {lower : Text → Text} (hlower : IgnoresAsciiCase lower) :
    (∀ (st : AppState) (processes : List ProcessInfo),
      .fromProcesses processes st.expanded = st.tableFingerprint →
      (st.refreshRowSpeeds.rows = (st.rebuildRowsFrom lower processes).rows ↔
        IsTable lower processes st.expanded .ascending (st.rows.map ProcessRow.kind) ∧
          ∀ row ∈ st.rows, st.UpToDate row)) ∧
    ∀ {F : Type} [F32 F] (settings : AppSettings F) (parseF64 : Text → Option ℚ)
      (events : List Event), let st := (new settings).run lower parseF64 events
      match lastBuilt lower parseF64 (new settings) events with
      | some listed => (∃ e ∈ events, e.processes = some listed) ∧ ∀ processes,
        .fromProcesses processes st.expanded = st.tableFingerprint →
        (st.refreshRowSpeeds.rows = (st.rebuildRowsFrom lower processes).rows ↔
          tableGroup lower listed = tableGroup lower processes ∧
            ∀ row ∈ st.rows, st.UpToDate row)
      | none => ∀ processes,
        st.refreshRowSpeeds.rows ≠ (st.rebuildRowsFrom lower processes).rows := by
  refine ⟨fun st processes _ => refreshRowSpeeds_eq_rebuild_iff hlower st processes, ?_⟩
  intro F _ settings parseF64 events st
  have hrun := @builtFrom_lastBuilt lower parseF64 hlower (new settings) events
  cases hlast : lastBuilt lower parseF64 (new settings) events with
  | some listed =>
    rw [hlast] at hrun
    exact ⟨mem_of_lastBuilt hlast, fun processes =>
      BuiltFrom.refreshRowSpeeds_eq_rebuild_iff hlower hrun⟩
  | none =>
    rw [hlast] at hrun
    intro processes heq
    obtain ⟨htable, -⟩ := (refreshRowSpeeds_eq_rebuild_iff hlower st processes).mp heq
    obtain ⟨rest, hrest, -⟩ := exists_rest_of_isTable htable
    have hnone : st.rows.map ProcessRow.kind = [] := congrArg Prod.fst hrun
    rw [hnone] at hrest
    cases hrest

section Reused

/-- The table shows one process. -/
def oneProcess : AppState :=
  (AppState.new (AppSettings.load toAsciiLowercase none : AppSettings WholeF32)).run
    toAsciiLowercase (fun _ => none) [.rebuildRows [.new 10 "setup".toList]]

theorem fastRefresh_oneProcess :
    oneProcess.refreshRowSpeeds.rows =
        (oneProcess.rebuildRowsFrom toAsciiLowercase [.new 10 "setup".toList]).rows ↔
      IsTable toAsciiLowercase [.new 10 "setup".toList] oneProcess.expanded .ascending
          (oneProcess.rows.map ProcessRow.kind) ∧
        ∀ row ∈ oneProcess.rows, oneProcess.UpToDate row :=
  (fastRefresh_iff ignoresAsciiCase_toAsciiLowercase).1 oneProcess [.new 10 "setup".toList]
    (by decide +kernel)

/-- Another process with its PID is shown under the old name. -/
theorem fastRefresh_reusedPid :
    .fromProcesses [.new 10 "update".toList] oneProcess.expanded = oneProcess.tableFingerprint ∧
      oneProcess.refreshRowSpeeds.rows ≠
        (oneProcess.rebuildRowsFrom toAsciiLowercase [.new 10 "update".toList]).rows := by
  decide +kernel

end Reused

end AppState

end FlowBrake.Ui
