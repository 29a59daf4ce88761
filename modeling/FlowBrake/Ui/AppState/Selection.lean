import FlowBrake.Ui.AppState.Frame
import FlowBrake.Ui.AppState.Refresh

/-! Which row is selected, while the table is refreshed and its groups are opened and closed. -/
namespace FlowBrake.Ui
open FlowBrake.Core FlowBrake.Windows Text

namespace AppState

/-- `-1` where nothing that the table shows is selected. -/
def selectedRowIndex (lower : Text → Text) (st : AppState) : ℤ :=
  match st.selected with
  | none => -1
  | some selected =>
    match st.rows.findIdx? fun row => RowSelection.ofKind lower row.kind = selected with
    | some index => index
    | none => -1

def kinds (st : AppState) : List RowKind := st.rows.map ProcessRow.kind

/-- What each row selects. -/
def selections (lower : Text → Text) (st : AppState) : List RowSelection :=
  st.rows.map fun row => .ofKind lower row.kind

end AppState

/-- What the event reads, it reads as a list of distinct processes. -/
def Event.Distinct (e : Event) : Prop :=
  ∀ processes ∈ e.processes, (processes.map ProcessInfo.pid).Nodup

namespace AppState

section Rows
variable {lower : Text → Text} {parseF64 : Text → Option ℚ} {st : AppState}

theorem rowAt_natCast (i : ℕ) : st.rowAt i = st.rows[i]? := by
  rw [rowAt, if_neg (by omega), Int.toNat_natCast]

theorem exists_natCast_of_rowAt {rowIndex : ℤ} {row : ProcessRow}
    (h : st.rowAt rowIndex = some row) : ∃ i : ℕ, rowIndex = i ∧ st.rows[i]? = some row := by
  unfold rowAt at h
  split at h
  · cases h
  · exact ⟨rowIndex.toNat, by omega, h⟩

theorem selections_eq (st : AppState) :
    st.selections lower = st.kinds.map (RowSelection.ofKind lower) := by
  rw [kinds, List.map_map]
  rfl

theorem nodup_selections_of_isTable {listed : List ProcessInfo}
    {expandedNames : Std.ExtTreeSet Text} (hlisted : (listed.map ProcessInfo.pid).Nodup)
    (h : IsTable lower listed expandedNames .ascending st.kinds) :
    (st.selections lower).Nodup := by
  obtain ⟨keys, hkeys, hkinds⟩ := h
  rw [selections_eq, hkinds]
  exact nodup_selections hkeys hlisted

variable (parseF64) in
/-- No two rows of the table ever select the same. -/
theorem nodup_selections_run (hlower : IgnoresAsciiCase lower) {F : Type} [F32 F]
    (settings : AppSettings F) {events : List Event} (hevents : ∀ e ∈ events, e.Distinct) :
    (((new settings).run lower parseF64 events).selections lower).Nodup := by
  rcases @builtFrom_run lower parseF64 hlower (new settings) events with
    ⟨e, he, listed, hlisted, expandedNames, htable, -⟩ | hkinds
  · exact nodup_selections_of_isTable (hevents e he listed hlisted) htable
  · rw [selections_eq, show kinds _ = [] from congrArg Prod.fst hkinds]
    exact .nil

end Rows

section Click
variable {lower : Text → Text} {parseF64 : Text → Option ℚ} {st : AppState}

theorem findIdx?_of_nodup_map {α β : Type} [DecidableEq β] {f : α → β} {as : List α}
    (h : (as.map f).Nodup) {i : ℕ} {a : α} (ha : as[i]? = some a) :
    as.findIdx? (fun a' => f a' = f a) = some i ∧ as.find? (fun a' => f a' = f a) = some a := by
  induction as generalizing i with
  | nil => simp at ha
  | cons first as ih =>
    obtain ⟨hfirst, hnodup⟩ := List.nodup_cons.mp h
    cases i with
    | zero =>
      obtain rfl : first = a := by simpa using ha
      simp [List.findIdx?_cons]
    | succ i =>
      rw [List.getElem?_cons_succ] at ha
      have hne : f first ≠ f a := fun heq =>
        hfirst (heq ▸ List.mem_map_of_mem (List.mem_of_getElem? ha))
      obtain ⟨hindex, hfind⟩ := ih hnodup ha
      rw [List.findIdx?_cons, List.find?_cons_of_neg (by simpa using hne), hfind, hindex]
      simp [hne]

theorem selectedRow_of_selected {i : ℕ} {row : ProcessRow} (h : (st.selections lower).Nodup)
    (hrow : st.rows[i]? = some row) (hselected : st.selected = some (.ofKind lower row.kind)) :
    st.selectedRow lower = some row ∧ st.selectedRowIndex lower = i := by
  obtain ⟨hindex, hfind⟩ := findIdx?_of_nodup_map h hrow
  rw [selectedRow, selectedRowIndex, hselected]
  simp only [hindex]
  exact ⟨hfind, trivial⟩

/-- The sidebar's edits of a selected row are the table's edits of it. -/
structure EditsAgree (lower : Text → Text) (parseF64 : Text → Option ℚ) (st : AppState)
    (rowIndex : ℤ) : Prop where
  bool : ∀ (field : Text) (value : Bool),
    st.editSelectedBool lower field value = st.editBool lower rowIndex field value
  limit : ∀ (direction text : Text) (now : Instant),
    st.editSelectedLimit lower parseF64 direction text now =
      st.editRowLimit lower parseF64 rowIndex direction text now

theorem editsAgree_of_selected {rowIndex : ℤ} {row : ProcessRow}
    (hrow : st.rowAt rowIndex = some row) (hselected : st.selected = some (.ofKind lower row.kind))
    (hselectedRow : st.selectedRow lower = some row) : EditsAgree lower parseF64 st rowIndex where
  bool field value := by
    have hst : { st with selected := some (.ofKind lower row.kind) } = st := by rw [← hselected]
    simp only [editSelectedBool, editBool, hrow, hselectedRow, hst]
  limit direction text now := by
    have hst : { st with
        selected := some (.ofKind lower row.kind)
        suppressTableRefreshUntil := suppressDeadline now } =
        { st with suppressTableRefreshUntil := suppressDeadline now } := by rw [← hselected]
    simp only [editSelectedLimit, editRowLimit, hrow, hselectedRow, hst]

/-- In every run of the application over lists of distinct processes, a click on a row selects
that row and no other, and the sidebar then edits what the table would edit in its place. -/
theorem selectRow_selects (hlower : IgnoresAsciiCase lower) {F : Type} [F32 F]
    (settings : AppSettings F) {events : List Event} (hevents : ∀ e ∈ events, e.Distinct)
    (rowIndex : ℤ) (row : ProcessRow)
    (hrow : ((new settings).run lower parseF64 events).rowAt rowIndex = some row) :
    ∃ st, st = ((new settings).run lower parseF64 events).selectRow lower rowIndex ∧
      st.selectedRow lower = some row ∧ st.selectedRowIndex lower = rowIndex ∧
      EditsAgree lower parseF64 st rowIndex := by
  obtain ⟨i, rfl, hi⟩ := exists_natCast_of_rowAt hrow
  have hnodup : ((((new settings).run lower parseF64 events).selectRow lower i).selections
      lower).Nodup := nodup_selections_run parseF64 hlower settings hevents
  have hselected : (((new settings).run lower parseF64 events).selectRow lower i).selected =
      some (.ofKind lower row.kind) := by
    rw [selectRow, hrow]
    rfl
  obtain ⟨hselectedRow, hindex⟩ := selectedRow_of_selected hnodup hi hselected
  exact ⟨_, rfl, hselectedRow, hindex, editsAgree_of_selected hrow hselected hselectedRow⟩

/-- Two processes whose names differ in case, listed by the first refresh. -/
def listedMixedCase : AppState :=
  (AppState.new (AppSettings.load toAsciiLowercase none : AppSettings WholeF32)).run
    toAsciiLowercase (fun _ => none) [.rebuildRows mixedCase]

theorem selectRow_selects_mixedCase : ∃ st, st = listedMixedCase.selectRow toAsciiLowercase 2 ∧
    st.selectedRow toAsciiLowercase = listedMixedCase.rowAt 2 ∧
      st.selectedRowIndex toAsciiLowercase = 2 ∧
      EditsAgree toAsciiLowercase (fun _ => none) st 2 := by
  have hdistinct : ∀ e ∈ [Event.rebuildRows mixedCase], e.Distinct := by
    simp only [List.mem_singleton, forall_eq]
    intro processes hprocesses
    obtain rfl : mixedCase = processes := Option.some.inj hprocesses
    decide
  have hrow : (listedMixedCase.rowAt 2).isSome := by decide +kernel
  obtain ⟨row, hrow⟩ := Option.isSome_iff_exists.mp hrow
  rw [hrow]
  exact selectRow_selects ignoresAsciiCase_toAsciiLowercase _ hdistinct 2 row hrow

end Click

section Split
variable {lower : Text → Text} {processes : List ProcessInfo}

/-- Opening or closing one group changes its own rows only. -/
theorem isTable_split {expandedNames : Std.ExtTreeSet Text} {kinds : List RowKind}
    (h : IsTable lower processes expandedNames .ascending kinds) {group : TableGroup} {key : Text}
    (hgroup : tableGroup lower processes key = some group) :
    ∃ before after, ∀ expandedNames' kinds',
      IsTable lower processes expandedNames' .ascending kinds' →
      (∀ name, name ≠ key → expandedNames'.contains name = expandedNames.contains name) →
      kinds' = before ++ group.kinds (expandedNames'.contains key) ++ after := by
  obtain ⟨keys, hkeys, -⟩ := h
  have hmem : key ∈ keys := (hkeys.mem_iff key).mpr (tableGroup_isSome_iff.mp (hgroup ▸ rfl))
  obtain ⟨keys₁, keys₂, rfl⟩ := List.append_of_mem hmem
  have hdisjoint := List.nodup_append.mp (Comparison.nodup_of_increasing hkeys.ordered)
  have hbefore : key ∉ keys₁ := fun hmem => hdisjoint.2.2 key hmem key List.mem_cons_self rfl
  have hafter : key ∉ keys₂ := (List.nodup_cons.mp hdisjoint.2.1).1
  refine ⟨.global :: keys₁.flatMap (kindsOf lower processes expandedNames),
    keys₂.flatMap (kindsOf lower processes expandedNames), ?_⟩
  rintro expandedNames' kinds' ⟨keys', hkeys', rfl⟩ hothers
  obtain rfl := hkeys.unique hkeys'
  have hsame (names : List Text) (hnames : key ∉ names) :
      names.flatMap (kindsOf lower processes expandedNames') =
        names.flatMap (kindsOf lower processes expandedNames) := by
    refine List.flatMap_congr fun name hname => ?_
    rw [kindsOf, kindsOf, hothers name (ne_of_mem_of_not_mem hname hnames)]
  have hkey : kindsOf lower processes expandedNames' key =
      group.kinds (expandedNames'.contains key) := by
    rw [kindsOf, hgroup, Option.toList_some, List.flatMap_singleton]
  rw [List.flatMap_append, List.flatMap_cons, hsame keys₁ hbefore, hsame keys₂ hafter, hkey,
    List.cons_append, List.cons_append, List.append_assoc]

end Split

section Frame
variable (lower : Text → Text) (st : AppState) (processes : List ProcessInfo)

theorem expanded_rebuildRows : (st.rebuildRows lower processes).expanded = st.expanded := by
  obtain ⟨_, _, _, _, heq⟩ := exists_rebuildRows lower st processes
  rw [heq]

theorem selected_rebuildRows : (st.rebuildRows lower processes).selected = st.selected := by
  obtain ⟨_, _, _, _, heq⟩ := exists_rebuildRows lower st processes
  rw [heq]

variable {lower} in
/-- A rebuilt table is that of the processes and of the groups that are open. -/
theorem isTable_rebuildRows (hlower : IgnoresAsciiCase lower) :
    IsTable lower processes st.expanded .ascending (st.rebuildRows lower processes).kinds := by
  have hexpanded : (st.applyNameRulesFrom lower processes).expanded = st.expanded := by
    obtain ⟨_, _, heq⟩ := exists_applyNameRulesFrom lower st processes
    rw [heq]
  rw [← hexpanded]
  exact isTable_rebuildRowsFrom hlower (st.applyNameRulesFrom lower processes) processes

end Frame

section Toggle
variable {lower : Text → Text} {processes : List ProcessInfo} {st : AppState}

/-- A double click on the row of a group: the group is opened or closed, and the table rebuilt. -/
def toggleAndRebuild (lower : Text → Text) (processes : List ProcessInfo) (st : AppState)
    (rowIndex : ℤ) : AppState :=
  (st.toggleRowExpanded lower rowIndex).rebuildRows lower processes

/-- The row of a group with several processes, at its place among the kinds of the rows. -/
structure GroupAt (lower : Text → Text) (processes : List ProcessInfo) (st : AppState)
    (rowIndex : ℤ) (group : TableGroup) (before after : List RowKind) : Prop where
  several : 1 < group.pids.length
  listed : tableGroup lower processes (lower group.processName) = some group
  kinds : st.kinds = before ++ group.kinds (st.expanded.contains (lower group.processName)) ++ after
  rowIndex : rowIndex = before.length

/-- The open groups, with one of them opened or closed. -/
def flipped (expanded : Std.ExtTreeSet Text) (key : Text) : Std.ExtTreeSet Text :=
  if expanded.contains key then expanded.erase key else expanded.insert key

theorem contains_flipped (expanded : Std.ExtTreeSet Text) (key : Text) :
    (flipped expanded key).contains key = !expanded.contains key ∧
      ∀ name, name ≠ key → (flipped expanded key).contains name = expanded.contains name := by
  unfold flipped
  constructor
  · split
    · next h => simp [h]
    · next h => simp [h]
  · intro name hname
    have hne : compare key name ≠ .eq := fun heq => hname (Std.compare_eq_iff_eq.mp heq).symm
    split
    · simp [Std.ExtTreeSet.contains_erase, hne]
    · simp [Std.ExtTreeSet.contains_insert, hne]

theorem flipped_flipped (expanded : Std.ExtTreeSet Text) (key : Text) :
    flipped (flipped expanded key) key = expanded := by
  refine Std.ExtTreeSet.ext_contains fun name => ?_
  by_cases hname : name = key
  · subst hname
    rw [(contains_flipped _ _).1, (contains_flipped _ _).1, Bool.not_not]
  · rw [(contains_flipped _ _).2 name hname, (contains_flipped _ _).2 name hname]

/-- The row is that of a group with several processes. -/
def Opens (st : AppState) (rowIndex : ℤ) : Prop :=
  ∃ group : TableGroup, 1 < group.pids.length ∧ ∃ expanded,
    (st.rowAt rowIndex).map ProcessRow.kind =
      some (.group group.processName group.displayName group.exePath group.pids expanded)

theorem map_kind_rowAt (st : AppState) (i : ℕ) :
    (st.rowAt i).map ProcessRow.kind = st.kinds[i]? := by
  rw [rowAt_natCast, kinds, List.getElem?_map]

theorem toggleRowExpanded_of_not_opens {rowIndex : ℤ} (h : ¬ st.Opens rowIndex) :
    st.toggleRowExpanded lower rowIndex = st := by
  unfold toggleRowExpanded
  split
  · next processName displayName exePath pids expanded hkind =>
    rw [if_pos]
    by_contra hlt
    exact h ⟨⟨processName, displayName, exePath, pids⟩, by simpa using hlt, expanded, hkind⟩
  · rfl

/-- In a table of the open groups, a group that opens has its place. -/
theorem exists_groupAt (htable : IsTable lower processes st.expanded .ascending st.kinds)
    (hpids : (processes.map ProcessInfo.pid).Nodup) {rowIndex : ℤ} (h : st.Opens rowIndex) :
    ∃ group before after, GroupAt lower processes st rowIndex group before after ∧
      ∀ expandedNames kinds, IsTable lower processes expandedNames .ascending kinds →
        (∀ name, name ≠ lower group.processName →
          expandedNames.contains name = st.expanded.contains name) →
        kinds =
          before ++ group.kinds (expandedNames.contains (lower group.processName)) ++ after := by
  obtain ⟨group, hseveral, expanded, hkind⟩ := h
  obtain ⟨row, hrow, hrowKind⟩ := Option.map_eq_some_iff.mp hkind
  obtain ⟨i, rfl, hi⟩ := exists_natCast_of_rowAt hrow
  rw [map_kind_rowAt] at hkind
  obtain ⟨hlisted, rfl⟩ := (htable.mem_iff group expanded).mp (List.mem_of_getElem? hkind)
  obtain ⟨before, after, hsplit⟩ := isTable_split htable hlisted
  have hkinds := hsplit _ _ htable fun _ _ => rfl
  refine ⟨group, before, after, ⟨hseveral, hlisted, hkinds, ?_⟩, hsplit⟩
  have hnodup : st.kinds.Nodup := by
    have hselections := nodup_selections_of_isTable hpids htable
    rw [selections_eq] at hselections
    exact .of_map _ hselections
  have hhead : st.kinds[before.length]? = some (.group group.processName group.displayName
      group.exePath group.pids (st.expanded.contains (lower group.processName))) := by
    rw [hkinds, TableGroup.kinds, List.append_assoc, List.getElem?_append_right (le_refl _)]
    simp
  have hi : i = before.length := (List.getElem?_inj (List.getElem?_eq_some_iff.mp hkind).1
    hnodup).mp (hkind.trans hhead.symm)
  rw [hi]

/-- A selected process of the group that is closed hands the selection to the group. -/
def handedOver (key : Text) (pids : List UInt32) : Option RowSelection → Option RowSelection
  | some (.child pid) => if pid ∈ pids then some (.group key) else some (.child pid)
  | selected => selected

theorem GroupAt.opens {rowIndex : ℤ} {group : TableGroup} {before after : List RowKind}
    (h : GroupAt lower processes st rowIndex group before after) :
    (st.rowAt rowIndex).map ProcessRow.kind = some (.group group.processName group.displayName
      group.exePath group.pids (st.expanded.contains (lower group.processName))) := by
  rw [h.rowIndex, map_kind_rowAt, h.kinds, TableGroup.kinds, List.append_assoc,
    List.getElem?_append_right (le_refl _)]
  simp

theorem GroupAt.toggleRowExpanded {rowIndex : ℤ} {group : TableGroup} {before after : List RowKind}
    (h : GroupAt lower processes st rowIndex group before after) :
    (st.toggleRowExpanded lower rowIndex).expanded =
        flipped st.expanded (lower group.processName) ∧
      (st.toggleRowExpanded lower rowIndex).selected =
        if st.expanded.contains (lower group.processName) then
          handedOver (lower group.processName) group.pids st.selected else st.selected := by
  have hseveral : ¬ group.pids.length ≤ 1 := not_le.mpr h.several
  unfold AppState.toggleRowExpanded flipped
  simp only [h.opens, if_neg hseveral]
  split
  · refine ⟨rfl, ?_⟩
    rcases st.selected with _ | _ | _ | pid <;> rfl
  · exact ⟨rfl, rfl⟩

/-- What a double click on the row of a group comes to: the rows before and after the group's stay
of their kinds, and the selection stays as it is, unless its row is closed. -/
structure Toggled (lower : Text → Text) (processes : List ProcessInfo) (st st' : AppState)
    (rowIndex : ℤ) : Prop where
  rows : ∃ group before after, GroupAt lower processes st rowIndex group before after ∧
    GroupAt lower processes st' rowIndex group before after ∧
    st'.expanded = flipped st.expanded (lower group.processName) ∧
    st'.selected = if st.expanded.contains (lower group.processName) then
      handedOver (lower group.processName) group.pids st.selected else st.selected
  selected : (st.selectedRow lower).isSome → (st'.selectedRow lower).isSome

theorem isSome_selectedRow_iff : (st.selectedRow lower).isSome ↔
    ∃ selected, st.selected = some selected ∧ selected ∈ st.selections lower := by
  rw [selectedRow]
  cases st.selected with
  | none => simp
  | some selected =>
    rw [Option.bind_eq_bind, Option.bind_some, List.find?_isSome, selections]
    simp

theorem mem_selections_kinds {group : TableGroup} {expanded : Bool} {selected : RowSelection} :
    selected ∈ (group.kinds expanded).map (RowSelection.ofKind lower) ↔
      selected = .group (lower group.processName) ∨
        (1 < group.pids.length ∧ expanded) ∧ ∃ pid ∈ group.pids, selected = .child pid := by
  rw [TableGroup.kinds, List.map_cons, List.mem_cons]
  refine or_congr .rfl ?_
  by_cases hshown : 1 < group.pids.length ∧ expanded
  · simp [hshown, RowSelection.ofKind, eq_comm]
  · rw [if_neg (by simpa using hshown)]
    simp [hshown]

/-- What the rows before the group's, the group's and those after it select. -/
theorem GroupAt.mem_selections {rowIndex : ℤ} {group : TableGroup} {before after : List RowKind}
    (h : GroupAt lower processes st rowIndex group before after) (selected : RowSelection) :
    selected ∈ st.selections lower ↔ (selected ∈ before.map (RowSelection.ofKind lower) ∨
      selected = .group (lower group.processName) ∨
        (1 < group.pids.length ∧ st.expanded.contains (lower group.processName)) ∧
          ∃ pid ∈ group.pids, selected = .child pid) ∨
      selected ∈ after.map (RowSelection.ofKind lower) := by
  rw [selections_eq, h.kinds, List.map_append, List.map_append, List.mem_append, List.mem_append,
    mem_selections_kinds]

/-- A group that is opened or closed loses no selection. -/
theorem GroupAt.toggled (hlower : IgnoresAsciiCase lower) {rowIndex : ℤ} {group : TableGroup}
    {before after : List RowKind}
    (h : GroupAt lower processes st rowIndex group before after)
    (hsplit : ∀ expandedNames kinds, IsTable lower processes expandedNames .ascending kinds →
      (∀ name, name ≠ lower group.processName →
        expandedNames.contains name = st.expanded.contains name) →
      kinds = before ++ group.kinds (expandedNames.contains (lower group.processName)) ++ after) :
    Toggled lower processes st (st.toggleAndRebuild lower processes rowIndex) rowIndex := by
  obtain ⟨hexpanded, hselected⟩ := h.toggleRowExpanded
  obtain ⟨hcontains, hothers⟩ := contains_flipped st.expanded (lower group.processName)
  have hexpanded' : (st.toggleAndRebuild lower processes rowIndex).expanded =
      flipped st.expanded (lower group.processName) :=
    (expanded_rebuildRows lower _ processes).trans hexpanded
  have hselected' : (st.toggleAndRebuild lower processes rowIndex).selected = _ :=
    (selected_rebuildRows lower (st.toggleRowExpanded lower rowIndex) processes).trans hselected
  have hkinds := hsplit _ _ (isTable_rebuildRows (st.toggleRowExpanded lower rowIndex) processes
    hlower) (hexpanded ▸ hothers)
  rw [hexpanded, ← hexpanded'] at hkinds
  have h' : GroupAt lower processes (st.toggleAndRebuild lower processes rowIndex) rowIndex group
      before after := ⟨h.several, h.listed, hkinds, h.rowIndex⟩
  refine ⟨⟨group, before, after, h, h', hexpanded', hselected'⟩, fun hsome => ?_⟩
  obtain ⟨selected, hold, hmem⟩ := isSome_selectedRow_iff.mp hsome
  have hmem' := h'.mem_selections
  rw [h.mem_selections] at hmem
  rw [hexpanded', hcontains] at hmem'
  rw [isSome_selectedRow_iff, hselected', hold]
  by_cases hclosed : st.expanded.contains (lower group.processName) ∧
      ∃ pid ∈ group.pids, selected = .child pid
  · obtain ⟨hopen, pid, hpid, rfl⟩ := hclosed
    exact ⟨.group (lower group.processName), by simp [hopen, handedOver, hpid],
      (hmem' _).mpr (.inl (.inr (.inl rfl)))⟩
  · refine ⟨selected, ?_, (hmem' selected).mpr ?_⟩
    · split
      · next hopen =>
        rcases selected with _ | _ | pid
        · rfl
        · rfl
        · have hpid : pid ∉ group.pids := fun hpid => hclosed ⟨hopen, pid, hpid, rfl⟩
          simp [handedOver, hpid]
      · rfl
    · rcases hmem with (hbefore | hgroup | ⟨⟨-, hopen⟩, hchild⟩) | hafter
      · exact .inl (.inl hbefore)
      · exact .inl (.inr (.inl hgroup))
      · exact absurd ⟨hopen, hchild⟩ hclosed
      · exact .inr hafter

/-- The second double click on a row undoes the first. -/
theorem toggleAndRebuild_twice (hlower : IgnoresAsciiCase lower)
    (htable : IsTable lower processes st.expanded .ascending st.kinds)
    (hpids : (processes.map ProcessInfo.pid).Nodup) {rowIndex : ℤ} (h : st.Opens rowIndex) :
    Toggled lower processes st (st.toggleAndRebuild lower processes rowIndex) rowIndex ∧
      ((st.toggleAndRebuild lower processes rowIndex).toggleAndRebuild lower processes
        rowIndex).expanded = st.expanded ∧
      ((st.toggleAndRebuild lower processes rowIndex).toggleAndRebuild lower processes
        rowIndex).kinds = st.kinds := by
  obtain ⟨group, before, after, hgroup, hsplit⟩ := exists_groupAt htable hpids h
  have htoggled := hgroup.toggled hlower hsplit
  refine ⟨htoggled, ?_⟩
  obtain ⟨group', before', after', hgroup', hgroupAfter, hexpanded, -⟩ := htoggled.rows
  have htable' : IsTable lower processes (st.toggleAndRebuild lower processes rowIndex).expanded
      .ascending (st.toggleAndRebuild lower processes rowIndex).kinds := by
    rw [toggleAndRebuild, expanded_rebuildRows]
    exact isTable_rebuildRows _ processes hlower
  have hback : ((st.toggleAndRebuild lower processes rowIndex).toggleAndRebuild lower processes
      rowIndex).expanded = st.expanded := by
    rw [toggleAndRebuild, expanded_rebuildRows, hgroupAfter.toggleRowExpanded.1, hexpanded,
      flipped_flipped]
  have htwice := isTable_rebuildRows ((st.toggleAndRebuild lower processes
    rowIndex).toggleRowExpanded lower rowIndex) processes hlower
  rw [← expanded_rebuildRows lower _ processes, ← toggleAndRebuild, hback] at htwice
  exact ⟨hback, htwice.unique htable⟩

/-- In every run of the application, once the table is rebuilt from distinct processes: a double
click on any other row than that of a group with several processes opens and closes nothing. On
the row of such a group it shows or hides the rows of its processes and no others, keeps a
selection in the table, and a second one restores the table. -/
theorem toggle_opens_and_closes (hlower : IgnoresAsciiCase lower) {F : Type} [F32 F]
    (settings : AppSettings F) (parseF64 : Text → Option ℚ) (events : List Event)
    (hpids : (processes.map ProcessInfo.pid).Nodup) (rowIndex : ℤ)
    (hst : st = ((new settings).run lower parseF64 events).rebuildRows lower processes) :
    (¬ st.Opens rowIndex → st.toggleRowExpanded lower rowIndex = st) ∧
    (st.Opens rowIndex →
      Toggled lower processes st (st.toggleAndRebuild lower processes rowIndex) rowIndex ∧
      ((st.toggleAndRebuild lower processes rowIndex).toggleAndRebuild lower processes
        rowIndex).expanded = st.expanded ∧
      ((st.toggleAndRebuild lower processes rowIndex).toggleAndRebuild lower processes
        rowIndex).kinds = st.kinds) := by
  have htable : IsTable lower processes st.expanded .ascending st.kinds := by
    rw [hst, expanded_rebuildRows]
    exact isTable_rebuildRows _ processes hlower
  exact ⟨toggleRowExpanded_of_not_opens, toggleAndRebuild_twice hlower htable hpids⟩

theorem toggle_opens_and_closes_mixedCase : listedMixedCase.Opens 2 ∧
    (¬ listedMixedCase.Opens 2 →
      listedMixedCase.toggleRowExpanded toAsciiLowercase 2 = listedMixedCase) ∧
    (listedMixedCase.Opens 2 →
      Toggled toAsciiLowercase mixedCase listedMixedCase
        (listedMixedCase.toggleAndRebuild toAsciiLowercase mixedCase 2) 2 ∧
      ((listedMixedCase.toggleAndRebuild toAsciiLowercase mixedCase 2).toggleAndRebuild
        toAsciiLowercase mixedCase 2).expanded = listedMixedCase.expanded ∧
      ((listedMixedCase.toggleAndRebuild toAsciiLowercase mixedCase 2).toggleAndRebuild
        toAsciiLowercase mixedCase 2).kinds = listedMixedCase.kinds) :=
  ⟨⟨⟨"Code".toList, "Code".toList, [], [5, 7]⟩, by decide, false, by decide +kernel⟩,
    toggle_opens_and_closes ignoresAsciiCase_toAsciiLowercase _ (fun _ => none) [] (by decide) 2
      rfl⟩

end Toggle

end AppState

end FlowBrake.Ui
