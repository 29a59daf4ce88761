import FlowBrake.Core.Input.Validation
import FlowBrake.Ui.AppState.Adaptive
import FlowBrake.Ui.AppState.Frame
import FlowBrake.Ui.AppState.Refresh
import FlowBrake.Ui.Settings.Stability

/-! What the settings file holds of a session, whenever the session ends. -/
namespace FlowBrake.Ui
open FlowBrake.Core FlowBrake.Windows Text

section Persisted
variable {F : Type} [F32 F] {lower : Text → Text}

/-- The settings without adapted rates. -/
def AppSettings.persisted (s : AppSettings F) : AppSettings F :=
  { s with
    globalRule := s.globalRule.persisted
    nameRules := s.nameRules.map fun _ rule => rule.persisted }

theorem nameRuleLines_persisted (nameRules : NameRules) :
    nameRuleLines (nameRules.map fun _ rule => rule.persisted) = nameRuleLines nameRules := by
  rw [nameRuleLines, Std.ExtTreeMap.toList_map, List.flatMap_map]
  rfl

/-- Adapted rates are not written. -/
theorem toContents_persisted (s : AppSettings F) : s.persisted.toContents = s.toContents := by
  rw [AppSettings.toContents, AppSettings.toLines, AppSettings.persisted]
  simp only [nameRuleLines_persisted]
  rfl

/-- The lower-cased name of a process that the file can hold. -/
structure Savable (lower : Text → Text) (n : Text) : Prop where
  name : IsName lower n
  key : IsKey n
  element : IsElement n
  notGlobal : n ≠ globalScope

end Persisted

/-- Every process that the event reads has a name that the file can hold. -/
def Event.Savable (lower : Text → Text) (e : Event) : Prop :=
  ∀ processes ∈ e.processes, ∀ process ∈ processes, Ui.Savable lower (lower process.name)

namespace FieldEdit

/-- The value that is set is one that may be typed. -/
def Bounded : FieldEdit → Prop
  | downloadLoss value | uploadLoss value => ∀ basisPoints ∈ value, basisPoints ≤ 10000
  | downloadDelay value | uploadDelay value => ∀ ms ∈ value, ms ≤ maxDelayMs
  | _ => True

theorem inRange_apply {rule : ProcessRule} (h : InRange rule.persisted) {edit : FieldEdit}
    (hedit : edit.Bounded) : InRange (edit.apply rule).persisted := by
  obtain ⟨hdownloadLoss, huploadLoss, hdownloadDelay, huploadDelay, -⟩ := h
  cases edit with
  | downloadLoss => exact ⟨hedit, huploadLoss, hdownloadDelay, huploadDelay, rfl⟩
  | uploadLoss => exact ⟨hdownloadLoss, hedit, hdownloadDelay, huploadDelay, rfl⟩
  | downloadDelay => exact ⟨hdownloadLoss, huploadLoss, hedit, huploadDelay, rfl⟩
  | uploadDelay => exact ⟨hdownloadLoss, huploadLoss, hdownloadDelay, hedit, rfl⟩
  | adaptive value =>
    cases value <;> exact ⟨hdownloadLoss, huploadLoss, hdownloadDelay, huploadDelay, rfl⟩
  | _ => exact ⟨hdownloadLoss, huploadLoss, hdownloadDelay, huploadDelay, rfl⟩

end FieldEdit

namespace AppState

section Step
variable {lower : Text → Text} {parseF64 : Text → Option ℚ} {st : AppState}

theorem le_of_parseLossPercent {text : Text} {value : UInt16}
    (h : parseLossPercent text = .ok (some value)) : value ≤ 10000 :=
  UInt16.le_iff_toNat_le.mpr (parseLossPercent_eq_some_iff.mp h).le

/-- No edit sets a value that may not be typed. -/
theorem bounded_of_edited {e : Event} {row : ProcessRow} {edit : FieldEdit}
    (h : st.edited lower parseF64 e = some (row, edit)) : edit.Bounded := by
  have hbool (field : Text) (value : Bool) (hfield : FieldEdit.ofBool field value = some edit) :
      edit.Bounded := by
    unfold FieldEdit.ofBool at hfield
    split at hfield
    · cases hfield; trivial
    · split at hfield
      · cases hfield; trivial
      · split at hfield
        · cases hfield; trivial
        · split at hfield
          · cases hfield; trivial
          · cases hfield
  have hlimit (kibps : UInt32) (direction : Direction) :
      (FieldEdit.limit kibps direction).Bounded := by
    cases direction <;> trivial
  cases e with
  | editBool | editSelectedBool =>
    simp only [edited, Option.bind_eq_bind, Option.bind_eq_some_iff, Option.pure_def,
      Option.some.injEq, Prod.mk.injEq] at h
    obtain ⟨_, -, edit', hfield, -, rfl⟩ := h
    exact hbool _ _ hfield
  | editRowLimit | editSelectedLimit =>
    simp only [edited, Option.bind_eq_bind, Option.bind_eq_some_iff, Option.pure_def,
      Option.some.injEq, Prod.mk.injEq] at h
    obtain ⟨_, -, kibps, -, direction, -, -, rfl⟩ := h
    exact hlimit kibps direction
  | editSelectedLoss direction text =>
    simp only [edited, Option.bind_eq_bind, Option.bind_eq_some_iff, Option.pure_def,
      Option.some.injEq, Prod.mk.injEq, toOption_eq_some_iff] at h
    obtain ⟨_, -, direction, -, value, hvalue, -, rfl⟩ := h
    have hle : ∀ basisPoints ∈ value, basisPoints ≤ 10000 := by
      intro basisPoints hmem
      obtain rfl := Option.mem_def.mp hmem
      exact le_of_parseLossPercent hvalue
    cases direction <;> exact hle
  | editSelectedDelay direction text =>
    simp only [edited, Option.bind_eq_bind, Option.bind_eq_some_iff, Option.pure_def,
      Option.some.injEq, Prod.mk.injEq, toOption_eq_some_iff] at h
    obtain ⟨_, -, direction, -, value, hvalue, -, rfl⟩ := h
    have hle : ∀ ms ∈ value, ms ≤ maxDelayMs := by
      intro ms hmem
      obtain rfl := Option.mem_def.mp hmem
      exact le_of_parseDelayMs hvalue
    cases direction <;> exact hle
  | _ => cases h

/-- A rule is saved under a name that is already there, or under that of a group's row. -/
theorem getElem?_nameRules_step {e : Event} {n : Text} {rule : ProcessRule}
    (h : (st.step lower parseF64 e).nameRules[n]? = some rule) :
    st.nameRules[n]? = some rule ∨ rule.hasAnyRule ∧ ∃ row ∈ st.rows,
      ∃ processName displayName exePath pids expanded,
        row.kind = .group processName displayName exePath pids expanded ∧
        lower processName = n := by
  cases hedit : st.edited lower parseF64 e with
  | some p =>
    obtain ⟨row, edit⟩ := p
    have hnames := congrArg RuleSet.nameRules (ruleSet_of_edited hedit)
    have hmem := mem_rows_of_edited hedit
    change (st.step lower parseF64 e).nameRules = _ at hnames
    rw [hnames] at h
    cases hkind : row.kind with
    | global | child =>
      rw [hkind] at h
      exact .inl h
    | group processName displayName exePath pids expanded =>
      rw [hkind] at h
      simp only [RuleSet.applyRuleToRow] at h
      split at h
      · next hany =>
        rw [Std.ExtTreeMap.getElem?_insert] at h
        split at h
        · next hname =>
          obtain rfl := Option.some.inj h
          exact .inr ⟨hany, row, hmem, _, _, _, _, _, hkind, Std.compare_eq_iff_eq.mp hname⟩
        · exact .inl h
      · rw [Std.ExtTreeMap.getElem?_erase] at h
        split at h
        · cases h
        · exact .inl h
  | none =>
    cases hprocesses : e.processes with
    | some processes =>
      have hnames := congrArg RuleSet.nameRules (ruleSet_of_processes lower parseF64 st hprocesses)
      exact .inl ((congrArg (fun rules : NameRules => rules[n]?) hnames).symm.trans h)
    | none =>
      rw [(sameRules_of_edited_none hedit hprocesses).nameRules] at h
      exact .inl h

/-- A group is open if it was, or if it is that of a row. -/
theorem mem_expanded_step {e : Event} {n : Text} (h : n ∈ (st.step lower parseF64 e).expanded) :
    n ∈ st.expanded ∨ ∃ row ∈ st.rows, ∃ processName displayName exePath pids expanded,
      row.kind = .group processName displayName exePath pids expanded ∧
        lower processName = n := by
  cases hedits : e.edits with
  | true =>
    have hexpanded : (st.step lower parseF64 e).expanded = st.expanded :=
      congrArg Aside.expanded (aside_step hedits)
    exact .inl (hexpanded ▸ h)
  | false =>
    cases e with
    | rebuildRows processes =>
      obtain ⟨_, _, _, _, heq⟩ := exists_rebuildRows lower st processes
      rw [step, heq] at h
      exact .inl h
    | refreshTableOnTick processes =>
      obtain ⟨_, _, _, _, heq⟩ := exists_refreshTableOnTick lower st processes
      rw [step, heq] at h
      exact .inl h
    | toggleRowExpanded rowIndex =>
      simp only [step, toggleRowExpanded] at h
      split at h
      · next processName displayName exePath pids expanded hkind =>
        obtain ⟨row, hrow, hkind⟩ := Option.map_eq_some_iff.mp hkind
        split at h
        · exact .inl h
        · split at h
          · exact .inl (Std.ExtTreeSet.mem_of_mem_erase h)
          · rcases Std.ExtTreeSet.mem_insert.mp h with hname | hmem
            · exact .inr ⟨row, mem_rows_of_rowAt hrow, _, _, _, _, _, hkind,
                Std.compare_eq_iff_eq.mp hname⟩
            · exact .inl hmem
      · exact .inl h
    | tick snapshot =>
      obtain ⟨_, _, _, heq⟩ := st.exists_tick snapshot
      rw [step, heq] at h
      exact .inl h
    | start started =>
      obtain ⟨_, heq⟩ := st.exists_start started
      rw [step, heq] at h
      exact .inl h
    | restartEngine started =>
      obtain ⟨_, heq⟩ := st.exists_restartEngine started
      rw [step, heq] at h
      exact .inl h
    | selectRow | clearSelection | setLimitEditing | setSpeedUnit | setIpv6Enabled | stop
    | engineExit => exact .inl h
    | _ => cases hedits

variable {P : ProcessRule → Prop}

/-- What holds of all rules keeps holding, if it holds of a default rule and does not hang on the
adapted rates. -/
theorem Everywhere.step_of_persisted (h : Everywhere P st) (hdefault : P {})
    (hpersisted : ∀ rule rule', rule'.persisted = rule.persisted → P rule → P rule') {e : Event}
    (hedit : ∀ row edit, st.edited lower parseF64 e = some (row, edit) → P row.rule →
      P (edit.apply row.rule)) : Everywhere P (st.step lower parseF64 e) := by
  cases hedited : st.edited lower parseF64 e with
  | some p =>
    obtain ⟨row, edit⟩ := p
    obtain ⟨st', hstep, hkept⟩ := step_of_edited hedited
    have hrule := hedit row edit hedited (h.2 row (mem_rows_of_edited hedited)).1
    have hst' : Everywhere P st' := h.of_kept hkept
    rw [hstep]
    refine ⟨?_, by rw [rows_applyRuleToRow]; exact hst'.2⟩
    rw [ruleSet_applyRuleToRow]
    exact hst'.1.applyRuleToRow row.kind hrule
  | none =>
    cases e with
    | rebuildRows processes => exact h.refresh hdefault rfl
    | refreshTableOnTick processes => exact h.refresh hdefault rfl
    | tick snapshot =>
      refine h.tick (fun rule rule' direction measuredBps hrule _ hadjust => ?_) snapshot
      exact hpersisted rule rule' (persisted_of_adjust hadjust) hrule
    | stop => exact h.stop fun rule hrule => hpersisted rule rule.persisted rfl hrule
    | start started =>
      obtain ⟨_, heq⟩ := st.exists_start started
      rw [AppState.step, heq]
      exact h
    | restartEngine started =>
      obtain ⟨_, heq⟩ := st.exists_restartEngine started
      rw [AppState.step, heq]
      exact h
    | engineExit => exact h
    | _ => exact h.of_kept (kept_of_edited_none hedited rfl)

/-- The loss rates and delays of the rule may be typed. -/
def Typable (rule : ProcessRule) : Prop := InRange rule.persisted

theorem typable_default : Typable {} := by constructor <;> simp [ProcessRule.persisted]

theorem Everywhere.typable_step (h : Everywhere Typable st) (e : Event) :
    Everywhere Typable (st.step lower parseF64 e) := by
  refine h.step_of_persisted typable_default (fun rule rule' heq hrule => ?_)
    fun row edit hedited hrow => FieldEdit.inRange_apply hrow (bounded_of_edited hedited)
  rw [Typable, heq]
  exact hrule

end Step

section Run
variable {lower : Text → Text} {parseF64 : Text → Option ℚ} {F : Type} [F32 F]

/-- The lower-cased name of a process that one of the events reads. -/
def Listed (lower : Text → Text) (events : List Event) (n : Text) : Prop :=
  ∃ e ∈ events, ∃ processes, e.processes = some processes ∧
    ∃ process ∈ processes, lower process.name = n

theorem Listed.mono {events events' : List Event} {n : Text} (h : Listed lower events n)
    (hsub : events ⊆ events') : Listed lower events' n := by
  obtain ⟨e, he, hlisted⟩ := h
  exact ⟨e, hsub he, hlisted⟩

/-- Groups are named after listed processes. -/
theorem listed_of_mem_rows (hcase : IgnoresAsciiCase lower) (settings : AppSettings F)
    {events : List Event} {row : ProcessRow}
    (hrow : row ∈ ((new settings).run lower parseF64 events).rows)
    {processName displayName exePath : Text} {pids : List UInt32} {expanded : Bool}
    (hkind : row.kind = .group processName displayName exePath pids expanded) :
    Listed lower events (lower processName) := by
  rcases @builtFrom_run lower parseF64 hcase (new settings) events with
    ⟨e, he, processes, hprocesses, expandedNames, htable, -⟩ | hkinds
  · have hmem := List.mem_map_of_mem (f := ProcessRow.kind) hrow
    rw [hkind] at hmem
    have hgroup := ((htable.mem_iff ⟨processName, displayName, exePath, pids⟩ expanded).mp hmem).1
    obtain ⟨first, hfirst, -⟩ := Option.map_eq_some_iff.mp hgroup
    have hnamed := List.mem_of_head? hfirst
    rw [named, List.mem_filter, decide_eq_true_eq] at hnamed
    exact ⟨e, he, processes, hprocesses, first, hnamed.1, hnamed.2⟩
  · have hnil : ((new settings).run lower parseF64 events).rows = [] :=
      List.map_eq_nil_iff.mp (congrArg Prod.fst hkinds)
    rw [hnil] at hrow
    cases hrow

/-- Every name with a saved rule was loaded, or is that of a listed process. -/
theorem mem_nameRules_run (hcase : IgnoresAsciiCase lower) (settings : AppSettings F)
    {events : List Event} {n : Text}
    (h : n ∈ ((new settings).run lower parseF64 events).nameRules) :
    n ∈ settings.nameRules ∨ Listed lower events n := by
  induction events using List.reverseRecOn with
  | nil => exact .inl h
  | append_singleton events e ih =>
    rw [run, List.foldl_append] at h
    obtain ⟨rule, hrule⟩ :=
      Option.isSome_iff_exists.mp (Std.ExtTreeMap.mem_iff_isSome_getElem?.mp h)
    have hsub : events ⊆ events ++ [e] := List.subset_append_left _ _
    rcases getElem?_nameRules_step hrule with hold | ⟨-, row, hrow, _, _, _, _, _, hkind, rfl⟩
    · exact (ih (Std.ExtTreeMap.mem_iff_isSome_getElem?.mpr (hold ▸ rfl))).imp_right (·.mono hsub)
    · exact .inr ((listed_of_mem_rows hcase settings hrow hkind).mono hsub)

theorem mem_expanded_run (hcase : IgnoresAsciiCase lower) (settings : AppSettings F)
    {events : List Event} {n : Text}
    (h : n ∈ ((new settings).run lower parseF64 events).expanded) :
    n ∈ settings.expanded ∨ Listed lower events n := by
  induction events using List.reverseRecOn with
  | nil => exact .inl h
  | append_singleton events e ih =>
    rw [run, List.foldl_append] at h
    have hsub : events ⊆ events ++ [e] := List.subset_append_left _ _
    rcases mem_expanded_step h with hold | ⟨row, hrow, _, _, _, _, _, hkind, rfl⟩
    · exact (ih hold).imp_right (·.mono hsub)
    · exact .inr ((listed_of_mem_rows hcase settings hrow hkind).mono hsub)

theorem hasAnyRule_nameRules_run (settings : AppSettings F)
    (hsettings : ∀ (n : Text) (rule : ProcessRule),
      settings.nameRules[n]? = some rule → rule.hasAnyRule)
    {events : List Event} {n : Text} {rule : ProcessRule}
    (h : ((new settings).run lower parseF64 events).nameRules[n]? = some rule) :
    rule.hasAnyRule := by
  induction events using List.reverseRecOn with
  | nil => exact hsettings n rule h
  | append_singleton events e ih =>
    rw [run, List.foldl_append] at h
    rcases getElem?_nameRules_step h with hold | ⟨hany, -⟩
    · exact ih hold
    · exact hany

theorem typable_run (settings : AppSettings F) (hglobal : InRange settings.globalRule)
    (hrules : ∀ (n : Text) (rule : ProcessRule), settings.nameRules[n]? = some rule →
      InRange rule) (events : List Event) :
    Everywhere Typable ((new settings).run lower parseF64 events) := by
  have hpersisted {rule : ProcessRule} (h : InRange rule) : Typable rule := by
    have hrule := h.unadjusted
    rw [Typable, show rule.persisted = rule from hrule.symm]
    exact h
  have hnew : Everywhere Typable (new settings) := by
    refine ⟨⟨⟨hpersisted hglobal, fun pid rule hrule => ?_⟩, fun n rule hrule =>
      hpersisted (hrules n rule hrule)⟩, by simp [AllRows, new]⟩
    change (∅ : RuleMap)[pid]? = some rule at hrule
    simp at hrule
  exact List.foldlRecOn (motive := Everywhere Typable) _ _ hnew fun _ hst e _ => hst.typable_step e

/-- Whenever the session ends, the file can hold its settings. -/
theorem storable_run (hcase : IgnoresAsciiCase lower) {settings : AppSettings F}
    (hsettings : settings.Storable lower) {events : List Event}
    (hevents : ∀ e ∈ events, e.Savable lower) {saved : AppSettings F}
    (hglobal : saved.globalRule = ((new settings).run lower parseF64 events).globalRule)
    (hnames : saved.nameRules = ((new settings).run lower parseF64 events).nameRules)
    (hexpanded : saved.expanded = ((new settings).run lower parseF64 events).expanded)
    (hwidth : F32.lt saved.windowWidth (minWindowWidth F) = false ∧
      F32.lt (maxWindowSide F) saved.windowWidth = false)
    (hheight : F32.lt saved.windowHeight (minWindowHeight F) = false ∧
      F32.lt (maxWindowSide F) saved.windowHeight = false) :
    saved.persisted.Storable lower := by
  have htypable := @typable_run lower parseF64 F _ settings hsettings.globalRule
    (fun n rule hrule => (hsettings.rules n rule hrule).2) events
  have hlisted {n : Text} (h : Listed lower events n) : Savable lower n := by
    obtain ⟨e, he, processes, hprocesses, process, hmem, rfl⟩ := h
    exact hevents e he processes hprocesses process hmem
  refine ⟨hwidth, hheight, ?_, fun n hn => ?_, fun n rule hrule => ?_, fun n hn => ?_⟩
  · change InRange saved.globalRule.persisted
    rw [hglobal]
    exact htypable.1.globalRule
  · have hmem : n ∈ saved.nameRules := (Std.ExtTreeMap.mem_map).mp hn
    rw [hnames] at hmem
    rcases mem_nameRules_run hcase settings hmem with hold | hnew
    · exact hsettings.names n hold
    · exact ⟨(hlisted hnew).name, (hlisted hnew).key, (hlisted hnew).notGlobal⟩
  · change (saved.nameRules.map fun _ rule => rule.persisted)[n]? = some rule at hrule
    rw [Std.ExtTreeMap.getElem?_map, Option.map_eq_some_iff] at hrule
    obtain ⟨rule, hrule, rfl⟩ := hrule
    rw [hnames] at hrule
    have hany := hasAnyRule_nameRules_run settings
      (fun n rule hrule => (hsettings.rules n rule hrule).1) hrule
    exact ⟨hany, htypable.1.nameRules n rule hrule⟩
  · change n ∈ saved.expanded at hn
    rw [hexpanded] at hn
    rcases mem_expanded_run hcase settings hn with hold | hnew
    · exact hsettings.expanded n hold
    · exact ⟨(hlisted hnew).name, (hlisted hnew).element⟩

end Run

end AppState

end FlowBrake.Ui
