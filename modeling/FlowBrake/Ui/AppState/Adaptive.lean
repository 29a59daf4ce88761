import FlowBrake.Lib.Transition
import FlowBrake.Ui.AppState.Step
import FlowBrake.Ui.Settings.RoundTrip

/-! The rate that adaptive mode sets, against the limit that the user sets. -/
namespace FlowBrake.Ui
open FlowBrake.Core FlowBrake.Windows Text

/-- In each direction with a target, the rule holds its packets to the target or less. -/
def WithinTarget (rule : ProcessRule) : Prop :=
  ∀ direction target effective, rule.targetBps direction = some target →
    rule.effectiveBps direction = some effective → effective ≤ target

/-- The adapted rate is no higher than the limit; a limit of zero is none. -/
def RateFits (adjusted : ℚ) (kbps : UInt32) : Prop := 0 < kbps → adjusted ≤ kbps.toNat * 1024

instance (adjusted : ℚ) (kbps : UInt32) : Decidable (RateFits adjusted kbps) :=
  inferInstanceAs (Decidable (_ → _))

theorem effective_le_iff {adjusted target : ℚ} (ht : 0 < target) :
    (if adjusted > 0 then adjusted else target) ≤ target ↔ adjusted ≤ target := by
  split
  · exact Iff.rfl
  · next hadjusted =>
    have hle : adjusted ≤ target := (not_lt.mp hadjusted).trans ht.le
    exact iff_of_true (le_refl target) hle

theorem target_pos {kbps : UInt32} (h : 0 < kbps) : (0 : ℚ) < kbps.toNat * 1024 := by
  have hnat : 0 < kbps.toNat := UInt32.lt_iff_toNat_lt.mp h
  positivity

theorem target_pos_of_targetBps {rule : ProcessRule} {direction : Direction} {target : ℚ}
    (h : rule.targetBps direction = some target) : 0 < target := by
  cases direction <;>
    simp only [ProcessRule.targetBps, Option.ite_none_right_eq_some, Bool.and_eq_true,
      decide_eq_true_eq, Option.some.injEq] at h <;>
    exact h.2 ▸ target_pos h.1.2

theorem effectiveBps_of_targetBps {rule : ProcessRule} {direction : Direction} {target : ℚ}
    (h : rule.targetBps direction = some target) : rule.effectiveBps direction =
      some (if rule.adaptive then
        if AppState.adjusted rule direction > 0 then AppState.adjusted rule direction else target
      else target) := by
  unfold ProcessRule.effectiveBps
  rw [h]
  cases rule.adaptive <;> cases direction <;> rfl

/-- Only an adapted rate above the target gets a rule over it. -/
theorem withinTarget_iff_adjusted (rule : ProcessRule) : WithinTarget rule ↔
    ∀ direction target, rule.targetBps direction = some target → rule.adaptive →
      AppState.adjusted rule direction ≤ target := by
  constructor
  · intro h direction target htarget hadaptive
    have heffective := effectiveBps_of_targetBps htarget
    rw [if_pos hadaptive] at heffective
    have hle := h direction target _ htarget heffective
    exact (effective_le_iff (target_pos_of_targetBps htarget)).mp hle
  · intro h direction target effective htarget heffective
    rw [effectiveBps_of_targetBps htarget, Option.some.injEq] at heffective
    subst heffective
    split
    · next hadaptive =>
      have hle := h direction target htarget hadaptive
      exact (effective_le_iff (target_pos_of_targetBps htarget)).mpr hle
    · exact le_refl target

theorem withinTarget_iff (rule : ProcessRule) : WithinTarget rule ↔ (rule.adaptive →
    (rule.limitDownload → RateFits rule.adjustedDlBps rule.downloadKbps) ∧
      (rule.limitUpload → RateFits rule.adjustedUlBps rule.uploadKbps)) := by
  have hdl : ∀ target, rule.targetBps .download = some target ↔
      (rule.limitDownload ∧ 0 < rule.downloadKbps) ∧
        (rule.downloadKbps.toNat : ℚ) * 1024 = target := by
    simp [ProcessRule.targetBps]
  have hul : ∀ target, rule.targetBps .upload = some target ↔
      (rule.limitUpload ∧ 0 < rule.uploadKbps) ∧
        (rule.uploadKbps.toNat : ℚ) * 1024 = target := by
    simp [ProcessRule.targetBps]
  rw [withinTarget_iff_adjusted]
  constructor
  · intro h hadaptive
    constructor
    · exact fun hlimit hkbps => h .download _ ((hdl _).mpr ⟨⟨hlimit, hkbps⟩, rfl⟩) hadaptive
    · exact fun hlimit hkbps => h .upload _ ((hul _).mpr ⟨⟨hlimit, hkbps⟩, rfl⟩) hadaptive
  · intro h direction target htarget hadaptive
    cases direction with
    | download =>
      obtain ⟨⟨hlimit, hkbps⟩, rfl⟩ := (hdl target).mp htarget
      exact (h hadaptive).1 hlimit hkbps
    | upload =>
      obtain ⟨⟨hlimit, hkbps⟩, rfl⟩ := (hul target).mp htarget
      exact (h hadaptive).2 hlimit hkbps

/-- A rule that was not adapted yet. -/
theorem withinTarget_of_persisted (rule : ProcessRule) : WithinTarget rule.persisted := by
  rw [withinTarget_iff]
  intro _
  exact ⟨fun _ hkbps => (target_pos hkbps).le, fun _ hkbps => (target_pos hkbps).le⟩

namespace FieldEdit

/-- The edit leaves no adapted rate above a limit in force. -/
def Fits (rule : ProcessRule) : FieldEdit → Prop
  | limitDownload value =>
    value → rule.adaptive → RateFits rule.adjustedDlBps rule.downloadKbps
  | limitUpload value =>
    value → rule.adaptive → RateFits rule.adjustedUlBps rule.uploadKbps
  | downloadKbps value =>
    rule.limitDownload → rule.adaptive → RateFits rule.adjustedDlBps value
  | uploadKbps value =>
    rule.limitUpload → rule.adaptive → RateFits rule.adjustedUlBps value
  | adaptive value =>
    value → (rule.limitDownload → RateFits rule.adjustedDlBps rule.downloadKbps) ∧
      (rule.limitUpload → RateFits rule.adjustedUlBps rule.uploadKbps)
  | _ => True

theorem withinTarget_apply_iff {rule : ProcessRule} (h : WithinTarget rule) (edit : FieldEdit) :
    WithinTarget (edit.apply rule) ↔ edit.Fits rule := by
  rw [withinTarget_iff] at h ⊢
  cases edit with
  | adaptive value => cases value <;> simp [apply, Fits]
  | _ => simp only [apply, Fits]; grind

end FieldEdit

namespace AppState

theorem withinTarget_of_adjust {rule rule' : ProcessRule} {direction : Direction}
    {measuredBps : ℚ} (h : WithinTarget rule)
    (hadjust : adjust rule direction measuredBps = some rule') : WithinTarget rule' := by
  obtain ⟨target, htarget, rfl⟩ := Option.map_eq_some_iff.mp hadjust
  have hsame : ∀ d, (setAdjusted rule (computeAdaptiveRate (adjusted rule direction) measuredBps
      target) direction).targetBps d = rule.targetBps d := by
    intro d
    cases direction <;> cases d <;> rfl
  have hadaptive : (setAdjusted rule (computeAdaptiveRate (adjusted rule direction) measuredBps
      target) direction).adaptive = rule.adaptive := by
    cases direction <;> rfl
  rw [withinTarget_iff_adjusted] at h ⊢
  intro d target' htarget' hadaptive'
  rw [hsame] at htarget'
  rw [hadaptive] at hadaptive'
  have hle := h d target' htarget' hadaptive'
  by_cases hd : d = direction
  · subst hd
    cases htarget.symm.trans htarget'
    have hrate := computeAdaptiveRate_le measuredBps hle (target_pos_of_targetBps htarget)
    cases d <;> exact hrate
  · cases direction <;> cases d <;> first | exact absurd rfl hd | exact hle

section All
variable {lower : Text → Text} {parseF64 : Text → Option ℚ} {P : ProcessRule → Prop}

/-- The global rule and the rules of all PIDs have the property. -/
structure RuleSet.InForce (P : ProcessRule → Prop) (s : RuleSet) : Prop where
  globalRule : P s.globalRule
  rules : ∀ (pid : UInt32) (rule : ProcessRule), s.rules[pid]? = some rule → P rule

/-- The rules that are saved under names have it as well. -/
structure RuleSet.All (P : ProcessRule → Prop) (s : RuleSet) : Prop extends s.InForce P where
  nameRules : ∀ (name : Text) (rule : ProcessRule), s.nameRules[name]? = some rule → P rule

/-- The same for every row, which has a PID if it is not the machine's. -/
def AllRows (P : ProcessRule → Prop) (rows : List ProcessRow) : Prop :=
  ∀ row ∈ rows, P row.rule ∧ (row.kind = .global ∨ row.kind.pids ≠ [])

theorem RuleSet.All.applyRuleToRow {s : RuleSet} (h : s.All P) (kind : RowKind)
    {rule : ProcessRule} (hrule : P rule) : (s.applyRuleToRow lower kind rule).All P where
  globalRule := by
    cases kind with
    | global => exact hrule
    | group | child => exact h.globalRule
  rules := by
    intro pid rule' hpid
    rw [RuleSet.getElem?_applyRuleToRow] at hpid
    split at hpid
    · split at hpid
      · exact Option.some.inj hpid ▸ hrule
      · cases hpid
    · exact h.rules pid rule' hpid
  nameRules := by
    intro name rule' hname
    cases kind with
    | global | child => exact h.nameRules name rule' hname
    | group processName displayName exePath pids expanded =>
      simp only [RuleSet.applyRuleToRow] at hname
      split at hname
      · rw [Std.ExtTreeMap.getElem?_insert] at hname
        split at hname
        · exact Option.some.inj hname ▸ hrule
        · exact h.nameRules name rule' hname
      · rw [Std.ExtTreeMap.getElem?_erase] at hname
        split at hname
        · cases hname
        · exact h.nameRules name rule' hname

/-- What is written to a row is found there, unless it is no rule at all. -/
theorem RuleSet.InForce.of_applyRuleToRow {s : RuleSet} {kind : RowKind} {rule : ProcessRule}
    (h : (s.applyRuleToRow lower kind rule).InForce P) (hpids : kind = .global ∨ kind.pids ≠ [])
    (hrule : rule.hasAnyRule) : P rule := by
  rcases hpids with rfl | hpids
  · exact h.globalRule
  · obtain ⟨pid, hpid⟩ := List.exists_mem_of_ne_nil _ hpids
    refine h.rules pid rule ?_
    rw [RuleSet.getElem?_applyRuleToRow, if_pos hpid, if_pos hrule]

theorem RuleSet.All.inherit {s : RuleSet} (h : s.All P) (processes : List ProcessInfo) :
    { s with rules := (inheritNameRules lower s.rules s.nameRules processes).1 : RuleSet }.All P
    where
  globalRule := h.globalRule
  rules := by
    intro pid rule hpid
    rw [getElem?_inheritNameRules, Option.or_eq_some_iff] at hpid
    rcases hpid with hpid | ⟨-, hpid⟩
    · exact h.rules pid rule hpid
    · obtain ⟨process, -, htemplate⟩ := List.exists_of_findSome?_eq_some hpid
      unfold templateFor at htemplate
      split at htemplate
      · exact h.nameRules _ rule htemplate
      · cases htemplate
  nameRules := h.nameRules

theorem allRows_refreshRowSpeeds {st : AppState} (h : AllRows P st.rows) :
    AllRows P st.refreshRowSpeeds.rows := by
  unfold refreshRowSpeeds
  split
  · exact h
  · next global rest hrows =>
    intro row hrow
    rw [hrows] at h
    rcases List.mem_cons.mp hrow with rfl | hrow
    · exact h global List.mem_cons_self
    · obtain ⟨shown, hshown, rfl⟩ := List.mem_map.mp hrow
      have hold := h shown (List.mem_cons_of_mem _ hshown)
      split <;> exact hold

/-- The table is built from the rules. -/
theorem allRows_rebuildRowsFrom {st : AppState} (h : st.ruleSet.All P) (hdefault : P {})
    (processes : List ProcessInfo) : AllRows P (st.rebuildRowsFrom lower processes).rows :=
  allRows_refreshRowSpeeds fun _ hrow =>
    mem_buildProcessRows h.globalRule hdefault h.rules hrow

/-- The user's rules and those that the rows show have the property. -/
def Everywhere (P : ProcessRule → Prop) (st : AppState) : Prop :=
  st.ruleSet.All P ∧ AllRows P st.rows

variable {st : AppState}

theorem Everywhere.of_kept {st' : AppState} (h : Everywhere P st) (hkept : st'.kept = st.kept) :
    Everywhere P st' := by
  rw [Everywhere, ruleSet_of_kept hkept, rows_of_kept hkept]
  exact h

theorem rows_applyNameRulesFrom (processes : List ProcessInfo) :
    (st.applyNameRulesFrom lower processes).rows = st.rows :=
  congrArg Prod.fst (table_applyNameRulesFrom processes)

theorem Everywhere.refresh (h : Everywhere P st) (hdefault : P {}) {e : Event}
    {processes : List ProcessInfo} (he : e.processes = some processes) :
    Everywhere P (st.step lower parseF64 e) := by
  have hinherit : (st.applyNameRulesFrom lower processes).ruleSet.All P := by
    rw [ruleSet_applyNameRulesFrom]
    exact h.1.inherit processes
  constructor
  · rw [ruleSet_of_processes lower parseF64 st he]
    exact h.1.inherit processes
  · cases e <;> cases he
    · exact allRows_rebuildRowsFrom hinherit hdefault processes
    · simp only [step, refreshTableOnTick]
      split
      · exact allRows_rebuildRowsFrom hinherit hdefault processes
      · apply allRows_refreshRowSpeeds
        rw [rows_applyNameRulesFrom]
        exact h.2

theorem adaptive_of_adjust {rule rule' : ProcessRule} {direction : Direction} {measuredBps : ℚ}
    (h : adjust rule direction measuredBps = some rule') : rule'.adaptive = rule.adaptive := by
  have hadaptive := congrArg ProcessRule.adaptive (persisted_of_adjust h)
  exact hadaptive

theorem adaptive_adjustGlobal (direction : Direction) (measuredBps : ℚ) :
    (st.adjustGlobal direction measuredBps).globalRule.adaptive = st.globalRule.adaptive := by
  unfold AppState.adjustGlobal
  split
  · rfl
  · next rule' hadjust => exact adaptive_of_adjust hadjust

theorem any_adaptive_adjustPid (pid pid' : UInt32) (direction : Direction) (measuredBps : ℚ) :
    (st.adjustPid pid direction measuredBps).rules[pid']?.any (·.adaptive) =
      st.rules[pid']?.any (·.adaptive) := by
  have hpersisted (rule : Option ProcessRule) :
      (rule.map ProcessRule.persisted).any (·.adaptive) = rule.any (·.adaptive) := by
    cases rule <;> rfl
  rw [← hpersisted, (sameRules_adjustPid pid direction measuredBps).rules, hpersisted]

theorem Everywhere.adjustGlobal (h : Everywhere P st) (hadaptive : st.globalRule.adaptive)
    (hadjust : ∀ rule rule' direction measuredBps, P rule → rule.adaptive →
      adjust rule direction measuredBps = some rule' → P rule')
    (direction : Direction) (measuredBps : ℚ) :
    Everywhere P (st.adjustGlobal direction measuredBps) := by
  unfold AppState.adjustGlobal
  split
  · exact h
  · next rule hrule =>
    exact ⟨⟨⟨hadjust _ rule _ _ h.1.globalRule hadaptive hrule, h.1.rules⟩, h.1.nameRules⟩, h.2⟩

theorem Everywhere.adjustPid (h : Everywhere P st) {pid : UInt32}
    (hadaptive : st.rules[pid]?.any (·.adaptive))
    (hadjust : ∀ rule rule' direction measuredBps, P rule → rule.adaptive →
      adjust rule direction measuredBps = some rule' → P rule')
    (direction : Direction) (measuredBps : ℚ) :
    Everywhere P (st.adjustPid pid direction measuredBps) := by
  unfold AppState.adjustPid
  split
  · exact h
  · next rule' hrule =>
    obtain ⟨rule, hrule, hrule'⟩ := Option.bind_eq_some_iff.mp hrule
    rw [hrule] at hadaptive
    refine ⟨⟨⟨h.1.globalRule, fun pid' rule'' hpid' => ?_⟩, h.1.nameRules⟩, h.2⟩
    change (st.rules.insert pid rule')[pid']? = some rule'' at hpid'
    rw [Std.ExtTreeMap.getElem?_insert] at hpid'
    split at hpid'
    · cases hpid'
      exact hadjust rule rule' _ _ (h.1.rules pid rule hrule) hadaptive hrule'
    · exact h.1.rules pid' rule'' hpid'

/-- The feedback of a tick adapts only the rules that are adaptive. -/
theorem Everywhere.tick (h : Everywhere P st)
    (hadjust : ∀ rule rule' direction measuredBps, P rule → rule.adaptive →
      adjust rule direction measuredBps = some rule' → P rule') (snapshot : EngineSnapshot) :
    Everywhere P (st.tick snapshot).1 := by
  have hmeasure : Everywhere P (st.measure snapshot) := h
  unfold AppState.tick
  dsimp only
  split
  · unfold runAdaptiveFeedback
    dsimp only
    refine List.foldlRecOn _ _ ?_ fun st hst pid _ => ?_
    · split
      · next hadaptive =>
        refine (hmeasure.adjustGlobal hadaptive hadjust _ _).adjustGlobal ?_ hadjust _ _
        rwa [adaptive_adjustGlobal]
      · exact hmeasure
    · split
      · next hadaptive =>
        refine (hst.adjustPid hadaptive hadjust _ _).adjustPid ?_ hadjust _ _
        rwa [any_adaptive_adjustPid]
      · exact hst
  · exact hmeasure

theorem Everywhere.pushAllRules (h : Everywhere P st) : Everywhere P st.pushAllRules := by
  rw [AppState.pushAllRules,
    foldl_send _ fun p : UInt32 × ProcessRule => .updateRule p.1 (runtimeRule p.2)]
  exact h

theorem Everywhere.stop (h : Everywhere P st) (hpersisted : ∀ rule, P rule → P rule.persisted) :
    Everywhere P st.stop := by
  refine ⟨⟨⟨hpersisted _ h.1.globalRule, fun pid rule hrule => ?_⟩, h.1.nameRules⟩, h.2⟩
  change (st.rules.map fun _ rule => rule.persisted)[pid]? = some rule at hrule
  rw [Std.ExtTreeMap.getElem?_map, Option.map_eq_some_iff] at hrule
  obtain ⟨rule, hrule, rfl⟩ := hrule
  exact hpersisted rule (h.1.rules pid rule hrule)

theorem rows_applyRuleToRow (st : AppState) (kind : RowKind) (rule : ProcessRule) :
    (st.applyRuleToRow lower kind rule).rows = st.rows :=
  congrArg Prod.fst (table_applyRuleToRow st kind rule)

/-- What holds of all rules keeps holding, if it holds of the rules that are edited, of those that
are adapted and of those without an adapted rate. -/
theorem Everywhere.step (h : Everywhere P st) (hpersisted : ∀ rule : ProcessRule, P rule.persisted)
    (hadjust : ∀ rule rule' direction measuredBps, P rule → rule.adaptive →
      adjust rule direction measuredBps = some rule' → P rule') {e : Event}
    (hedit : ∀ row edit, st.edited lower parseF64 e = some (row, edit) → P row.rule →
      P (edit.apply row.rule)) : Everywhere P (st.step lower parseF64 e) := by
  cases hedited : st.edited lower parseF64 e with
  | some p =>
    obtain ⟨row, edit⟩ := p
    obtain ⟨st', hstep, hkept⟩ := step_of_edited hedited
    have hrow := (h.2 row (mem_rows_of_edited hedited)).1
    have hrule := hedit row edit hedited hrow
    have hst' : Everywhere P st' := h.of_kept hkept
    rw [hstep]
    constructor
    · rw [ruleSet_applyRuleToRow]
      exact hst'.1.applyRuleToRow row.kind hrule
    · rw [rows_applyRuleToRow]
      exact hst'.2
  | none =>
    cases e with
    | rebuildRows processes => exact h.refresh (hpersisted {}) rfl
    | refreshTableOnTick processes => exact h.refresh (hpersisted {}) rfl
    | tick snapshot => exact h.tick hadjust snapshot
    | stop => exact h.stop fun rule _ => hpersisted rule
    | start started => exact h.pushAllRules
    | restartEngine started =>
      simp only [AppState.step, restartEngine]
      split
      · exact @Everywhere.pushAllRules _ { st with engine := _ } h
      · exact h
    | engineExit => exact h
    | _ => exact h.of_kept (kept_of_edited_none hedited rfl)

variable (lower) in
/-- Rules are read without an adapted rate. -/
theorem everywhere_new {F : Type} [F32 F] (hpersisted : ∀ rule : ProcessRule, P rule.persisted)
    (contents : Option Text) :
    Everywhere P (.new (AppSettings.load lower contents : AppSettings F)) := by
  have hparsed (get : Text → Option Text) : P (ruleOfFields get) :=
    hpersisted (ruleOfFields get)
  have hrules (pid : UInt32) (rule : ProcessRule) (hrule : (∅ : RuleMap)[pid]? = some rule) :
      P rule := by
    simp at hrule
  have hrows : AllRows P (AppState.new (AppSettings.load lower contents : AppSettings F)).rows := by
    simp [AllRows, AppState.new]
  cases contents with
  | none =>
    refine ⟨⟨⟨hpersisted {}, hrules⟩, fun name rule hrule => ?_⟩, hrows⟩
    change (∅ : NameRules)[name]? = some rule at hrule
    simp at hrule
  | some contents =>
    refine ⟨⟨⟨?_, hrules⟩, fun name rule hrule => ?_⟩, hrows⟩
    · change P (Reading.globalRule _)
      rw [globalRule_eq (foldl_readLine_globalRule _ _)]
      exact hparsed _
    · change (Reading.nameRules _)[name]? = some rule at hrule
      rw [getElem?_nameRules] at hrule
      split at hrule
      · obtain ⟨hrule, -⟩ := Option.filter_eq_some_iff.mp hrule
        exact Option.some.inj hrule ▸ hparsed _
      · cases hrule

end All

section WithinTargets
variable {lower : Text → Text} {parseF64 : Text → Option ℚ} {st : AppState}

/-- No rule in force lets a packet through faster than its limit. -/
def WithinTargets (st : AppState) : Prop := st.ruleSet.InForce WithinTarget

variable (lower parseF64) in
/-- An edit of a limit, or of a switch that puts one in force, finds no higher adapted rate in the
row. -/
def Fits (st : AppState) (e : Event) : Prop :=
  ∀ row edit, st.edited lower parseF64 e = some (row, edit) → edit.Fits row.rule

theorem withinTarget_of_not_hasAnyRule {rule : ProcessRule} (h : ¬ rule.hasAnyRule) :
    WithinTarget rule := by
  rw [withinTarget_iff]
  intro hadaptive
  exact absurd (by simp [ProcessRule.hasAnyRule, hadaptive]) h

/-- A step that gets to rules within their targets fits. -/
theorem fits_of_step (h : Everywhere WithinTarget st) {e : Event}
    (hstep : WithinTargets (st.step lower parseF64 e)) : Fits lower parseF64 st e := by
  intro row edit hedited
  obtain ⟨hrow, hpids⟩ := h.2 row (mem_rows_of_edited hedited)
  have hset := ruleSet_of_edited hedited
  rw [← edit.withinTarget_apply_iff hrow]
  by_cases hrule : (edit.apply row.rule).hasAnyRule
  · have hafter : (st.ruleSet.applyRuleToRow lower row.kind (edit.apply row.rule)).InForce
        WithinTarget := hset ▸ hstep
    exact hafter.of_applyRuleToRow hpids hrule
  · exact withinTarget_of_not_hasAnyRule hrule

/-- A step that fits keeps every rule within its target. -/
theorem everywhere_step (h : Everywhere WithinTarget st) {e : Event}
    (hfits : Fits lower parseF64 st e) : Everywhere WithinTarget (st.step lower parseF64 e) :=
  h.step withinTarget_of_persisted (fun _ _ _ _ hrule _ => withinTarget_of_adjust hrule)
    fun row edit hedited hrow => (edit.withinTarget_apply_iff hrow).mpr (hfits row edit hedited)

/-- From the start of the application, no rule in force is ever faster than its limit, exactly if
every edit of a limit, and of a switch that puts one in force, finds no higher adapted rate. -/
theorem withinTargets_run_iff {F : Type} [F32 F] (lower : Text → Text)
    (parseF64 : Text → Option ℚ) (contents : Option Text) (events : List Event) :
    (∀ es, es <+: events → WithinTargets
      ((AppState.new (AppSettings.load lower contents : AppSettings F)).run lower parseF64 es)) ↔
    ∀ es e, es ++ [e] <+: events → Fits lower parseF64
      ((AppState.new (AppSettings.load lower contents : AppSettings F)).run lower parseF64 es) e :=
  Transition.forall_prefix_iff_of_invariant (f := step lower parseF64)
    (I := Everywhere WithinTarget) (fun _ h => h.1.toInForce) (fun _ _ h => fits_of_step h)
    (fun _ _ h => everywhere_step h)
    (everywhere_new lower withinTarget_of_persisted contents) events

section Halved

/-- The machine is limited adaptively, and after a tick its limit is halved. -/
def halvedEvents : List Event :=
  [.setSpeedUnit .bytes, .rebuildRows [], .editBool 0 "limit_dl".toList true,
    .rebuildRows [], .editRowLimit 0 "dl".toList "1000".toList 0,
    .rebuildRows [], .editBool 0 "adaptive".toList true,
    .tick { running := true }, .rebuildRows [],
    .editRowLimit 0 "dl".toList "500".toList 0]

def halved : AppState :=
  (AppState.new (AppSettings.load toAsciiLowercase none : AppSettings WholeF32)).run
    toAsciiLowercase (fun _ => none) halvedEvents

theorem halved_rates : halved.globalRule.targetBps .download = some 512000 ∧
    halved.globalRule.effectiveBps .download = some 1024000 := by
  decide +kernel

/-- The old rate outlives the new limit. -/
theorem not_withinTargets_halved : ¬ WithinTargets
    ((AppState.new (AppSettings.load toAsciiLowercase none : AppSettings WholeF32)).run
      toAsciiLowercase (fun _ => none) halvedEvents) := by
  intro h
  obtain ⟨htarget, heffective⟩ := halved_rates
  have hle := h.globalRule .download 512000 1024000 htarget heffective
  norm_num at hle

end Halved

end WithinTargets

end AppState

end FlowBrake.Ui
