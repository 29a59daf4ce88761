import Mathlib.Logic.Function.Basic
import FlowBrake.Lib.Transition
import FlowBrake.Ui.AppState.Step
import FlowBrake.Windows.IpHelper

/-! Whose rule a process is held to, while PIDs are given to one process after another. -/
namespace FlowBrake.Ui
open FlowBrake.Core FlowBrake.Windows Text

/-- A running process. No two processes have the same number. -/
structure Process extends ProcessDetails where
  number : ℕ
  deriving DecidableEq

/-- How a rule came to a PID: from an edit of the PID's own row, which listed the process under a
name, or as the rule of a name, which an edit of the name's group hands out too. -/
inductive Source
  | edit (name : Text)
  | template (name : Text)
  deriving DecidableEq

/-- The name that the rule was set for. -/
def Source.name : Source → Text
  | edit name | template name => name

/-- The last write of a PID's rule: how it came, what was written, and the process that had the
PID then. -/
structure Origin where
  source : Source
  rule : ProcessRule
  number : Option ℕ
  deriving DecidableEq

/-- The application among the processes of the machine. -/
structure World where
  app : AppState
  alive : UInt32 → Option Process := fun _ => none
  started : ℕ := 0
  origin : UInt32 → Option Origin := fun _ => none

/-- What happens in the machine. The table is refreshed from the processes that can be opened;
every other event of the application reads no process. -/
inductive WorldEvent
  | spawn (pid : UInt32) (details : ProcessDetails)
  | exit (pid : UInt32)
  | act (e : Event) (h : e.processes = none)
  | refresh (onTick : Bool) (runningPids : List UInt32) (opens : UInt32 → Bool)

namespace AppState
variable (lower : Text → Text) (parseF64 : Text → Option ℚ)

/-- How a rule that is set on a row comes to the row's PIDs. -/
def sourceOf : RowKind → Option Source
  | .global => none
  | .group processName _ _ _ _ => some (.template (lower processName))
  | .child processName _ _ _ => some (.edit (lower processName))

/-- The name and the rule that a listed process takes over. -/
def inheritedBy (nameRules : NameRules) (pid : UInt32) (process : ProcessInfo) :
    Option (Source × ProcessRule) :=
  if process.pid = pid then
    (nameRules[lower process.name]?).map fun rule => (.template (lower process.name), rule)
  else none

/-- The rule that an event writes to a PID. -/
def written (st : AppState) (e : Event) (pid : UInt32) : Option (Source × ProcessRule) :=
  match st.edited lower parseF64 e with
  | some (row, edit) =>
    if pid ∈ row.kind.pids then
      (sourceOf lower row.kind).map fun source => (source, edit.apply row.rule)
    else none
  | none =>
    if pid ∈ st.rules then none
    else (e.processes.getD []).findSome? (inheritedBy lower st.nameRules pid)

end AppState

namespace AppState
variable {lower : Text → Text} {parseF64 : Text → Option ℚ}

theorem inheritedBy_eq (nameRules : NameRules) (pid : UInt32) (process : ProcessInfo) :
    inheritedBy lower nameRules pid process =
      (templateFor lower nameRules pid process).map fun rule =>
        (.template (lower process.name), rule) := by
  unfold inheritedBy templateFor
  split <;> rfl

/-- The first process that has a rule to hand on is the one whose rule is taken over. -/
theorem findSome?_inheritedBy (nameRules : NameRules) (pid : UInt32)
    (processes : List ProcessInfo) :
    (processes.findSome? (inheritedBy lower nameRules pid)).map Prod.snd =
      processes.findSome? (templateFor lower nameRules pid) := by
  induction processes with
  | nil => rfl
  | cons process rest ih =>
    rw [List.findSome?_cons, List.findSome?_cons, inheritedBy_eq]
    cases templateFor lower nameRules pid process with
    | none => exact ih
    | some rule => rfl

theorem exists_sourceOf {kind : RowKind} {pid : UInt32} (h : pid ∈ kind.pids) :
    ∃ source, sourceOf lower kind = some source := by
  cases kind with
  | global => cases h
  | group processName displayName exePath pids expanded => exact ⟨_, rfl⟩
  | child processName displayName exePath pid => exact ⟨_, rfl⟩

/-- A written rule is the PID's rule, if it has one. -/
theorem getElem?_of_written {st : AppState} {e : Event} {pid : UInt32} {source : Source}
    {rule rule' : ProcessRule} (h : st.written lower parseF64 e pid = some (source, rule))
    (hrule : (st.step lower parseF64 e).rules[pid]? = some rule') : rule' = rule := by
  unfold written at h
  split at h
  · next row edit hedited =>
    split at h
    · next hpid =>
      obtain ⟨_, -, heq⟩ := Option.map_eq_some_iff.mp h
      cases heq
      rw [show (st.step lower parseF64 e).rules = _ from
        congrArg RuleSet.rules (ruleSet_of_edited hedited), RuleSet.getElem?_applyRuleToRow,
        if_pos hpid] at hrule
      split at hrule
      · exact (Option.some.inj hrule).symm
      · cases hrule
    · cases h
  · split at h
    · cases h
    · next hvacant =>
      cases hp : e.processes with
      | none => simp [hp] at h
      | some processes =>
        rw [hp, Option.getD_some] at h
        rw [show (st.step lower parseF64 e).rules = _ from
          congrArg RuleSet.rules (ruleSet_of_processes lower parseF64 st hp),
          getElem?_inheritNameRules, Std.ExtTreeMap.getElem?_eq_none hvacant, Option.none_or,
          ← findSome?_inheritedBy, h] at hrule
        exact (Option.some.inj hrule).symm

/-- A rule that is not written stays as it was saved. -/
theorem getElem?_of_not_written {st : AppState} {e : Event} {pid : UInt32}
    (h : st.written lower parseF64 e pid = none) :
    (st.step lower parseF64 e).rules[pid]?.map ProcessRule.persisted =
      st.rules[pid]?.map ProcessRule.persisted := by
  unfold written at h
  split at h
  · next row edit hedited =>
    split at h
    · next hpid =>
      obtain ⟨source, hsource⟩ := exists_sourceOf hpid
      rw [hsource] at h
      cases h
    · next hpid =>
      rw [show (st.step lower parseF64 e).rules = _ from
        congrArg RuleSet.rules (ruleSet_of_edited hedited), RuleSet.getElem?_applyRuleToRow,
        if_neg hpid]
      rfl
  · next hedited =>
    cases hp : e.processes with
    | none => exact (sameRules_of_edited_none hedited hp).rules pid
    | some processes =>
      rw [show (st.step lower parseF64 e).rules = _ from
        congrArg RuleSet.rules (ruleSet_of_processes lower parseF64 st hp),
        getElem?_inheritNameRules]
      split at h
      · next hmem =>
        obtain ⟨rule, hrule⟩ := Option.isSome_iff_exists.mp
          (Std.ExtTreeMap.mem_iff_isSome_getElem?.mp hmem)
        rw [hrule, Option.some_or]
      · next hvacant =>
        rw [hp, Option.getD_some] at h
        rw [Std.ExtTreeMap.getElem?_eq_none hvacant, Option.none_or, ← findSome?_inheritedBy, h]
        rfl

end AppState

namespace World
variable (lower : Text → Text) (parseF64 : Text → Option ℚ) (selfPid : UInt32)

def observe (w : World) (e : Event) : World :=
  { w with
    app := w.app.step lower parseF64 e
    origin := fun pid =>
      match w.app.written lower parseF64 e pid with
      | some (source, rule) => some ⟨source, rule, (w.alive pid).map Process.number⟩
      | none => w.origin pid }

/-- `process_details` for the processes that can be opened. -/
def details (w : World) (opens : UInt32 → Bool) (pid : UInt32) : Option ProcessDetails :=
  if opens pid then (w.alive pid).map Process.toProcessDetails else none

/-- `fetch_processes` -/
def fetchProcesses (w : World) (runningPids : List UInt32) (opens : UInt32 → Bool) :
    List ProcessInfo :=
  getNetworkProcesses lower selfPid runningPids (w.details opens) w.app.rules.keys

def step (w : World) : WorldEvent → World
  | .spawn pid details =>
    { w with
      alive := Function.update w.alive pid (some { details with number := w.started })
      started := w.started + 1 }
  | .exit pid => { w with alive := Function.update w.alive pid none }
  | .act e _ => w.observe lower parseF64 e
  | .refresh onTick runningPids opens =>
    let processes := w.fetchProcesses lower selfPid runningPids opens
    w.observe lower parseF64
      (if onTick then .refreshTableOnTick processes else .rebuildRows processes)

def run (w : World) (events : List WorldEvent) : World :=
  events.foldl (step lower parseF64 selfPid) w

/-- The application starts with its saved settings. -/
def start {F : Type} [F32 F] (settings : AppSettings F) : World where
  app := .new settings

/-- It is known of every rule how it came to its PID. -/
def Recorded (w : World) : Prop :=
  ∀ (pid : UInt32) (rule : ProcessRule), w.app.rules[pid]? = some rule →
    ∃ origin, w.origin pid = some origin ∧ origin.rule.persisted = rule.persisted

/-- Numbers of processes are not used again. -/
structure Numbered (w : World) : Prop where
  alive : ∀ pid process, w.alive pid = some process → process.number < w.started
  origin : ∀ pid origin number, w.origin pid = some origin → origin.number = some number →
    number < w.started

variable {lower parseF64 selfPid} {w : World}

theorem observe_origin (e : Event) (pid : UInt32) :
    (w.observe lower parseF64 e).origin pid =
      match w.app.written lower parseF64 e pid with
      | some (source, rule) => some ⟨source, rule, (w.alive pid).map Process.number⟩
      | none => w.origin pid :=
  rfl

theorem Recorded.observe (h : w.Recorded) (e : Event) : (w.observe lower parseF64 e).Recorded := by
  intro pid rule hrule
  rw [observe_origin]
  cases hwritten : w.app.written lower parseF64 e pid with
  | none =>
    have hsaved := AppState.getElem?_of_not_written hwritten
    rw [show (w.app.step lower parseF64 e).rules[pid]? = some rule from hrule] at hsaved
    obtain ⟨old, hold, hpersisted⟩ := Option.map_eq_some_iff.mp hsaved.symm
    obtain ⟨origin, horigin, hfrom⟩ := h pid old hold
    exact ⟨origin, horigin, hfrom.trans hpersisted⟩
  | some write => exact ⟨_, rfl, by rw [AppState.getElem?_of_written hwritten hrule]⟩

theorem alive_update {alive : UInt32 → Option Process} {pid pid' : UInt32}
    {slot : Option Process} {process : Process}
    (h : Function.update alive pid slot pid' = some process) :
    pid' = pid ∧ slot = some process ∨ pid' ≠ pid ∧ alive pid' = some process := by
  by_cases hpid : pid' = pid
  · subst hpid
    exact .inl ⟨rfl, by simpa using h⟩
  · exact .inr ⟨hpid, by simpa [hpid] using h⟩

theorem Numbered.observe (h : w.Numbered) (e : Event) : (w.observe lower parseF64 e).Numbered := by
  refine ⟨h.alive, fun pid origin number horigin hnumber => ?_⟩
  rw [observe_origin] at horigin
  split at horigin
  · cases horigin
    obtain ⟨process, hprocess, rfl⟩ := Option.map_eq_some_iff.mp hnumber
    exact h.alive pid process hprocess
  · exact h.origin pid origin number horigin hnumber

theorem Numbered.step (h : w.Numbered) (e : WorldEvent) :
    (w.step lower parseF64 selfPid e).Numbered := by
  cases e with
  | spawn pid details =>
    refine ⟨fun pid' process hprocess => ?_, fun pid' origin number horigin hnumber => ?_⟩
    · rcases alive_update hprocess with ⟨-, heq⟩ | ⟨-, hold⟩
      · cases heq
        exact Nat.lt_succ_self _
      · exact Nat.lt_succ_of_lt (h.alive pid' process hold)
    · exact Nat.lt_succ_of_lt (h.origin pid' origin number horigin hnumber)
  | exit pid =>
    refine ⟨fun pid' process hprocess => ?_, h.origin⟩
    rcases alive_update hprocess with ⟨-, heq⟩ | ⟨-, hold⟩
    · cases heq
    · exact h.alive pid' process hold
  | act e he => exact h.observe e
  | refresh onTick runningPids opens => exact h.observe _

theorem Recorded.step (h : w.Recorded) (e : WorldEvent) :
    (w.step lower parseF64 selfPid e).Recorded := by
  cases e with
  | spawn pid details => exact h
  | exit pid => exact h
  | act e he => exact h.observe e
  | refresh onTick runningPids opens => exact h.observe _

theorem Numbered.run (h : w.Numbered) (es : List WorldEvent) :
    (w.run lower parseF64 selfPid es).Numbered := by
  induction es generalizing w with
  | nil => exact h
  | cons e es ih => exact ih (h.step e)

theorem Recorded.run (h : w.Recorded) (es : List WorldEvent) :
    (w.run lower parseF64 selfPid es).Recorded := by
  induction es generalizing w with
  | nil => exact h
  | cons e es ih => exact ih (h.step e)

section Browser

end Browser

end World

end FlowBrake.Ui
