import FlowBrake.Core.Rate.Samples
import FlowBrake.Ui.AppState.Frame
import FlowBrake.Ui.AppState.Refresh

/-! The rates that are shown, against the bytes that the engine counted. -/
namespace FlowBrake.Ui
open FlowBrake.Core FlowBrake.Windows Text

namespace AppState

section History
variable {history : Std.ExtTreeMap UInt32 RollingAverage} {pid : UInt32} {samples : List ℚ}
  {sample : ℚ}

/-- The history of a PID is that of the samples; a PID without samples has none. -/
structure Records (history : Std.ExtTreeMap UInt32 RollingAverage) (pid : UInt32)
    (samples : List ℚ) : Prop where
  known : pid ∈ history ↔ samples ≠ []
  window : (history[pid]?.getD (.new 5)).window = 5
  shows : (history[pid]?.getD (.new 5)).Shows samples

theorem records_empty (pid : UInt32) : Records ∅ pid [] := by
  refine ⟨by simp, ?_, ?_⟩
  · simp [RollingAverage.new]
  · simpa using RollingAverage.shows_new 5

theorem getElem?_pushSample (pid pid' : UInt32) : (pushSample history pid sample)[pid']? =
    if pid = pid' then some ((history[pid]?.getD (.new 5)).push sample) else history[pid']? := by
  rw [pushSample, Std.ExtTreeMap.getElem?_insert]
  simp only [Std.compare_eq_iff_eq]

theorem Records.push (h : Records history pid samples) (hsample : 0 ≤ sample) :
    Records (pushSample history pid sample) pid (samples ++ [sample]) := by
  have hget := @getElem?_pushSample history sample pid pid
  rw [if_pos rfl] at hget
  refine ⟨?_, ?_, ?_⟩
  · rw [Std.ExtTreeMap.mem_iff_isSome_getElem?, hget]
    simp
  · rw [hget, Option.getD_some, RollingAverage.window_push, h.window]
  · rw [hget, Option.getD_some]
    exact h.shows.push hsample

theorem Records.of_getElem? {history' : Std.ExtTreeMap UInt32 RollingAverage}
    (h : Records history pid samples) (heq : history'[pid]? = history[pid]?) :
    Records history' pid samples := by
  refine ⟨?_, heq ▸ h.window, heq ▸ h.shows⟩
  rw [Std.ExtTreeMap.mem_iff_isSome_getElem?, heq, ← Std.ExtTreeMap.mem_iff_isSome_getElem?]
  exact h.known

/-- Samples of distinct PIDs go to their histories. -/
theorem Records.foldl {α : Type} {key : α → UInt32} {value : α → ℚ} {as : List α}
    (h : Records history pid samples) (hkeys : (as.map key).Nodup)
    (hvalues : ∀ a ∈ as, 0 ≤ value a) :
    Records (as.foldl (fun history a => pushSample history (key a) (value a)) history) pid
      (samples ++ ((as.find? fun a => key a = pid).map value).toList) := by
  induction as generalizing history samples with
  | nil => simpa using h
  | cons a as ih =>
    obtain ⟨ha, hkeys⟩ := List.nodup_cons.mp hkeys
    have hrest : ∀ a ∈ as, 0 ≤ value a := fun a ha => hvalues a (List.mem_cons_of_mem _ ha)
    rw [List.foldl_cons]
    by_cases hpid : key a = pid
    · subst hpid
      have hnone : as.find? (fun b => key b = key a) = none := by
        rw [List.find?_eq_none]
        intro b hb heq
        exact ha (List.mem_map.mpr ⟨b, hb, by simpa using heq⟩)
      have hpush := ih (h.push (hvalues a List.mem_cons_self)) hkeys hrest
      rw [hnone] at hpush
      rw [List.find?_cons_of_pos (by simp)]
      simpa using hpush
    · rw [List.find?_cons_of_neg (by simpa using hpid)]
      refine ih (h.of_getElem? ?_) hkeys hrest
      rw [getElem?_pushSample, if_neg hpid]

/-- The bytes that were counted of a PID, as one direction's samples. -/
def bytesOf (value : ByteCounters → ℕ) (counted : List ByteCounters) : List ℚ :=
  counted.map fun bytes => (value bytes : ℚ)

theorem find?_toList (perPid : Std.ExtTreeMap UInt32 ByteCounters) (pid : UInt32) :
    (perPid.toList.find? fun p => p.1 = pid) = perPid[pid]?.map (pid, ·) := by
  cases hfind : perPid.toList.find? fun p => p.1 = pid with
  | none =>
    cases hbytes : perPid[pid]? with
    | none => rfl
    | some bytes =>
      have hmem := Std.ExtTreeMap.mem_toList_iff_getElem?_eq_some.mpr hbytes
      have hne := List.find?_eq_none.mp hfind _ hmem
      simp at hne
  | some p =>
    obtain ⟨pid', bytes⟩ := p
    have hmem := Std.ExtTreeMap.mem_toList_iff_getElem?_eq_some.mp (List.mem_of_find?_eq_some hfind)
    obtain rfl : pid' = pid := by simpa using List.find?_some hfind
    rw [hmem]
    rfl

/-- The PIDs that the engine counted get what it counted. -/
theorem Records.seen {value : ByteCounters → ℕ} {counted : List ByteCounters}
    (h : Records history pid (bytesOf value counted))
    (perPid : Std.ExtTreeMap UInt32 ByteCounters) :
    Records (perPid.toList.foldl (fun history p => pushSample history p.1 (value p.2)) history) pid
      (bytesOf value (counted ++ perPid[pid]?.toList)) := by
  have hfold := @Records.foldl _ _ _ _ Prod.fst (fun p => (value p.2 : ℚ)) perPid.toList h (by
      rw [Std.ExtTreeMap.map_fst_toList_eq_keys]
      exact Std.ExtTreeMap.nodup_keys) fun _ _ => Nat.cast_nonneg _
  rw [find?_toList] at hfold
  rw [bytesOf, List.map_append]
  cases hbytes : perPid[pid]? with
  | none =>
    rw [hbytes] at hfold
    exact hfold
  | some bytes =>
    rw [hbytes] at hfold
    exact hfold

/-- The other PIDs that are known get a sample of zero. -/
theorem Records.idle (h : Records history pid samples) {idle : List UInt32} (hidle : idle.Nodup) :
    Records (idle.foldl (fun history pid => pushSample history pid 0) history) pid
      (samples ++ if pid ∈ idle then [0] else []) := by
  have hfold := @Records.foldl _ _ _ _ id (fun _ => 0) idle h (by simpa using hidle)
    fun _ _ => le_refl 0
  have hfind : ((idle.find? fun a => id a = pid).map fun _ => (0 : ℚ)).toList =
      if pid ∈ idle then [0] else [] := by
    cases hfind : idle.find? fun a => id a = pid with
    | none =>
      have hmem : pid ∉ idle := fun hmem => by
        simpa using List.find?_eq_none.mp hfind pid hmem
      rw [if_neg hmem]
      rfl
    | some a =>
      obtain rfl : a = pid := by simpa using List.find?_some hfind
      rw [if_pos (List.mem_of_find?_eq_some hfind)]
      rfl
  rw [hfind] at hfold
  exact hfold

end History

/-- A tick: what the engine counted since the one before, and the rules at its time. -/
structure Tick where
  snapshot : EngineSnapshot
  rules : RuleMap

namespace Tick

def knows (t : Tick) (pid : UInt32) : Bool := pid ∈ t.snapshot.perPid || pid ∈ t.rules

def counted (t : Tick) (pid : UInt32) : ByteCounters := t.snapshot.perPid[pid]?.getD {}

end Tick

/-- From the first tick that knows the PID on, what each tick counted of it. -/
def samplesOf (ticks : List Tick) (pid : UInt32) : List ByteCounters :=
  (ticks.dropWhile fun t => !t.knows pid).map (·.counted pid)

/-- The mean of the last five samples. -/
def recent (value : ByteCounters → ℕ) (counted : List ByteCounters) : ℚ :=
  mean ((bytesOf value counted).rtake 5)

/-- The rates shown for the samples of a PID, download first. -/
def shownOf (counted : List ByteCounters) : Option (ℚ × ℚ) :=
  if counted = [] then none
  else some (recent ByteCounters.download counted, recent ByteCounters.upload counted)

def globalSamples (value : EngineSnapshot → ℕ) (ticks : List Tick) : List ℚ :=
  ticks.map fun t => (value t.snapshot : ℚ)

/-- The machine's history and rate are those of the ticks. -/
structure MeasuredGlobal (value : EngineSnapshot → ℕ) (ticks : List Tick)
    (history : RollingAverage) (bps : ℚ) : Prop where
  window : history.window = 5
  shows : history.Shows (globalSamples value ticks)
  bps : bps = mean ((globalSamples value ticks).rtake 5)

/-- Every history and every rate is that of the ticks. -/
structure Measured (ticks : List Tick) (st : AppState) : Prop where
  download : ∀ pid, Records st.dlHistory pid (bytesOf ByteCounters.download (samplesOf ticks pid))
  upload : ∀ pid, Records st.ulHistory pid (bytesOf ByteCounters.upload (samplesOf ticks pid))
  speeds : ∀ pid : UInt32, st.speeds[pid]? = shownOf (samplesOf ticks pid)
  globalDownload :
    MeasuredGlobal EngineSnapshot.globalDownloadBytes ticks st.globalDlHistory st.globalDlBps
  globalUpload :
    MeasuredGlobal EngineSnapshot.globalUploadBytes ticks st.globalUlHistory st.globalUlBps

section Measure
variable {ticks : List Tick} {st : AppState} {snapshot : EngineSnapshot} {pid : UInt32}

theorem samplesOf_append (ticks : List Tick) (t : Tick) (pid : UInt32) :
    samplesOf (ticks ++ [t]) pid = samplesOf ticks pid ++
      if samplesOf ticks pid ≠ [] ∨ t.knows pid then [t.counted pid] else [] := by
  rw [samplesOf, List.dropWhile_append]
  by_cases hdrop : ticks.dropWhile (fun t => !t.knows pid) = []
  · have hnil : samplesOf ticks pid = [] := by rw [samplesOf, hdrop, List.map_nil]
    rw [hdrop, hnil]
    cases hknows : t.knows pid <;> simp [hknows]
  · have hne : samplesOf ticks pid ≠ [] := fun hnil => hdrop (List.map_eq_nil_iff.mp hnil)
    have hempty : (ticks.dropWhile fun t => !t.knows pid).isEmpty = false := by
      rwa [Bool.eq_false_iff, ne_eq, List.isEmpty_iff]
    rw [if_neg (by simp [hempty]), List.map_append, if_pos (Or.inl hne)]
    rfl

theorem bytesOf_eq_nil {value : ByteCounters → ℕ} {counted : List ByteCounters} :
    bytesOf value counted = [] ↔ counted = [] :=
  List.map_eq_nil_iff

/-- One direction's histories, after a tick has counted and the other known PIDs are idle. -/
theorem Records.measure {history : Std.ExtTreeMap UInt32 RollingAverage}
    {value : ByteCounters → ℕ} (hvalue : value {} = 0)
    (h : Records history pid (bytesOf value (samplesOf ticks pid))) (rules : RuleMap)
    {knownPids : Std.ExtTreeSet UInt32} (hknown : pid ∈ knownPids ↔
      pid ∈ snapshot.perPid ∨ samplesOf ticks pid ≠ [] ∨ pid ∈ rules) :
    Records ((knownPids.toList.filter (· ∉ snapshot.perPid)).foldl
      (fun history pid => pushSample history pid 0)
      (snapshot.perPid.toList.foldl (fun history p => pushSample history p.1 (value p.2)) history))
      pid (bytesOf value (samplesOf (ticks ++ [⟨snapshot, rules⟩]) pid)) := by
  have hnodup : (knownPids.toList.filter (· ∉ snapshot.perPid)).Nodup := by
    refine List.Nodup.filter _ ?_
    exact Std.ExtTreeSet.distinct_toList.imp fun hne heq => hne (Std.compare_eq_iff_eq.mpr heq)
  have hidle := (h.seen snapshot.perPid).idle hnodup
  have hmem : pid ∈ knownPids.toList.filter (· ∉ snapshot.perPid) ↔
      (samplesOf ticks pid ≠ [] ∨ pid ∈ rules) ∧ pid ∉ snapshot.perPid := by
    rw [List.mem_filter, Std.ExtTreeSet.mem_toList, hknown]
    simp only [decide_eq_true_eq]
    tauto
  rw [samplesOf_append]
  have hknows : (Tick.mk snapshot rules).knows pid = true ↔
      pid ∈ snapshot.perPid ∨ pid ∈ rules := by
    simp [Tick.knows]
  simp only [hknows]
  have hcounted : (Tick.mk snapshot rules).counted pid = snapshot.perPid[pid]?.getD {} := rfl
  rw [hcounted]
  cases hbytes : snapshot.perPid[pid]? with
  | none =>
    have hnot : pid ∉ snapshot.perPid := fun h => by
      rw [Std.ExtTreeMap.mem_iff_isSome_getElem?, hbytes] at h
      cases h
    rw [hbytes] at hidle
    by_cases hold : samplesOf ticks pid ≠ [] ∨ pid ∈ rules
    · rw [if_pos (hmem.mpr ⟨hold, hnot⟩)] at hidle
      rw [if_pos (by tauto)]
      simpa [bytesOf, hvalue] using hidle
    · rw [if_neg fun h => hold (hmem.mp h).1] at hidle
      rw [if_neg (by tauto)]
      simpa using hidle
  | some bytes =>
    have hin : pid ∈ snapshot.perPid := by
      rw [Std.ExtTreeMap.mem_iff_isSome_getElem?, hbytes]
      rfl
    rw [hbytes, if_neg fun h => (hmem.mp h).2 hin] at hidle
    rw [if_pos (by tauto)]
    simpa using hidle

theorem Records.averageOf_eq {history : Std.ExtTreeMap UInt32 RollingAverage}
    {value : ByteCounters → ℕ} {counted : List ByteCounters}
    (h : Records history pid (bytesOf value counted)) :
    averageOf history pid = recent value counted := by
  rw [averageOf, h.shows.average_eq, h.window, recent]

theorem getElem?_ofList_map {β : Type} (pids : Std.ExtTreeSet UInt32) (f : UInt32 → β)
    (pid : UInt32) : (Std.ExtTreeMap.ofList (pids.toList.map fun pid => (pid, f pid)) :
      Std.ExtTreeMap UInt32 β)[pid]? = if pid ∈ pids then some (f pid) else none := by
  have hdistinct : (pids.toList.map fun pid => (pid, f pid)).Pairwise
      (fun a b => ¬ compare a.1 b.1 = .eq) :=
    List.pairwise_map.mpr (Std.ExtTreeSet.distinct_toList (t := pids))
  split
  · next hmem =>
    exact Std.ExtTreeMap.getElem?_ofList_of_mem (k := pid) (by simp) hdistinct
      (List.mem_map.mpr ⟨pid, Std.ExtTreeSet.mem_toList.mpr hmem, rfl⟩)
  · next hmem =>
    refine Std.ExtTreeMap.getElem?_ofList_of_contains_eq_false ?_
    rw [← Bool.not_eq_true, List.contains_iff_mem, List.map_map]
    intro hin
    obtain ⟨pid', hpid', heq⟩ := List.mem_map.mp hin
    obtain rfl : pid' = pid := heq
    exact hmem (Std.ExtTreeSet.mem_toList.mp hpid')

theorem MeasuredGlobal.measure {value : EngineSnapshot → ℕ} {history : RollingAverage} {bps : ℚ}
    (h : MeasuredGlobal value ticks history bps) (snapshot : EngineSnapshot) (rules : RuleMap) :
    MeasuredGlobal value (ticks ++ [⟨snapshot, rules⟩]) (history.push (value snapshot))
      (history.push (value snapshot)).average := by
  have hshows := h.shows.push (Nat.cast_nonneg (value snapshot) : (0 : ℚ) ≤ value snapshot)
  have hsamples : globalSamples value (ticks ++ [⟨snapshot, rules⟩]) =
      globalSamples value ticks ++ [(value snapshot : ℚ)] := by
    rw [globalSamples, List.map_append]
    rfl
  refine ⟨h.window, hsamples ▸ hshows, ?_⟩
  rw [hshows.average_eq, RollingAverage.window_push, h.window, hsamples]

/-- The averages of a tick are those of the ticks so far. -/
theorem Measured.measure (h : Measured ticks st) (snapshot : EngineSnapshot) :
    Measured (ticks ++ [⟨snapshot, st.rules⟩]) (st.measure snapshot) := by
  have hseen {value : ByteCounters → ℕ} {history : Std.ExtTreeMap UInt32 RollingAverage}
      {pid : UInt32} (hrecords : Records history pid (bytesOf value (samplesOf ticks pid))) :
      pid ∈ snapshot.perPid.toList.foldl (fun history p => pushSample history p.1 (value p.2))
        history ↔ pid ∈ snapshot.perPid ∨ samplesOf ticks pid ≠ [] := by
    rw [(hrecords.seen snapshot.perPid).known, ne_eq, bytesOf_eq_nil,
      Std.ExtTreeMap.mem_iff_isSome_getElem?]
    cases snapshot.perPid[pid]? <;> simp
  set knownPids : Std.ExtTreeSet UInt32 := .ofList
    ((snapshot.perPid.toList.foldl (fun history p => pushSample history p.1 p.2.download)
        st.dlHistory).keys ++
      (snapshot.perPid.toList.foldl (fun history p => pushSample history p.1 p.2.upload)
        st.ulHistory).keys ++ st.rules.keys) with hknownPids
  have hknown (pid : UInt32) : pid ∈ knownPids ↔
      pid ∈ snapshot.perPid ∨ samplesOf ticks pid ≠ [] ∨ pid ∈ st.rules := by
    rw [hknownPids, Std.ExtTreeSet.mem_ofList, List.contains_iff_mem, List.mem_append,
      List.mem_append, Std.ExtTreeMap.mem_keys, Std.ExtTreeMap.mem_keys, Std.ExtTreeMap.mem_keys,
      hseen (h.download pid), hseen (h.upload pid)]
    tauto
  have hdownload (pid : UInt32) : Records (st.measure snapshot).dlHistory pid _ :=
    (h.download pid).measure rfl st.rules (hknown pid)
  have hupload (pid : UInt32) : Records (st.measure snapshot).ulHistory pid _ :=
    (h.upload pid).measure rfl st.rules (hknown pid)
  refine ⟨hdownload, hupload, fun pid => ?_, ?_, ?_⟩
  · change (Std.ExtTreeMap.ofList (knownPids.toList.map fun pid =>
      (pid, (averageOf (st.measure snapshot).dlHistory pid,
        averageOf (st.measure snapshot).ulHistory pid))) : Speeds)[pid]? = _
    rw [getElem?_ofList_map, (hdownload pid).averageOf_eq, (hupload pid).averageOf_eq, shownOf]
    have hsamples : pid ∈ knownPids ↔
        samplesOf (ticks ++ [⟨snapshot, st.rules⟩]) pid ≠ [] := by
      have hnew : (pid ∈ snapshot.perPid ∨ samplesOf ticks pid ≠ [] ∨ pid ∈ st.rules) ↔
          samplesOf ticks pid ≠ [] ∨ (Tick.mk snapshot st.rules).knows pid := by
        simp only [Tick.knows, Bool.or_eq_true, decide_eq_true_eq]
        tauto
      rw [hknown, hnew, samplesOf_append]
      by_cases hsample : samplesOf ticks pid ≠ [] ∨ (Tick.mk snapshot st.rules).knows pid
      · rw [if_pos hsample]
        simpa using hsample
      · rw [if_neg hsample, List.append_nil]
        exact ⟨fun h => absurd h hsample, Or.inl⟩
    by_cases hmem : pid ∈ knownPids
    · rw [if_pos hmem, if_neg (hsamples.mp hmem)]
    · rw [if_neg hmem, if_pos (not_not.mp fun hne => hmem (hsamples.mpr hne))]
  · exact h.globalDownload.measure snapshot st.rules
  · exact h.globalUpload.measure snapshot st.rules

end Measure

section Frame
variable {lower : Text → Text} {parseF64 : Text → Option ℚ} {st : AppState} {ticks : List Tick}

theorem Measured.of_measurements {st' : AppState} (h : Measured ticks st)
    (heq : st'.measurements = st.measurements) : Measured ticks st' := by
  injection heq with hdl hul hspeeds hglobalDl hglobalUl hdlBps hulBps
  exact ⟨hdl ▸ h.download, hul ▸ h.upload, hspeeds ▸ h.speeds,
    hglobalDl ▸ hdlBps ▸ h.globalDownload, hglobalUl ▸ hulBps ▸ h.globalUpload⟩

theorem measurements_applyNameRulesFrom (processes : List ProcessInfo) :
    (st.applyNameRulesFrom lower processes).measurements = st.measurements := by
  obtain ⟨_, _, heq⟩ := exists_applyNameRulesFrom lower st processes
  rw [heq]
  rfl

/-- The tick that an event is, with the rules at its time. -/
def tickOf (st : AppState) : Event → Option Tick
  | .tick snapshot => some ⟨snapshot, st.rules⟩
  | _ => none

/-- No other event than a tick measures. -/
theorem measurements_step {e : Event} (h : st.tickOf e = none) :
    (st.step lower parseF64 e).measurements = st.measurements := by
  cases hedits : e.edits with
  | true => exact congrArg Aside.measurements (aside_step hedits)
  | false =>
    cases e with
    | tick => cases h
    | rebuildRows processes =>
      obtain ⟨_, _, _, _, heq⟩ := exists_rebuildRows lower st processes
      rw [AppState.step, heq]
      rfl
    | refreshTableOnTick processes =>
      obtain ⟨_, _, _, _, heq⟩ := exists_refreshTableOnTick lower st processes
      rw [AppState.step, heq]
      rfl
    | toggleRowExpanded rowIndex =>
      obtain ⟨_, _, heq⟩ := st.exists_toggleRowExpanded lower rowIndex
      rw [AppState.step, heq]
      rfl
    | start started =>
      obtain ⟨_, heq⟩ := st.exists_start started
      rw [AppState.step, heq]
      rfl
    | restartEngine started =>
      obtain ⟨_, heq⟩ := st.exists_restartEngine started
      rw [AppState.step, heq]
      rfl
    | selectRow | clearSelection | setLimitEditing | setSpeedUnit | setIpv6Enabled | stop
    | engineExit => rfl
    | _ => cases hedits

/-- Only a tick measures. -/
theorem Measured.step (h : Measured ticks st) (e : Event) :
    Measured (ticks ++ (st.tickOf e).toList) (st.step lower parseF64 e) := by
  cases htick : st.tickOf e with
  | some t =>
    cases e with
    | tick snapshot =>
      obtain rfl : Tick.mk snapshot st.rules = t := Option.some.inj htick
      obtain ⟨_, _, _, heq⟩ := st.exists_tick snapshot
      refine (h.measure snapshot).of_measurements ?_
      rw [AppState.step, heq]
      rfl
    | _ => cases htick
  | none =>
    rw [Option.toList_none, List.append_nil]
    exact h.of_measurements (measurements_step htick)

/-- The ticks of a run. -/
def ticksOf (lower : Text → Text) (parseF64 : Text → Option ℚ) : AppState → List Event → List Tick
  | _, [] => []
  | st, e :: events =>
    (st.tickOf e).toList ++ ticksOf lower parseF64 (st.step lower parseF64 e) events

theorem Measured.run (h : Measured ticks st) (events : List Event) :
    Measured (ticks ++ ticksOf lower parseF64 st events) (st.run lower parseF64 events) := by
  induction events generalizing ticks st with
  | nil => simpa [ticksOf, AppState.run] using h
  | cons e events ih =>
    rw [ticksOf, ← List.append_assoc]
    exact ih (h.step e)

theorem measured_new {F : Type} [F32 F] (settings : AppSettings F) :
    Measured [] (new settings) where
  download := records_empty
  upload := records_empty
  speeds pid := by simp [new, samplesOf, shownOf]
  globalDownload := ⟨rfl, RollingAverage.shows_new 5, by simp [new, globalSamples, mean]⟩
  globalUpload := ⟨rfl, RollingAverage.shows_new 5, by simp [new, globalSamples, mean]⟩

end Frame

section Rows
variable {lower : Text → Text} {parseF64 : Text → Option ℚ} {st : AppState} {ticks : List Tick}

/-- What a row shows of the ticks, download first: the machine its own mean, and a row of processes
the sum of theirs. -/
def ratesOf (ticks : List Tick) : RowKind → ℚ × ℚ
  | .global => (mean ((globalSamples EngineSnapshot.globalDownloadBytes ticks).rtake 5),
      mean ((globalSamples EngineSnapshot.globalUploadBytes ticks).rtake 5))
  | kind => ((kind.pids.map fun pid => recent ByteCounters.download (samplesOf ticks pid)).sum,
      (kind.pids.map fun pid => recent ByteCounters.upload (samplesOf ticks pid)).sum)

theorem Measured.speedOf_eq (h : Measured ticks st) (pid : UInt32) : speedOf st.speeds pid =
    (recent ByteCounters.download (samplesOf ticks pid),
      recent ByteCounters.upload (samplesOf ticks pid)) := by
  rw [speedOf, h.speeds, shownOf]
  split
  · next hnil =>
    rw [hnil]
    simp [recent, bytesOf, mean]
  · rfl

theorem Measured.shownSpeeds_eq (h : Measured ticks st) (kind : RowKind) :
    st.shownSpeeds kind = ratesOf ticks kind := by
  cases kind with
  | global => exact Prod.ext h.globalDownload.bps h.globalUpload.bps
  | group => simp only [shownSpeeds, RowKind.speeds, sumSpeed, h.speedOf_eq, ratesOf, RowKind.pids]
  | child => simp [shownSpeeds, RowKind.speeds, h.speedOf_eq, ratesOf, RowKind.pids]

/-- The machine has the first row, and no other. -/
def Headed (kinds : List RowKind) : Prop :=
  kinds = [] ∨ ∃ rest, kinds = .global :: rest ∧ RowKind.global ∉ rest

theorem headed_run (hlower : IgnoresAsciiCase lower) {F : Type} [F32 F] (settings : AppSettings F)
    (events : List Event) :
    Headed (((new settings).run lower parseF64 events).rows.map ProcessRow.kind) := by
  rcases @builtFrom_run lower parseF64 hlower (new settings) events with
    ⟨_, _, _, _, _, htable, -⟩ | hkinds
  · exact .inr (exists_rest_of_isTable htable)
  · exact .inl (congrArg Prod.fst hkinds)

/-- A refresh of the rates shows them in every row. -/
theorem rates_refreshRowSpeeds (h : Headed (st.rows.map ProcessRow.kind)) :
    ∀ row ∈ st.refreshRowSpeeds.rows, (row.dlBps, row.ulBps) = st.shownSpeeds row.kind := by
  rcases h with hnil | ⟨rest, hkinds, hglobal⟩
  · have hrows : st.rows = [] := List.map_eq_nil_iff.mp hnil
    rw [refreshRowSpeeds]
    simp [hrows]
  · rw [refreshRowSpeeds_rows hkinds hglobal]
    intro row hrow
    obtain ⟨shown, -, rfl⟩ := List.mem_map.mp hrow
    rfl

theorem shownSpeeds_of_measurements {st st' : AppState} (h : st'.measurements = st.measurements)
    (kind : RowKind) : st'.shownSpeeds kind = st.shownSpeeds kind := by
  injection h with _ _ hspeeds _ _ hdlBps hulBps
  cases kind <;> simp only [shownSpeeds, hspeeds, hdlBps, hulBps]

theorem rates_rebuildRowsFrom (hlower : IgnoresAsciiCase lower) (st : AppState)
    (processes : List ProcessInfo) : ∀ row ∈ (st.rebuildRowsFrom lower processes).rows,
      (row.dlBps, row.ulBps) = st.shownSpeeds row.kind := by
  obtain ⟨kinds, -, hrows⟩ := rebuildRowsFrom_rows hlower st processes
  rw [hrows]
  intro row hrow
  obtain ⟨kind, -, rfl⟩ := List.mem_map.mp hrow
  rfl

/-- After a refresh of the table, every row shows the rates as they are. -/
theorem rates_of_processes (hlower : IgnoresAsciiCase lower)
    (h : Headed (st.rows.map ProcessRow.kind)) {e : Event} (he : e.processes.isSome) :
    ∀ row ∈ (st.step lower parseF64 e).rows, (row.dlBps, row.ulBps) = st.shownSpeeds row.kind := by
  have hnames (processes : List ProcessInfo) (kind : RowKind) :
      (st.applyNameRulesFrom lower processes).shownSpeeds kind = st.shownSpeeds kind :=
    shownSpeeds_of_measurements (measurements_applyNameRulesFrom processes) kind
  cases e with
  | rebuildRows processes =>
    intro row hrow
    rw [← hnames processes]
    exact rates_rebuildRowsFrom hlower (st.applyNameRulesFrom lower processes) processes row hrow
  | refreshTableOnTick processes =>
    intro row hrow
    rw [← hnames processes]
    simp only [AppState.step, refreshTableOnTick] at hrow
    split at hrow
    · exact rates_rebuildRowsFrom hlower _ processes row hrow
    · refine @rates_refreshRowSpeeds (st.applyNameRulesFrom lower processes) ?_ row hrow
      rwa [show (st.applyNameRulesFrom lower processes).rows = st.rows from
        congrArg Prod.fst (table_applyNameRulesFrom processes)]
  | _ => cases he

/-- In every run, after each refresh of the table: every row shows, for each of its processes, the
mean of the bytes that the last five ticks counted, where the first tick counts that found traffic
of the process or a rule for it; the machine's row shows the mean over the last five ticks. -/
theorem rates_shown (hlower : IgnoresAsciiCase lower) {F : Type} [F32 F] (settings : AppSettings F)
    (parseF64 : Text → Option ℚ) (events : List Event) (e : Event) (he : e.processes.isSome) :
    ∀ row ∈ ((new settings).run lower parseF64 (events ++ [e])).rows,
      (row.dlBps, row.ulBps) =
        ratesOf (ticksOf lower parseF64 (new settings) events) row.kind := by
  have hmeasured := @Measured.run lower parseF64 _ _ (measured_new settings) events
  rw [List.nil_append] at hmeasured
  intro row hrow
  rw [AppState.run, List.foldl_append] at hrow
  rw [← hmeasured.shownSpeeds_eq]
  exact rates_of_processes hlower (headed_run hlower settings events) he row hrow

def countedEvents : List Event :=
  [.tick { perPid := (∅ : Std.ExtTreeMap UInt32 ByteCounters).insert 7 ⟨1000, 200⟩
           globalDownloadBytes := 1000 }, .tick {}]

def countedSettings : AppSettings WholeF32 := AppSettings.load toAsciiLowercase none

/-- A process that was counted once in two ticks is shown with half of what was counted. -/
theorem rates_shown_counted :
    ((new countedSettings).run toAsciiLowercase (fun _ => none)
        (countedEvents ++ [.rebuildRows mixedCase])).rows.map (fun row => (row.dlBps, row.ulBps)) =
      [(500, 0), (0, 0), (500, 100)] ∧
    ∀ row ∈ ((new countedSettings).run toAsciiLowercase (fun _ => none)
        (countedEvents ++ [.rebuildRows mixedCase])).rows,
      (row.dlBps, row.ulBps) =
        ratesOf (ticksOf toAsciiLowercase (fun _ => none) (new countedSettings) countedEvents)
          row.kind :=
  ⟨by decide +kernel, rates_shown ignoresAsciiCase_toAsciiLowercase countedSettings (fun _ => none)
    countedEvents (.rebuildRows mixedCase) rfl⟩

end Rows

end AppState

end FlowBrake.Ui
