import FlowBrake.Windows.Process

/-! The processes that a refresh of the table reads, one refresh after another. -/
namespace FlowBrake.Windows
open FlowBrake.Core Text

/-- The `filter_map` of `get_network_processes`, over the hash set's PIDs in some order. -/
def listDetails (api : ProcessApi) :
    List UInt32 → ProcessMetadataCache → List ProcessInfo × ProcessMetadataCache
  | [], cache => ([], cache)
  | pid :: pids, cache =>
    let (details, cache) := processDetails api pid cache
    let (processes, cache) := listDetails api pids cache
    ((details.map fun d =>
      { pid, name := d.name, displayName := d.displayName, exePath := d.exePath :
        ProcessInfo }).toList ++ processes, cache)

/-- The PIDs that are looked up. -/
def candidatePids (selfPid : UInt32) (runningPids activeRulePids : List UInt32) :
    Std.ExtTreeSet UInt32 :=
  (Std.ExtTreeSet.ofList (runningPids ++ activeRulePids.filter (· > 0))).erase selfPid

/-- One call of `get_network_processes`, with the system's answers. -/
structure ProcessQuery where
  selfPid : UInt32
  enumProcesses : PidCalls
  /-- What the system runs at each call of `EnumProcesses`; `none` where the call fails. -/
  running : ℕ → Option (List UInt32)
  activeRulePids : List UInt32
  api : ProcessApi
  /-- The order in which the hash set enumerates its PIDs. -/
  enumerate : Std.ExtTreeSet UInt32 → List UInt32
  enumerate_perm : ∀ pids, (enumerate pids).Perm pids.toList

namespace ProcessQuery

def getNetworkProcesses (lower : Text → Text) (query : ProcessQuery)
    (cache : ProcessMetadataCache) : Option (List ProcessInfo × ProcessMetadataCache) :=
  (listRunningPids query.enumProcesses 18).map fun runningPids =>
    let pids := query.enumerate (candidatePids query.selfPid runningPids query.activeRulePids)
    let (processes, cache) := listDetails query.api pids cache
    (processes.insertionSort fun a b => lower a.name ≤ lower b.name, cache)

/-- `EnumProcesses` does what is documented of it, and there are never 2^29 processes. -/
structure Lawful (query : ProcessQuery) : Prop where
  laws : PidLaws query.enumProcesses query.running
  few : ∀ call, ∀ pids ∈ query.running call, pids.length < 2 ^ 29

/-- What the refreshes of a session read, with the cache that they share. -/
def listings (lower : Text → Text) :
    List ProcessQuery → ProcessMetadataCache → Option (List (List ProcessInfo))
  | [], _ => some []
  | query :: queries, cache => do
    let (processes, cache) ← query.getNetworkProcesses lower cache
    return processes :: (← listings lower queries cache)

end ProcessQuery

section Details
variable {api : ProcessApi} {cache cache' : ProcessMetadataCache} {pids : List UInt32}

/-- Where the system tells the path of a process and the path's stem, what it tells. -/
def told (api : ProcessApi) (pid : UInt32) : Option (Text × Text) :=
  (api.imagePath pid).bind fun path => (api.fileStem path).map (path, ·)

/-- The process is listed as the system tells of it, under the display name found for its path. -/
structure Shown (api : ProcessApi) (names : Std.ExtTreeMap Text Text) (process : ProcessInfo) :
    Prop where
  told : told api process.pid = some (process.exePath, process.name)
  displayName : names[pathKey process.exePath]? = some process.displayName

theorem Shown.mono {process : ProcessInfo} (h : Shown api cache.displayNames process)
    (hextends : cache.Extends cache') : Shown api cache'.displayNames process :=
  ⟨h.told, hextends _ _ h.displayName⟩

theorem listDetails_cons (pid : UInt32) (pids : List UInt32) (cache : ProcessMetadataCache) :
    listDetails api (pid :: pids) cache =
      (((processDetails api pid cache).1.map fun d =>
          { pid, name := d.name, displayName := d.displayName, exePath := d.exePath :
            ProcessInfo }).toList ++ (listDetails api pids (processDetails api pid cache).2).1,
        (listDetails api pids (processDetails api pid cache).2).2) :=
  rfl

variable (api pids) in
/-- Every PID that the system tells of is listed once, in its place, as it is shown. -/
theorem listDetails_eq (cache : ProcessMetadataCache) :
    cache.Extends (listDetails api pids cache).2 ∧
      (listDetails api pids cache).1.map ProcessInfo.pid =
        pids.filter (fun pid => (told api pid).isSome) ∧
      ∀ process ∈ (listDetails api pids cache).1,
        Shown api (listDetails api pids cache).2.displayNames process := by
  induction pids generalizing cache with
  | nil => exact ⟨.refl cache, rfl, by simp [listDetails]⟩
  | cons pid pids ih =>
    obtain ⟨hextends, htold, hname⟩ := cache.processDetails_eq api pid
    obtain ⟨hrest, hpids, hshown⟩ := ih (processDetails api pid cache).2
    rw [listDetails_cons]
    refine ⟨hextends.trans hrest, ?_, fun process hmem => ?_⟩
    · rw [List.map_append, hpids]
      cases hdetails : (processDetails api pid cache).1 with
      | none =>
        rw [hdetails] at htold
        have hnone : ¬ (told api pid).isSome := by
          rw [told, ← htold]
          simp
        rw [List.filter_cons_of_neg (by simpa using hnone)]
        rfl
      | some d =>
        rw [hdetails] at htold
        have hsome : (told api pid).isSome := by
          rw [told, ← htold]
          rfl
        rw [List.filter_cons_of_pos (by simpa using hsome)]
        rfl
    · rcases List.mem_append.mp hmem with hfirst | hmem
      · obtain ⟨d, hd, rfl⟩ := Option.map_eq_some_iff.mp (Option.mem_toList.mp hfirst)
        rw [hd] at htold
        exact ⟨htold.symm, hrest _ _ (hname d hd)⟩
      · exact hshown process hmem

end Details

section Listing
variable {lower : Text → Text} {query : ProcessQuery} {cache : ProcessMetadataCache}

instance : Std.Total fun a b : ProcessInfo => lower a.name ≤ lower b.name :=
  ⟨fun a b => le_total (lower a.name) (lower b.name)⟩

instance : IsTrans ProcessInfo fun a b => lower a.name ≤ lower b.name :=
  ⟨fun _ _ _ => le_trans⟩

theorem nodup_toList (pids : Std.ExtTreeSet UInt32) : pids.toList.Nodup :=
  Std.ExtTreeSet.distinct_toList.imp fun hne heq => hne (Std.compare_eq_iff_eq.mpr heq)

/-- The list has each process that runs or has a rule, that is not this one and that can be
opened; it has it once, and is sorted by name. -/
structure Listing (lower : Text → Text) (names : Std.ExtTreeMap Text Text) (query : ProcessQuery)
    (runningPids : List UInt32) (processes : List ProcessInfo) : Prop where
  nodup : (processes.map ProcessInfo.pid).Nodup
  mem_iff : ∀ pid, pid ∈ processes.map ProcessInfo.pid ↔
    pid ≠ query.selfPid ∧ (told query.api pid).isSome ∧
      (pid ∈ runningPids ∨ pid ∈ query.activeRulePids ∧ pid > 0)
  sorted : processes.Pairwise fun a b => lower a.name ≤ lower b.name
  shown : ∀ process ∈ processes, Shown query.api names process

/-- The list of a query: one of the first 18 calls told of all processes that ran, or else it
failed, and the list has the processes with a rule. -/
inductive Listed (lower : Text → Text) (names : Std.ExtTreeMap Text Text) (query : ProcessQuery)
    (processes : List ProcessInfo) : Prop
  | answered (call : ℕ) (calls : call ≤ 17) (pids : List UInt32)
      (running : query.running call = some pids)
      (listing : Listing lower names query (pids.filter (· > 0)) processes)
  | failed (call : ℕ) (calls : call ≤ 17) (failed : query.running call = none)
      (listing : Listing lower names query [] processes)

theorem mem_candidatePids {selfPid : UInt32} {runningPids activeRulePids : List UInt32}
    {pid : UInt32} : pid ∈ candidatePids selfPid runningPids activeRulePids ↔
      pid ≠ selfPid ∧ (pid ∈ runningPids ∨ pid ∈ activeRulePids ∧ pid > 0) := by
  rw [candidatePids, Std.ExtTreeSet.mem_erase, Std.ExtTreeSet.mem_ofList, List.contains_iff_mem,
    List.mem_append, List.mem_filter]
  simp only [ne_eq, Std.compare_eq_iff_eq, decide_eq_true_eq]
  rw [eq_comm]

/-- Whatever the cache holds, the list is made of the PIDs that run, and the cache then has the
display names that it shows. -/
theorem getNetworkProcesses_listing (lower : Text → Text) (query : ProcessQuery)
    (cache : ProcessMetadataCache) {runningPids : List UInt32}
    (hrunning : listRunningPids query.enumProcesses 18 = some runningPids) :
    ∃ processes cache', query.getNetworkProcesses lower cache = some (processes, cache') ∧
      cache.Extends cache' ∧ Listing lower cache'.displayNames query runningPids processes := by
  have hpids := query.enumerate_perm
    (candidatePids query.selfPid runningPids query.activeRulePids)
  obtain ⟨hextends, hlisted, hshown⟩ := listDetails_eq query.api (query.enumerate
    (candidatePids query.selfPid runningPids query.activeRulePids)) cache
  refine ⟨_, _, by rw [ProcessQuery.getNetworkProcesses, hrunning]; rfl, hextends, ?_⟩
  have hperm := List.perm_insertionSort (fun a b : ProcessInfo => lower a.name ≤ lower b.name)
    (listDetails query.api (query.enumerate (candidatePids query.selfPid runningPids
      query.activeRulePids)) cache).1
  refine ⟨?_, fun pid => ?_, List.pairwise_insertionSort _ _, fun process hmem => ?_⟩
  · rw [(hperm.map _).nodup_iff, hlisted]
    exact (hpids.nodup_iff.mpr (nodup_toList _)).filter _
  · rw [(hperm.map _).mem_iff, hlisted, List.mem_filter, hpids.mem_iff, Std.ExtTreeSet.mem_toList,
      mem_candidatePids]
    tauto
  · exact hshown process (hperm.mem_iff.mp hmem)

theorem exists_listing_of_getNetworkProcesses {processes : List ProcessInfo}
    {cache' : ProcessMetadataCache}
    (h : query.getNetworkProcesses lower cache = some (processes, cache')) :
    ∃ runningPids, Listing lower cache'.displayNames query runningPids processes := by
  obtain ⟨runningPids, hrunning, -⟩ := Option.map_eq_some_iff.mp h
  obtain ⟨_, _, heq, -, hlisting⟩ := getNetworkProcesses_listing lower query cache hrunning
  rw [h, Option.some.injEq, Prod.mk.injEq] at heq
  obtain ⟨rfl, rfl⟩ := heq
  exact ⟨runningPids, hlisting⟩

/-- A lawful query ends with a list. -/
theorem getNetworkProcesses_listed (lower : Text → Text) {query : ProcessQuery} (h : query.Lawful)
    (cache : ProcessMetadataCache) : ∃ processes cache',
      query.getNetworkProcesses lower cache = some (processes, cache') ∧ cache.Extends cache' ∧
        Listed lower cache'.displayNames query processes := by
  obtain ⟨call, hcall, hrunning⟩ := listRunningPids_complete h.laws h.few (show 17 < 18 by decide)
  obtain ⟨processes, cache', heq, hextends, hlisting⟩ :=
    getNetworkProcesses_listing lower query cache hrunning
  refine ⟨processes, cache', heq, hextends, ?_⟩
  rw [runningAt] at hlisting
  cases hcalled : query.running call with
  | none =>
    rw [hcalled] at hlisting
    exact .failed call hcall hcalled hlisting
  | some pids =>
    rw [hcalled] at hlisting
    exact .answered call hcall pids hcalled hlisting

theorem Listed.mono {processes : List ProcessInfo} {cache' : ProcessMetadataCache}
    (h : Listed lower cache.displayNames query processes) (hextends : cache.Extends cache') :
    Listed lower cache'.displayNames query processes := by
  have hmono {runningPids : List UInt32}
      (hlisting : Listing lower cache.displayNames query runningPids processes) :
      Listing lower cache'.displayNames query runningPids processes :=
    { hlisting with shown := fun process hmem => (hlisting.shown process hmem).mono hextends }
  cases h with
  | answered call calls pids running listing =>
    exact .answered call calls pids running (hmono listing)
  | failed call calls failed listing => exact .failed call calls failed (hmono listing)

/-- The refreshes of a session end, each with the list of distinct processes that one call told of,
and a path has one display name in all of them. -/
theorem listings_complete (lower : Text → Text) (queries : List ProcessQuery)
    (h : ∀ query ∈ queries, query.Lawful) :
    ∃ listed, ProcessQuery.listings lower queries {} = some listed ∧
      ∃ names, List.Forall₂ (Listed lower names) queries listed := by
  have hgen : ∀ cache : ProcessMetadataCache, ∃ listed,
      ProcessQuery.listings lower queries cache = some listed ∧ ∃ cache' : ProcessMetadataCache,
        cache.Extends cache' ∧ List.Forall₂ (Listed lower cache'.displayNames) queries listed := by
    induction queries with
    | nil => exact fun cache => ⟨[], rfl, cache, .refl cache, .nil⟩
    | cons query queries ih =>
      intro cache
      obtain ⟨processes, cache₁, hget, hextends, hfirst⟩ :=
        getNetworkProcesses_listed lower (h query List.mem_cons_self) cache
      obtain ⟨listed, hlisted, cache₂, hextends', hrest⟩ :=
        ih (fun query hquery => h query (List.mem_cons_of_mem _ hquery)) cache₁
      refine ⟨processes :: listed, ?_, cache₂, hextends.trans hextends',
        .cons (hfirst.mono hextends') hrest⟩
      rw [ProcessQuery.listings, hget]
      simp only [Option.bind_eq_bind, Option.bind_some, hlisted]
      rfl
  obtain ⟨listed, hlisted, cache, -, hall⟩ := hgen {}
  exact ⟨listed, hlisted, cache.displayNames, hall⟩

section Answers

/-- A system that answers as it is documented. -/
def answerPids (running : ℕ → Option (List UInt32)) : PidCalls := fun call buffer size =>
  match running call with
  | none => ⟨false, 0, buffer⟩
  | some pids =>
    let written := pids.take (min buffer.length (size.toNat / 4))
    ⟨true, .ofNat (written.length * 4), written ++ buffer.drop written.length⟩

theorem pidLaws_answerPids (running : ℕ → Option (List UInt32)) :
    PidLaws (answerPids running) running where
  length call buffer size := by
    unfold answerPids
    split
    · rfl
    · simp only [List.length_append, List.length_drop, List.length_take]
      omega
  fails call buffer size h := by
    rw [answerPids, h]
  writes call buffer size pids h hsize := by
    have hroom : min buffer.length (size.toNat / 4) = size.toNat / 4 := by omega
    have hlength : (pids.take (size.toNat / 4)).length = min pids.length (size.toNat / 4) := by
      rw [List.length_take, Nat.min_comm]
    have hbytes : min pids.length (size.toNat / 4) * 4 < 2 ^ 32 := by
      have := size.toNat_lt
      omega
    rw [answerPids, h]
    simp only [hroom, hlength, true_and]
    refine ⟨?_, ?_⟩
    · rw [UInt32.toNat_ofNat', Nat.mod_eq_of_lt hbytes]
    · rw [← hlength, List.take_left]

/-- One call tells of a process that can be opened and of one that cannot, and the next query's
call fails. -/
def webQuery (running : Option (List UInt32)) : ProcessQuery where
  selfPid := 1
  enumProcesses := answerPids fun _ => running
  running := fun _ => running
  activeRulePids := [7]
  api := {
    imagePath := fun pid => if pid = 5 then none else some "C:/web.exe".toList
    fileStem := fun _ => some "web".toList
    versionString := fun _ _ => none }
  enumerate := fun pids => pids.toList
  enumerate_perm := fun _ => .refl _

theorem lawful_webQuery {running : Option (List UInt32)}
    (h : ∀ pids ∈ running, pids.length < 2 ^ 29) : (webQuery running).Lawful :=
  ⟨pidLaws_answerPids _, fun _ => h⟩

theorem listings_complete_webQuery : ∃ listed,
    ProcessQuery.listings toAsciiLowercase [webQuery (some [0, 5, 6]), webQuery none] {} =
        some listed ∧
      listed.map (List.map ProcessInfo.pid) = [[6, 7], [7]] ∧
      ∃ names, List.Forall₂ (Listed toAsciiLowercase names)
        [webQuery (some [0, 5, 6]), webQuery none] listed := by
  have hlawful : ∀ query ∈ [webQuery (some [0, 5, 6]), webQuery none], query.Lawful := by
    intro query hquery
    simp only [List.mem_cons, List.not_mem_nil, or_false] at hquery
    rcases hquery with rfl | rfl
    · exact lawful_webQuery (by simp)
    · exact lawful_webQuery (by simp)
  obtain ⟨listed, hlisted, hnames⟩ := listings_complete toAsciiLowercase _ hlawful
  have hpids : (ProcessQuery.listings toAsciiLowercase
      [webQuery (some [0, 5, 6]), webQuery none] {}).map (List.map (List.map ProcessInfo.pid)) =
        some [[6, 7], [7]] := by
    decide +kernel
  rw [hlisted, Option.map_some, Option.some.injEq] at hpids
  exact ⟨listed, hlisted, hpids, hnames⟩

end Answers

end Listing

end FlowBrake.Windows
