import FlowBrake.Windows.IpHelper

/-! What the system tells of its processes: which of them run, and how each is called. -/
namespace FlowBrake.Windows
open FlowBrake.Core Text

section Running

/-- The answer to a call of `EnumProcesses`: whether it succeeded, the bytes that it counts, and the
buffer. -/
structure PidReply where
  ok : Bool
  bytesReturned : UInt32
  buffer : List UInt32

/-- `EnumProcesses`, call after call: what it answers to a buffer and the size that it is told. -/
abbrev PidCalls := ℕ → List UInt32 → UInt32 → PidReply

/-- The loop of `list_running_pids`; `none` if it does not end within so many calls. -/
def listRunningPidsFrom (enumProcesses : PidCalls) :
    (fuel call : ℕ) → (buffer : List UInt32) → Option (List UInt32)
  | 0, _, _ => none
  | fuel + 1, call, buffer =>
    let reply := enumProcesses call buffer (.ofNat (buffer.length * 4))
    if !reply.ok then some []
    else
      let count := reply.bytesReturned.toNat / 4
      if count < reply.buffer.length then some ((reply.buffer.take count).filter (· > 0))
      else
        listRunningPidsFrom enumProcesses fuel (call + 1)
          (reply.buffer ++ .replicate reply.buffer.length 0)

def listRunningPids (enumProcesses : PidCalls) (fuel : ℕ) : Option (List UInt32) :=
  listRunningPidsFrom enumProcesses fuel 0 (.replicate 4096 0)

/-- What is documented of `EnumProcesses`. At each call the system runs `running call`, and it is
`none` where the call fails. -/
structure PidLaws (enumProcesses : PidCalls) (running : ℕ → Option (List UInt32)) : Prop where
  /-- A buffer keeps its length. -/
  length : ∀ call buffer size, (enumProcesses call buffer size).buffer.length = buffer.length
  /-- A call that fails says so. -/
  fails : ∀ call buffer size, running call = none → (enumProcesses call buffer size).ok = false
  /-- As many PIDs as there is room for are written and counted. -/
  writes : ∀ call (buffer : List UInt32) (size : UInt32), ∀ pids ∈ running call,
    size.toNat ≤ buffer.length * 4 → (enumProcesses call buffer size).ok = true ∧
      (enumProcesses call buffer size).bytesReturned.toNat = min pids.length (size.toNat / 4) * 4 ∧
      (enumProcesses call buffer size).buffer.take (min pids.length (size.toNat / 4)) =
        pids.take (size.toNat / 4)

/-- The processes that a call tells of, without the idle process; none if it fails. -/
def runningAt (running : ℕ → Option (List UInt32)) (call : ℕ) : List UInt32 :=
  ((running call).getD []).filter (· > 0)

variable {enumProcesses : PidCalls} {running : ℕ → Option (List UInt32)}

theorem listRunningPidsFrom_of_fails (h : PidLaws enumProcesses running) {fuel call : ℕ}
    {buffer : List UInt32} (hfails : running call = none) :
    listRunningPidsFrom enumProcesses (fuel + 1) call buffer = some (runningAt running call) := by
  rw [listRunningPidsFrom, h.fails _ _ _ hfails, runningAt, hfails]
  rfl

/-- One round of the loop ends it if the buffer has room left, and else doubles the buffer. -/
theorem listRunningPidsFrom_of_running (h : PidLaws enumProcesses running) {fuel call : ℕ}
    {buffer pids : List UInt32} (hrunning : running call = some pids)
    (hlength : buffer.length ≤ 2 ^ 29) : ∃ buffer' : List UInt32,
      buffer'.length = buffer.length * 2 ∧
      listRunningPidsFrom enumProcesses (fuel + 1) call buffer =
        if pids.length < buffer.length then some (runningAt running call)
        else listRunningPidsFrom enumProcesses fuel (call + 1) buffer' := by
  have hsize : (UInt32.ofNat (buffer.length * 4)).toNat = buffer.length * 4 := by
    rw [UInt32.toNat_ofNat']
    exact Nat.mod_eq_of_lt (by omega)
  have hbuffer := h.length call buffer (.ofNat (buffer.length * 4))
  obtain ⟨hok, hcount, htake⟩ := h.writes call buffer (.ofNat (buffer.length * 4)) pids hrunning
    hsize.le
  rw [hsize, Nat.mul_div_cancel _ (by decide)] at hcount htake
  let reply := enumProcesses call buffer (.ofNat (buffer.length * 4))
  refine ⟨reply.buffer ++ .replicate reply.buffer.length 0, ?_, ?_⟩
  · rw [List.length_append, List.length_replicate, hbuffer]
    omega
  · rw [listRunningPidsFrom]
    simp only [hok, Bool.not_true, Bool.false_eq_true, if_false, hcount, hbuffer,
      Nat.mul_div_cancel _ (show 0 < 4 by decide)]
    by_cases hroom : pids.length < buffer.length
    · rw [if_pos (by omega), if_pos hroom, htake, List.take_of_length_le hroom.le, runningAt,
        hrunning, Option.getD_some]
    · rw [if_neg (by omega), if_neg hroom, show reply.buffer.length = buffer.length from hbuffer]

/-- With fewer than 2^29 processes, one of the first 18 calls is the last one. -/
theorem listRunningPidsFrom_complete (h : PidLaws enumProcesses running)
    (hfew : ∀ call, ∀ pids ∈ running call, pids.length < 2 ^ 29) {fuel : ℕ} (doublings call : ℕ)
    (hfuel : doublings < fuel) (hdoublings : doublings ≤ 17) {buffer : List UInt32}
    (hlength : buffer.length = 2 ^ (29 - doublings)) :
    ∃ answered, answered ≤ call + doublings ∧
      listRunningPidsFrom enumProcesses fuel call buffer = some (runningAt running answered) := by
  induction doublings generalizing fuel call buffer with
  | zero =>
    obtain ⟨fuel, rfl⟩ : ∃ n, fuel = n + 1 := ⟨fuel - 1, by omega⟩
    refine ⟨call, by omega, ?_⟩
    cases hrunning : running call with
    | none => exact listRunningPidsFrom_of_fails h hrunning
    | some pids =>
      obtain ⟨buffer', -, heq⟩ := listRunningPidsFrom_of_running h hrunning hlength.le
      rw [heq, if_pos (hlength.symm ▸ hfew call pids hrunning)]
  | succ doublings ih =>
    obtain ⟨fuel, rfl⟩ : ∃ n, fuel = n + 1 := ⟨fuel - 1, by omega⟩
    cases hrunning : running call with
    | none => exact ⟨call, by omega, listRunningPidsFrom_of_fails h hrunning⟩
    | some pids =>
      have hcapacity : buffer.length ≤ 2 ^ 29 :=
        hlength.trans_le (Nat.pow_le_pow_right (by decide) (Nat.sub_le 29 _))
      obtain ⟨buffer', hlength', heq⟩ := listRunningPidsFrom_of_running h hrunning hcapacity
      rw [heq]
      by_cases hroom : pids.length < buffer.length
      · exact ⟨call, by omega, if_pos hroom⟩
      · rw [if_neg hroom]
        have hdouble : buffer'.length = 2 ^ (29 - doublings) := by
          rw [hlength', hlength, ← Nat.pow_succ]
          congr 1
          omega
        obtain ⟨answered, hanswered, hlist⟩ := ih (call + 1) (Nat.lt_of_succ_lt_succ hfuel)
          (Nat.le_of_succ_le hdoublings) hdouble
        exact ⟨answered, by omega, hlist⟩

/-- With fewer than 2^29 processes, the loop ends, with what one of its calls tells of. -/
theorem listRunningPids_complete (h : PidLaws enumProcesses running)
    (hfew : ∀ call, ∀ pids ∈ running call, pids.length < 2 ^ 29) {fuel : ℕ} (hfuel : 17 < fuel) :
    ∃ call, call ≤ 17 ∧ listRunningPids enumProcesses fuel = some (runningAt running call) := by
  have hlength : (List.replicate 4096 (0 : UInt32)).length = 2 ^ (29 - 17) := List.length_replicate
  obtain ⟨call, hcall, heq⟩ := listRunningPidsFrom_complete h hfew 17 0 hfuel le_rfl hlength
  exact ⟨call, hcall.trans (by decide), heq⟩

end Running

section Details

/-- The display names found so far, under the lower-cased paths. -/
structure ProcessMetadataCache where
  displayNames : Std.ExtTreeMap Text Text := ∅

def pathKey (path : Text) : Text := toAsciiLowercase path

/-- What the system tells of processes and of the files that they run: the path of a process, the
stem of a path's file name, and a field of a file's version. -/
structure ProcessApi where
  imagePath : UInt32 → Option Text
  fileStem : Text → Option Text
  versionString : Text → Text → Option Text

def friendlyDisplayName (api : ProcessApi) (path : Text) : Option Text :=
  (((api.versionString path "FileDescription".toList).or
    (api.versionString path "ProductName".toList)).map trim).filter (!·.isEmpty)

def ProcessMetadataCache.displayNameForPath (cache : ProcessMetadataCache) (api : ProcessApi)
    (path fallback : Text) : Text × ProcessMetadataCache :=
  let key := pathKey path
  match cache.displayNames[key]? with
  | some name => (name, cache)
  | none =>
    let name := ((friendlyDisplayName api path).filter (!·.isEmpty)).getD fallback
    (name, { displayNames := cache.displayNames.insert key name })

def processDetails (api : ProcessApi) (pid : UInt32) (cache : ProcessMetadataCache) :
    Option ProcessDetails × ProcessMetadataCache :=
  match (api.imagePath pid).bind fun path => (api.fileStem path).map (path, ·) with
  | none => (none, cache)
  | some (exePath, name) =>
    let (displayName, cache) := cache.displayNameForPath api exePath name
    (some { name, displayName, exePath }, cache)

/-- A name that was found stays. -/
def ProcessMetadataCache.Extends (cache cache' : ProcessMetadataCache) : Prop :=
  ∀ (key name : Text), cache.displayNames[key]? = some name → cache'.displayNames[key]? = some name

namespace ProcessMetadataCache
variable {cache cache' cache'' : ProcessMetadataCache} {api : ProcessApi}

theorem Extends.refl (cache : ProcessMetadataCache) : cache.Extends cache := fun _ _ h => h

theorem Extends.trans (h : cache.Extends cache') (h' : cache'.Extends cache'') :
    cache.Extends cache'' :=
  fun key name hname => h' key name (h key name hname)

theorem displayNameForPath_eq (cache : ProcessMetadataCache) (api : ProcessApi)
    (path fallback : Text) :
    cache.Extends (cache.displayNameForPath api path fallback).2 ∧
      (cache.displayNameForPath api path fallback).2.displayNames[pathKey path]? =
        some (cache.displayNameForPath api path fallback).1 := by
  unfold displayNameForPath
  dsimp only
  cases hname : cache.displayNames[pathKey path]? with
  | some name => exact ⟨.refl cache, hname⟩
  | none =>
    refine ⟨fun key name hkey => ?_, by simp⟩
    have hne : pathKey path ≠ key := by
      rintro rfl
      rw [hname] at hkey
      cases hkey
    change (cache.displayNames.insert _ _)[key]? = some name
    rw [Std.ExtTreeMap.getElem?_insert, if_neg fun heq => hne (Std.compare_eq_iff_eq.mp heq)]
    exact hkey

/-- What is told of a process is the same whatever the cache holds, but for its display name, which
is the one that the cache then has. -/
theorem processDetails_eq (cache : ProcessMetadataCache) (api : ProcessApi) (pid : UInt32) :
    cache.Extends (processDetails api pid cache).2 ∧
      ((processDetails api pid cache).1.map fun d => (d.exePath, d.name)) =
        ((api.imagePath pid).bind fun path => (api.fileStem path).map (path, ·)) ∧
      ∀ d ∈ (processDetails api pid cache).1,
        (processDetails api pid cache).2.displayNames[pathKey d.exePath]? = some d.displayName := by
  unfold processDetails
  split
  · next hnone => exact ⟨.refl cache, hnone.symm, fun d hd => by cases hd⟩
  · next exePath name hsome =>
    obtain ⟨hextends, hfound⟩ := displayNameForPath_eq cache api exePath name
    refine ⟨hextends, hsome.symm, fun d hd => ?_⟩
    cases hd
    exact hfound

end ProcessMetadataCache

end Details

end FlowBrake.Windows
