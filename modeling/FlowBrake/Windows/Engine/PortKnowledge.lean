import FlowBrake.Windows.Engine.Attribution

/-! What the reads of the tables of ports tell the receiver, when they are due, and how many of them
there can be. -/
namespace FlowBrake.Windows
open FlowBrake.Core Transition

section Knowledge

/-- A read of the tables was due: the map had grown old or the rules had changed since the last such
read, or an endpoint was missing that had not been looked for since. -/
def PortRead.Due (read : PortRead) (older : List PortRead) : Prop :=
  match read.cause with
  | .started => older = []
  | .outdated => ∃ last ∈ older.find? PortRead.periodic,
      last.clock + portMapRefresh ≤ read.time ∨ last.known < read.known
  | .missed endpoint => older.head?.map (·.pidAt endpoint) = some none ∧
      some endpoint ∉ (older.takeWhile (·.cause.missed?.isSome)).map (·.cause.missed?)

/-- All reads were due when they were made. -/
def AllDue : List PortRead → Prop
  | [] => True
  | read :: older => read.Due older ∧ AllDue older

/-- The times and the revisions of a read fit each other and the state. Only the first read may be
older than the revision that it is taken for. -/
structure PortRead.Past (read : PortRead) (now : Instant) (revision : ℕ) : Prop where
  time : read.time ≤ read.clock
  clock : read.clock ≤ now
  known : read.known ≤ revision
  first : read.cause = .started → read.revision ≤ read.known
  later : read.cause ≠ .started → read.known ≤ read.revision

/-- The reads are in order, and none is later than the state. -/
structure ReadsInOrder (reads : List PortRead) (now : Instant) (revision : ℕ) : Prop where
  ordered : reads.Pairwise fun newer older =>
    older.clock ≤ newer.time ∧ older.known ≤ newer.known
  past : ∀ read ∈ reads, read.Past now revision

/-- What the receiver knows of the tables is what it read last. -/
structure Knows (reads : List PortRead) (view : PortView) : Prop where
  latest : reads.head?.map PortRead.ports = some view.portPid
  refreshed : ∃ newer last older, reads = newer ++ last :: older ∧
    newer.map (·.cause.missed?) = view.unresolvedPorts.map some ∧ last.cause.missed? = none ∧
    last.clock = view.lastMapRefresh ∧ last.known = view.ruleRevision ∧
    ∀ read ∈ newer, read.known = view.ruleRevision

variable {reads : List PortRead} {view : PortView} {now : Instant} {revision : ℕ}

theorem PortRead.Past.of_made {read : PortRead} (hcause : read.cause ≠ .started)
    (htime : read.time = now) (hclock : read.clock = now) (hrevision : read.revision = revision)
    (hknown : read.known ≤ revision) : read.Past now revision where
  time := htime.le.trans hclock.ge
  clock := hclock.le
  known := hknown
  first h := absurd h hcause
  later _ := hrevision.symm ▸ hknown

theorem PortRead.Past.mono {read : PortRead} {now' : Instant} {revision' : ℕ}
    (h : read.Past now revision) (hnow : now ≤ now') (hrevision : revision ≤ revision') :
    read.Past now' revision' where
  time := h.time
  clock := h.clock.trans hnow
  known := h.known.trans hrevision
  first := h.first
  later := h.later

theorem ReadsInOrder.mono {now' : Instant} {revision' : ℕ} (h : ReadsInOrder reads now revision)
    (hnow : now ≤ now') (hrevision : revision ≤ revision') : ReadsInOrder reads now' revision' :=
  ⟨h.ordered, fun read hread => (h.past read hread).mono hnow hrevision⟩

theorem ReadsInOrder.cons (h : ReadsInOrder reads now revision) {read : PortRead}
    (hpast : read.Past now revision) (htime : read.time = now)
    (hknown : ∀ older ∈ reads, older.known ≤ read.known) :
    ReadsInOrder (read :: reads) now revision := by
  refine ⟨List.pairwise_cons.mpr ⟨fun older holder => ?_, h.ordered⟩, fun read' hread => ?_⟩
  · exact ⟨htime ▸ (h.past older holder).clock, hknown older holder⟩
  · rcases List.mem_cons.mp hread with rfl | hread
    · exact hpast
    · exact h.past read' hread

/-- The last read is put down with another clock, or as of a later revision. -/
theorem ReadsInOrder.modifyHead (h : ReadsInOrder reads now revision) {f : PortRead → PortRead}
    (hpast : ∀ read ∈ reads.head?, read.Past now revision → (f read).Past now revision)
    (htime : ∀ read, (f read).time = read.time)
    (hknown : ∀ read ∈ reads.head?, read.known ≤ (f read).known) :
    ReadsInOrder (reads.modifyHead f) now revision := by
  cases reads with
  | nil => exact h
  | cons read older =>
    obtain ⟨hhead, hordered⟩ := List.pairwise_cons.mp h.ordered
    rw [List.modifyHead_cons]
    refine ⟨List.pairwise_cons.mpr ⟨fun r hr => ?_, hordered⟩, fun r hr => ?_⟩
    · exact ⟨htime read ▸ (hhead r hr).1, (hhead r hr).2.trans (hknown read rfl)⟩
    · rcases List.mem_cons.mp hr with rfl | hr
      · exact hpast read rfl (h.past read List.mem_cons_self)
      · exact h.past r (List.mem_cons_of_mem _ hr)

theorem PortRead.Due.of_same {read read' : PortRead} {older : List PortRead}
    (h : read.Due older) (hcause : read'.cause = read.cause) (htime : read'.time = read.time)
    (hknown : read.known ≤ read'.known) : read'.Due older := by
  unfold Due at h ⊢
  rw [hcause]
  split at h
  · exact h
  · obtain ⟨last, hlast, hlater⟩ := h
    refine ⟨last, hlast, hlater.imp (fun hclock => ?_) fun hlt => hlt.trans_le hknown⟩
    rw [htime]
    exact hclock
  · exact h

theorem AllDue.modifyHead (h : AllDue reads) {f : PortRead → PortRead}
    (hcause : ∀ read, (f read).cause = read.cause) (htime : ∀ read, (f read).time = read.time)
    (hknown : ∀ read ∈ reads.head?, read.known ≤ (f read).known) : AllDue (reads.modifyHead f) := by
  cases reads with
  | nil => exact h
  | cons read older => exact ⟨h.1.of_same (hcause read) (htime read) (hknown read rfl), h.2⟩

/-- After a periodic read, no endpoint has been looked for. -/
theorem Knows.of_refresh (read : PortRead) (older : List PortRead)
    (h : read.cause.missed? = none) :
    Knows (read :: older) ⟨read.ports, read.clock, read.known, []⟩ :=
  ⟨rfl, [], read, older, rfl, rfl, h, rfl, rfl, fun _ hread => absurd hread List.not_mem_nil⟩

theorem Knows.missed (h : Knows reads view) (read : PortRead) {endpoint : Endpoint}
    (hcause : read.cause = .missed endpoint) (hknown : read.known = view.ruleRevision) :
    Knows (read :: reads) { view with
      portPid := read.ports, unresolvedPorts := endpoint :: view.unresolvedPorts } := by
  obtain ⟨-, newer, last, older, hreads, hnewer, hmissed, hclock, hlast, hall⟩ := h
  refine ⟨rfl, read :: newer, last, older, by rw [hreads]; rfl, ?_, hmissed, hclock, hlast, ?_⟩
  · rw [List.map_cons, hnewer, hcause]
    rfl
  · intro read' hread
    rcases List.mem_cons.mp hread with rfl | hread
    · exact hknown
    · exact hall read' hread

theorem Knows.isSome_newer {newer : List PortRead} {endpoints : List Endpoint}
    (h : newer.map (·.cause.missed?) = endpoints.map some) :
    ∀ read ∈ newer, read.cause.missed?.isSome := by
  intro read hread
  have hmem : read.cause.missed? ∈ endpoints.map some := h ▸ List.mem_map_of_mem hread
  obtain ⟨endpoint, -, heq⟩ := List.mem_map.mp hmem
  rw [← heq]
  rfl

theorem Knows.find?_eq (h : Knows reads view) :
    ∃ last, reads.find? PortRead.periodic = some last ∧
      last.clock = view.lastMapRefresh ∧ last.known = view.ruleRevision := by
  obtain ⟨-, newer, last, older, rfl, hnewer, hmissed, hclock, hknown, -⟩ := h
  refine ⟨last, ?_, hclock, hknown⟩
  rw [List.find?_append, List.find?_eq_none.mpr fun read hread => ?_, Option.none_or,
    List.find?_cons_of_pos (by rw [PortRead.periodic, hmissed]; rfl)]
  simp [PortRead.periodic, Option.isSome_iff_ne_none.mp (Knows.isSome_newer hnewer read hread)]

theorem Knows.takeWhile_eq (h : Knows reads view) :
    (reads.takeWhile (·.cause.missed?.isSome)).map (·.cause.missed?) =
      view.unresolvedPorts.map some := by
  obtain ⟨-, newer, last, older, rfl, hnewer, hmissed, -⟩ := h
  rw [List.takeWhile_append_of_pos (Knows.isSome_newer hnewer),
    List.takeWhile_cons_of_neg (by rw [hmissed]; simp), List.append_nil, hnewer]

theorem Knows.le (h : Knows reads view) (ho : ReadsInOrder reads now revision) :
    view.lastMapRefresh ≤ now ∧ view.ruleRevision ≤ revision := by
  obtain ⟨last, hlast, hclock, hknown⟩ := h.find?_eq
  have hpast := ho.past last (List.mem_of_find?_eq_some hlast)
  exact ⟨hclock ▸ hpast.clock, hknown ▸ hpast.known⟩

/-- No read is taken for a later revision than the one that the receiver knows. -/
theorem Knows.known_le (h : Knows reads view) (ho : ReadsInOrder reads now revision) :
    ∀ read ∈ reads, read.known ≤ view.ruleRevision := by
  obtain ⟨-, newer, last, older, rfl, -, -, -, hknown, hall⟩ := h
  intro read hread
  rcases List.mem_append.mp hread with hmem | hmem
  · exact (hall read hmem).le
  · rcases List.mem_cons.mp hmem with rfl | hmem
    · exact hknown.le
    · have hordered := (List.pairwise_append.mp ho.ordered).2.1
      exact hknown ▸ (List.rel_of_pairwise_cons hordered hmem).2

/-- The last read of the tables is no older than the last periodic one. -/
theorem Knows.exists_head (h : Knows reads view) (ho : ReadsInOrder reads now revision) :
    ∃ read ∈ reads, read.ports = view.portPid ∧ view.lastMapRefresh ≤ read.clock ∧
      (read.cause = .started ∨ view.ruleRevision ≤ read.revision) := by
  obtain ⟨hlatest, newer, last, older, hreads, -, -, hclock, hknown, -⟩ := h
  obtain ⟨read, hread, hports⟩ := Option.map_eq_some_iff.mp hlatest
  have hmem : read ∈ reads := List.mem_of_mem_head? hread
  have hpast := ho.past read hmem
  have hlast : view.lastMapRefresh ≤ read.clock ∧ view.ruleRevision ≤ read.known := by
    have hordered := ho.ordered
    rw [← hclock, ← hknown]
    rw [hreads] at hread hordered
    cases newer with
    | nil =>
      obtain rfl : last = read := Option.some_injective _ hread
      exact ⟨le_rfl, le_rfl⟩
    | cons first newer =>
      obtain rfl : first = read := Option.some_injective _ hread
      have hrel := List.rel_of_pairwise_cons hordered (List.mem_append_right _ List.mem_cons_self)
      exact ⟨hrel.1.trans hpast.time, hrel.2⟩
  refine ⟨read, hmem, hports, hlast.1, ?_⟩
  by_cases hstarted : read.cause = .started
  · exact .inl hstarted
  · exact .inr (hlast.2.trans (hpast.later hstarted))

end Knowledge

section Bound

theorem PortRead.Due.cases {read : PortRead} {older : List PortRead} (h : read.Due older) :
    (read.periodic ∧ older = []) ∨
      (read.periodic ∧ ∃ last, older.find? PortRead.periodic = some last ∧
        (last.clock + portMapRefresh ≤ read.time ∨ last.known < read.known)) ∨
      ∃ endpoint, read.cause.missed? = some endpoint ∧ older ≠ [] ∧
        some endpoint ∉ (older.takeWhile (·.cause.missed?.isSome)).map (·.cause.missed?) := by
  unfold Due at h
  unfold periodic
  split at h
  · next hcause =>
    rw [hcause]
    exact .inl ⟨rfl, h⟩
  · next hcause =>
    rw [hcause]
    exact .inr (.inl ⟨rfl, h⟩)
  · next endpoint hcause =>
    rw [hcause]
    refine .inr (.inr ⟨endpoint, rfl, ?_, h.2⟩)
    rintro rfl
    cases h.1

variable {reads : List PortRead}

/-- Periodic reads are as far apart as the map may grow old, unless the rules changed. -/
theorem AllDue.countP_periodic_le {start : Instant} {revision : ℕ} {last : PortRead}
    (h : AllDue reads) (hstart : ∀ read ∈ reads, start ≤ read.clock ∧ revision ≤ read.known)
    (ho : reads.Pairwise fun newer older =>
      older.clock ≤ newer.time ∧ older.known ≤ newer.known)
    (htime : ∀ read ∈ reads, read.time ≤ read.clock)
    (hlast : reads.find? PortRead.periodic = some last) :
    reads.countP PortRead.periodic ≤ 1 + (last.clock - start) / portMapRefresh +
      (last.known - revision) := by
  induction reads generalizing last with
  | nil => cases hlast
  | cons read older ih =>
    obtain ⟨hdue, hall⟩ := h
    have ih' {last' : PortRead} := @ih last' hall (fun r hr => hstart r (List.mem_cons_of_mem _ hr))
      (List.pairwise_cons.mp ho).2 fun r hr => htime r (List.mem_cons_of_mem _ hr)
    rcases hdue.cases with ⟨hperiodic, rfl⟩ | ⟨hperiodic, last', hlast', hlater⟩ |
      ⟨endpoint, hmissed, -⟩
    · rw [List.countP_cons_of_pos hperiodic, List.countP_nil]
      exact (Nat.le_add_right 1 _).trans (Nat.le_add_right _ _)
    · rw [List.find?_cons_of_pos hperiodic] at hlast
      obtain rfl := Option.some_injective _ hlast
      rw [List.countP_cons_of_pos hperiodic]
      have hcount := ih' hlast'
      have hmem : last' ∈ older := List.mem_of_find?_eq_some hlast'
      have hordered := (List.pairwise_cons.mp ho).1 last' hmem
      have hfrom := hstart last' (List.mem_cons_of_mem _ hmem)
      have hread := htime read List.mem_cons_self
      have hrevision := Nat.sub_le_sub_right hordered.2 revision
      have hdiv := Nat.div_le_div_right (c := portMapRefresh)
        (Nat.sub_le_sub_right (hordered.1.trans hread) start)
      refine (Nat.succ_le_succ hcount).trans ?_
      rcases hlater with hlater | hlater
      · have hstep : (last'.clock - start) / portMapRefresh + 1 ≤
            (read.clock - start) / portMapRefresh := by
          rw [← Nat.add_div_right _ (by decide), ← Nat.sub_add_comm hfrom.1]
          exact Nat.div_le_div_right (Nat.sub_le_sub_right (hlater.trans hread) start)
        rw [Nat.succ_eq_add_one, Nat.add_right_comm]
        exact Nat.add_le_add (Nat.add_le_add_left hstep 1) hrevision
      · have hstep : last'.known - revision + 1 ≤ read.known - revision := by omega
        exact Nat.add_le_add (Nat.add_le_add_left hdiv 1) hstep
    · have hnot : ¬ read.periodic := by
        unfold PortRead.periodic
        rw [hmissed]
        exact Bool.false_ne_true
      rw [List.find?_cons_of_neg hnot] at hlast
      rw [List.countP_cons_of_neg hnot]
      exact ih' hlast

/-- No endpoint is looked for twice between two periodic reads. -/
theorem AllDue.countP_missed_le (h : AllDue reads) (hne : reads ≠ []) (endpoint : Endpoint) :
    reads.countP (·.cause.missed? = some endpoint) +
      (if some endpoint ∈ (reads.takeWhile (·.cause.missed?.isSome)).map (·.cause.missed?) then 0
        else 1) ≤ reads.countP PortRead.periodic := by
  induction reads with
  | nil => exact absurd rfl hne
  | cons read older ih =>
    obtain ⟨hdue, hall⟩ := h
    have hperiodic_missed (hperiodic : read.periodic) : read.cause.missed? = none :=
      Option.isNone_iff_eq_none.mp hperiodic
    rcases hdue.cases with ⟨hperiodic, rfl⟩ | ⟨hperiodic, last, hlast, -⟩ |
      ⟨missing, hmissed, hold, hnew⟩
    · simp [hperiodic_missed hperiodic, hperiodic]
    · have hold : older ≠ [] := by
        rintro rfl
        cases hlast
      have hcount := ih hall hold
      rw [List.countP_cons_of_pos hperiodic, List.countP_cons_of_neg (by
        simp [hperiodic_missed hperiodic])]
      refine Nat.add_le_add (le_of_add_le_left hcount) ?_
      split <;> decide
    · have hcount := ih hall hold
      have hnot : ¬ read.periodic := by simp [PortRead.periodic, hmissed]
      rw [List.countP_cons_of_neg hnot, List.takeWhile_cons_of_pos (by simp [hmissed]),
        List.map_cons, hmissed]
      by_cases hsame : missing = endpoint
      · subst hsame
        rw [if_neg hnew] at hcount
        rw [List.countP_cons_of_pos (by simp [hmissed]), if_pos List.mem_cons_self]
        exact hcount
      · rw [List.countP_cons_of_neg (by simp [hmissed, hsame])]
        simpa [Ne.symm hsame] using hcount

theorem AllDue.exists_periodic (h : AllDue reads) (hne : reads ≠ []) :
    ∃ last, reads.find? PortRead.periodic = some last := by
  induction reads with
  | nil => exact absurd rfl hne
  | cons read older ih =>
    by_cases hperiodic : read.periodic
    · exact ⟨read, List.find?_cons_of_pos hperiodic⟩
    · rw [List.find?_cons_of_neg hperiodic]
      refine ih h.2 ?_
      rcases h.1.cases with ⟨hp, -⟩ | ⟨hp, -⟩ | ⟨-, -, hold, -⟩
      · exact absurd hp hperiodic
      · exact absurd hp hperiodic
      · exact hold

theorem AllDue.of_append {newer older : List PortRead} (h : AllDue (newer ++ older)) :
    AllDue older := by
  induction newer with
  | nil => exact h
  | cons read newer ih => exact ih h.2

/-- The first read is the one with which the receiver began. -/
theorem AllDue.started (h : AllDue reads) {first : PortRead}
    (hfirst : reads.getLast? = some first) : first.cause = .started := by
  obtain ⟨newer, rfl⟩ := List.getLast?_eq_some_iff.mp hfirst
  have hdue := h.of_append.1
  unfold PortRead.Due at hdue
  split at hdue
  · next hcause => exact hcause
  · obtain ⟨last, hlast, -⟩ := hdue
    cases hlast
  · cases hdue.1

/-- No read is older than the first one. -/
theorem ReadsInOrder.first_le {now : Instant} {revision : ℕ} (h : ReadsInOrder reads now revision)
    {first : PortRead} (hfirst : reads.getLast? = some first) :
    ∀ read ∈ reads, first.clock ≤ read.clock ∧ first.known ≤ read.known := by
  obtain ⟨newer, rfl⟩ := List.getLast?_eq_some_iff.mp hfirst
  intro read hread
  have htime := (h.past read hread).time
  rcases List.mem_append.mp hread with hmem | hmem
  · have hordered := (List.pairwise_append.mp h.ordered).2.2 read hmem first
      (List.mem_singleton_self _)
    exact ⟨hordered.1.trans htime, hordered.2⟩
  · rw [List.mem_singleton.mp hmem]
    exact ⟨le_rfl, le_rfl⟩

end Bound

end FlowBrake.Windows
