import Mathlib.Data.Prod.Lex
import Mathlib.Logic.Function.Basic
import FlowBrake.Lib.KeyOrder
import FlowBrake.Windows.Packet

/-! The delay queue: packets waiting for a deadline, with capacity accounting per process
and ordering per flow. -/
namespace FlowBrake.Windows
open FlowBrake.Core KeyOrder

/-- Nanoseconds since an arbitrary origin. -/
abbrev Instant := ℕ

/-- What `recv` returned. `capture` is a history variable, the number of the call; no code
reads it. -/
structure Captured where
  bytes : List UInt8
  address : WinDivertAddress
  capture : ℕ
  deriving DecidableEq

/-- What is handed to the driver, with the data its accounting needs. -/
structure Outgoing extends Captured where
  pid : Option UInt32
  direction : Direction
  chargeLen : ℕ
  deriving DecidableEq

structure PendingPacket extends Outgoing where
  flow : FlowKey
  deriving DecidableEq

structure Entry where
  packet : PendingPacket
  deadline : Instant
  sequence : ℕ
  deriving DecidableEq

/-- Entries are served by deadline, then by sequence number. -/
def Entry.key (entry : Entry) : ℕ ×ₗ ℕ := toLex (entry.deadline, entry.sequence)

theorem Entry.key_le_key {a b : Entry} : a.key ≤ b.key ↔
    a.deadline < b.deadline ∨ a.deadline = b.deadline ∧ a.sequence ≤ b.sequence :=
  Prod.Lex.toLex_le_toLex

structure Usage where
  packets : ℕ := 0
  bytes : ℕ := 0
  deriving DecidableEq

structure FlowState where
  packets : ℕ := 0
  tail : Option Instant := none
  inFlight : ℕ := 0
  inFlightTail : Option Instant := none
  deriving DecidableEq

/-- What `releaseMatching` keeps of a flow. -/
def FlowState.counts (flow : FlowState) : ℕ × ℕ × Option Instant :=
  (flow.packets, flow.inFlight, flow.inFlightTail)

/-- Partial functions stand for the two hash maps: the code never depends on their order. -/
structure DelayQueue where
  heap : MinHeap Entry.key := .empty
  flows : FlowKey → Option FlowState := fun _ => none
  pids : Option UInt32 → Option Usage := fun _ => none
  usage : Usage := {}
  nextSequence : ℕ := 0
  maxBytes : ℕ := 64 * 1024 * 1024
  maxPackets : ℕ := 16384
  maxPidBytes : ℕ := 8 * 1024 * 1024
  maxPidPackets : ℕ := 4096

instance : Inhabited DelayQueue := ⟨{}⟩

/-- The panics of the queue code. The `expect` on an exhausted sequence comes after the maps
were updated and leaves them so. -/
inductive Panic
  | unwrapNone
  | underflow
  | sequenceExhausted (left : DelayQueue)

def unwrap {α : Type} : Option α → Except Panic α
  | some a => .ok a
  | none => .error .unwrapNone

def checkedSub (a b : ℕ) : Except Panic ℕ := if b ≤ a then .ok (a - b) else .error .underflow

@[simp] theorem unwrap_some {α : Type} (a : α) : unwrap (some a) = .ok a := rfl

theorem eq_some_of_unwrap {α : Type} {o : Option α} {a : α} (h : unwrap o = .ok a) :
    o = some a := by
  cases o <;> cases h
  rfl

@[simp] theorem checkedSub_add_right (a b : ℕ) : checkedSub (a + b) b = .ok a := by
  simp [checkedSub]

@[simp] theorem checkedSub_add_left (a b : ℕ) : checkedSub (b + a) b = .ok a := by
  simp [checkedSub]

@[simp] theorem ok_bind {ε α β : Type} (a : α) (f : α → Except ε β) :
    (Except.ok a >>= f) = f a := rfl

theorem bind_eq_ok {ε α β : Type} {x : Except ε α} {f : α → Except ε β} {b : β} :
    x >>= f = .ok b ↔ ∃ a, x = .ok a ∧ f a = .ok b := by
  cases x <;> simp [bind, Except.bind]

/-- `tail.map_or(deadline, |tail| tail.max(deadline))` -/
def clampToTail (tail : Option Instant) (deadline : Instant) : Instant :=
  tail.elim deadline (fun tail => max tail deadline)

namespace DelayQueue

def hasFlow (queue : DelayQueue) (flow : FlowKey) : Bool := (queue.flows flow).isSome

def rejects (queue : DelayQueue) (packet : PendingPacket) : Bool :=
  let bytes := packet.bytes.length
  let pidUsage := (queue.pids packet.pid).getD {}
  queue.usage.packets ≥ queue.maxPackets
    || bytes > queue.maxBytes - queue.usage.bytes
    || pidUsage.packets ≥ queue.maxPidPackets
    || bytes > queue.maxPidBytes - pidUsage.bytes

/-- The deadline an accepted packet gets: not before its flow's tail. -/
def admitDeadline (queue : DelayQueue) (packet : PendingPacket) (deadline : Instant) : Instant :=
  clampToTail ((queue.flows packet.flow).getD {}).tail deadline

/-- The map and counter updates of `enqueue`. -/
def charge (queue : DelayQueue) (packet : PendingPacket) (deadline : Instant) : DelayQueue :=
  let bytes := packet.bytes.length
  let flow := (queue.flows packet.flow).getD {}
  let pidUsage := (queue.pids packet.pid).getD {}
  { queue with
    flows := Function.update queue.flows packet.flow (some { flow with
      tail := some (queue.admitDeadline packet deadline)
      packets := flow.packets + 1 })
    pids := Function.update queue.pids packet.pid (some {
      packets := pidUsage.packets + 1
      bytes := pidUsage.bytes + bytes })
    usage := { packets := queue.usage.packets + 1, bytes := queue.usage.bytes + bytes } }

/-- The queue after it took `packet`. -/
def admitted (queue : DelayQueue) (packet : PendingPacket) (deadline : Instant) : DelayQueue :=
  { queue.charge packet deadline with
    nextSequence := queue.nextSequence + 1
    heap := queue.heap.push
      ⟨packet, queue.admitDeadline packet deadline, queue.nextSequence⟩ }

def enqueue (queue : DelayQueue) (packet : PendingPacket) (deadline : Instant) :
    Except Panic (Bool × DelayQueue) :=
  if queue.rejects packet then .ok (false, queue)
  else if queue.nextSequence + 1 < 2 ^ 64 then .ok (true, queue.admitted packet deadline)
  else .error (.sequenceExhausted (queue.charge packet deadline))

def nextDeadline (queue : DelayQueue) : Option Instant := queue.heap.peek?.map (·.deadline)

/-- The queue after its first entry, of a flow in state `flow`, was popped. -/
def popped (queue : DelayQueue) (entry : Entry) (heap : MinHeap Entry.key) (flow : FlowState) :
    DelayQueue :=
  { queue with
    heap
    flows := Function.update queue.flows entry.packet.flow (some { flow with
      inFlight := flow.inFlight + 1
      inFlightTail := some entry.deadline }) }

def popDue (queue : DelayQueue) (now : Instant) :
    Except Panic (Option PendingPacket × DelayQueue) :=
  match queue.heap.peek? with
  | none => .ok (none, queue)
  | some top =>
    if top.deadline > now then .ok (none, queue)
    else
      match queue.heap.pop? with
      | none => .ok (none, queue)
      | some (entry, heap) => do
        let flow ← unwrap (queue.flows entry.packet.flow)
        return (some entry.packet, queue.popped entry heap flow)

def finish (queue : DelayQueue) (packet : PendingPacket) : Except Panic DelayQueue := do
  let bytes := packet.bytes.length
  let usage : Usage := {
    packets := ← checkedSub queue.usage.packets 1
    bytes := ← checkedSub queue.usage.bytes bytes }
  let pidUsage ← unwrap (queue.pids packet.pid)
  let pidUsage : Usage := {
    packets := ← checkedSub pidUsage.packets 1
    bytes := ← checkedSub pidUsage.bytes bytes }
  let pids := Function.update queue.pids packet.pid
    (if pidUsage.packets = 0 then none else some pidUsage)
  let flow ← unwrap (queue.flows packet.flow)
  let packets ← checkedSub flow.packets 1
  let inFlight ← checkedSub flow.inFlight 1
  let inFlightTail := if inFlight = 0 then none else flow.inFlightTail
  let flows := Function.update queue.flows packet.flow
    (if packets = 0 then none else some { flow with packets, inFlight, inFlightTail })
  return { queue with usage, pids, flows }

/-- The loop of `releaseMatching` over the entries in sequence order. -/
def releaseEntries (now : Instant) (predicate : PendingPacket → Bool) :
    (FlowKey → Option FlowState) → List Entry →
      Except Panic ((FlowKey → Option FlowState) × List Entry)
  | flows, [] => .ok (flows, [])
  | flows, entry :: rest => do
    let requested := if predicate entry.packet then now else entry.deadline
    let flow ← unwrap (flows entry.packet.flow)
    -- Rebuilt in capture order: clearing a later packet cannot overtake its predecessor.
    let deadline := clampToTail flow.tail requested
    let (flows, rest) ← releaseEntries now predicate
      (Function.update flows entry.packet.flow (some { flow with tail := some deadline })) rest
    return (flows, { entry with deadline } :: rest)

def resetTails (flows : FlowKey → Option FlowState) : FlowKey → Option FlowState :=
  fun key => (flows key).map fun flow => { flow with tail := flow.inFlightTail }

def releaseMatching (queue : DelayQueue) (now : Instant) (predicate : PendingPacket → Bool) :
    Except Panic DelayQueue := do
  let entries := sortBy Entry.sequence queue.heap.entries
  let (flows, entries) ← releaseEntries now predicate (resetTails queue.flows) entries
  return { queue with flows, heap := .ofList entries }

def queued (queue : DelayQueue) : List PendingPacket := queue.heap.entries.map (·.packet)

/-- The queued packets in the order in which they were enqueued. -/
def inOrder (queue : DelayQueue) : List PendingPacket :=
  (sortBy Entry.sequence queue.heap.entries).map (·.packet)

def packetCount (queue : DelayQueue) : ℕ := queue.usage.packets

def byteCount (queue : DelayQueue) : ℕ := queue.usage.bytes

def withLimits (bytes packets pidBytes pidPackets : ℕ) : DelayQueue where
  maxBytes := bytes
  maxPackets := packets
  maxPidBytes := pidBytes
  maxPidPackets := pidPackets

theorem inOrder_perm (queue : DelayQueue) : queue.inOrder.Perm queue.queued :=
  (sortBy_perm _ _).map _

@[simp] theorem nextSequence_withLimits (bytes packets pidBytes pidPackets : ℕ) :
    (withLimits bytes packets pidBytes pidPackets).nextSequence = 0 := rfl

theorem nextDeadline_eq_none {queue : DelayQueue} :
    queue.nextDeadline = none ↔ queue.heap.entries = [] := by
  rw [nextDeadline, Option.map_eq_none_iff, MinHeap.peek?_eq_none]

theorem enqueue_cases (queue : DelayQueue) (packet : PendingPacket) (deadline : Instant) :
    queue.enqueue packet deadline = .ok (false, queue) ∨
      queue.enqueue packet deadline = .ok (true, queue.admitted packet deadline) ∨
      2 ^ 64 ≤ queue.nextSequence + 1 ∧
        queue.enqueue packet deadline =
          .error (.sequenceExhausted (queue.charge packet deadline)) := by
  unfold enqueue
  split_ifs with hr hs
  · exact .inl rfl
  · exact .inr (.inl rfl)
  · exact .inr (.inr ⟨by omega, rfl⟩)

theorem lt_of_enqueue {queue queue' : DelayQueue} {packet : PendingPacket} {deadline : Instant}
    (h : queue.enqueue packet deadline = .ok (true, queue')) :
    queue.nextSequence + 1 < 2 ^ 64 := by
  by_contra hs
  rw [enqueue, if_neg hs] at h
  split at h <;> cases h

theorem popDue_cases (queue : DelayQueue) (now : Instant) :
    queue.popDue now = .ok (none, queue) ∨
      ∃ entry heap, queue.heap.pop? = some (entry, heap) ∧ entry.deadline ≤ now ∧
        queue.popDue now = (do
          let flow ← unwrap (queue.flows entry.packet.flow)
          return (some entry.packet, queue.popped entry heap flow)) := by
  unfold popDue
  cases htop : queue.heap.peek? with
  | none => exact .inl rfl
  | some top =>
    obtain ⟨heap, hpop⟩ := MinHeap.pop?_isSome_of_peek? htop
    by_cases hd : top.deadline > now
    · exact .inl (by simp [hd])
    · exact .inr ⟨top, heap, hpop, Nat.le_of_not_lt hd, by simp [hd, hpop]⟩

theorem popDue_eq_of_pop {queue : DelayQueue} {now : Instant} {entry : Entry}
    {heap : MinHeap Entry.key} {state : FlowState} (hpop : queue.heap.pop? = some (entry, heap))
    (hd : entry.deadline ≤ now) (hs : queue.flows entry.packet.flow = some state) :
    queue.popDue now = .ok (some entry.packet, queue.popped entry heap state) := by
  rcases queue.popDue_cases now with hnone | ⟨entry', heap', hpop', -, heq⟩
  · have htop : queue.heap.peek? = some entry := by
      rw [MinHeap.peek?, (MinHeap.pop?_eq_some hpop).1]
      rfl
    simp [popDue, htop, Nat.not_lt.mpr hd, hpop, hs] at hnone
  · cases hpop.symm.trans hpop'
    rw [heq, hs]
    rfl

theorem finish_eq_ok {queue queue' : DelayQueue} {packet : PendingPacket}
    (h : queue.finish packet = .ok queue') :
    queue'.heap = queue.heap ∧ queue'.nextSequence = queue.nextSequence ∧
      ∀ flow state', queue'.flows flow = some state' → ∃ state, queue.flows flow = some state ∧
        state'.tail = state.tail ∧ ∀ t ∈ state'.inFlightTail, t ∈ state.inFlightTail := by
  simp only [finish, bind_eq_ok] at h
  obtain ⟨_, _, _, _, _, _, _, _, _, _, flow, hflow, packets, _, inFlight, _, hq⟩ := h
  cases hq
  refine ⟨rfl, rfl, fun key state' hs => ?_⟩
  dsimp only at hs
  by_cases hk : key = packet.flow
  · subst hk
    rw [Function.update_self] at hs
    split at hs
    · cases hs
    · cases hs
      refine ⟨flow, ?_, rfl, ?_⟩
      · cases hf : queue.flows packet.flow with
        | none => simp [hf, unwrap] at hflow
        | some state => simpa [hf] using hflow
      · intro t ht
        dsimp only at ht
        split at ht
        · cases ht
        · exact ht
  · rw [Function.update_of_ne hk] at hs
    exact ⟨state', hs, rfl, fun _ ht => ht⟩

theorem releaseMatching_eq_ok {queue queue' : DelayQueue} {now : Instant}
    {predicate : PendingPacket → Bool} :
    queue.releaseMatching now predicate = .ok queue' ↔
      ∃ flows entries, releaseEntries now predicate (resetTails queue.flows)
        (sortBy Entry.sequence queue.heap.entries) = .ok (flows, entries) ∧
        queue' = { queue with flows, heap := .ofList entries } := by
  simp only [releaseMatching, bind_eq_ok, Prod.exists]
  constructor <;> rintro ⟨flows, entries, he, hq⟩ <;> cases hq <;> exact ⟨flows, entries, he, rfl⟩

end DelayQueue

end FlowBrake.Windows
