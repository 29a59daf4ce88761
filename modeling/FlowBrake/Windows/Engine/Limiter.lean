import Mathlib.Tactic.Ring
import FlowBrake.Windows.Engine.Bucket
import FlowBrake.Windows.Engine.Step

/-! The two speed limits that a packet has to pass, and what they charge to the global one. -/
namespace FlowBrake.Windows
open FlowBrake.Core

/-- A packet at the limiters, with the rules there and the time at either of them. -/
structure Offer where
  policy : Policy
  globalAt : Instant
  processAt : Instant
  pid : Option UInt32
  direction : Direction
  packetLen : ℕ
  isLoopback : Bool

/-- The bucket with `bytes` taken from it. -/
def BucketSlot.debit (slot : BucketSlot) (bytes : ℕ) : BucketSlot :=
  ({ slot.1 with tokens := slot.1.tokens - bytes }, slot.2)

namespace RecvLocals

def globalBucket (locals : RecvLocals) : Direction → Option BucketSlot
  | .download => locals.globalDlBucket
  | .upload => locals.globalUlBucket

def setGlobalBucket (locals : RecvLocals) (slot : BucketSlot) : Direction → RecvLocals
  | .download => { locals with globalDlBucket := some slot }
  | .upload => { locals with globalUlBucket := some slot }

@[simp] theorem globalBucket_setGlobalBucket (locals : RecvLocals) (slot : BucketSlot)
    (direction direction' : Direction) :
    (locals.setGlobalBucket slot direction).globalBucket direction' =
      if direction' = direction then some slot else locals.globalBucket direction' := by
  cases direction <;> cases direction' <;> rfl

@[simp] theorem buckets_setGlobalBucket (locals : RecvLocals) (slot : BucketSlot)
    (direction : Direction) : (locals.setGlobalBucket slot direction).buckets = locals.buckets := by
  cases direction <;> rfl

end RecvLocals

namespace Offer

def shouldDropGlobal (x : Offer) (locals : RecvLocals) : Option DropReason × RecvLocals :=
  let rule := x.policy.globalRule
  if rule.blockAll && !x.isLoopback then (some .block, locals)
  else if x.packetLen = 0 then (none, locals)
  else
    match rule.effectiveBps x.direction with
    | none => (none, locals)
    | some rate =>
      let (exceeded, slot) :=
        consumeBucket x.globalAt (locals.globalBucket x.direction) rate x.packetLen
      (if exceeded then some .rate else none, locals.setGlobalBucket slot x.direction)

def shouldDropProcess (x : Offer) (locals : RecvLocals) : Option DropReason × RecvLocals :=
  match x.pid with
  | none => (none, locals)
  | some pid =>
    match x.policy.rules[pid]? with
    | none => (none, locals)
    | some rule =>
      if rule.blockAll && !x.isLoopback then (some .block, locals)
      else if x.packetLen = 0 then (none, locals)
      else
        match rule.effectiveBps x.direction with
        | none => (none, locals)
        | some rate =>
          let key := (pid, x.direction)
          let (exceeded, slot) := consumeBucket x.processAt (locals.buckets key) rate x.packetLen
          (if exceeded then some .rate else none,
            { locals with buckets := Function.update locals.buckets key (some slot) })

/-- `should_drop_global(..).or_else(|| should_drop_process(..))` -/
def limit (x : Offer) (locals : RecvLocals) : Option DropReason × RecvLocals :=
  match x.shouldDropGlobal locals with
  | (some reason, locals) => (some reason, locals)
  | (none, locals) => x.shouldDropProcess locals

/-- The rate that the global rule holds the packet to. -/
def globalRate (x : Offer) : Option ℚ :=
  if (x.policy.globalRule.blockAll && !x.isLoopback) = true ∨ x.packetLen = 0 then none
  else x.policy.globalRule.effectiveBps x.direction

/-- The packet's global bucket with what has accrued, and nothing charged. -/
def refilled (x : Offer) (locals : RecvLocals) (rate : ℚ) : BucketSlot :=
  let slot := (locals.globalBucket x.direction).getD (.new rate, x.globalAt)
  (((slot.1.setRate rate).refill (((x.globalAt - slot.2 : ℕ) : ℚ) / 10 ^ 9)), x.globalAt)

/-- What the packet takes from the global bucket of a direction beyond what has accrued. -/
def charge (x : Offer) (locals : RecvLocals) (direction : Direction) : ℚ :=
  if direction = x.direction then
    match x.globalRate with
    | none => 0
    | some rate =>
      (x.refilled locals rate).1.tokens -
        (((x.limit locals).2.globalBucket direction).getD (x.refilled locals rate)).1.tokens
  else 0

/-- The bytes of the packet, if the global rule holds its direction to a rate. -/
def limitedLen (x : Offer) (direction : Direction) : ℕ :=
  if direction = x.direction ∧ x.globalRate.isSome then x.packetLen else 0

/-- The bytes that are charged to the global budget of a direction. -/
def charged (direction : Direction) (locals : RecvLocals) : List Offer → ℚ
  | [] => 0
  | x :: xs => x.charge locals direction + charged direction (x.limit locals).2 xs

/-- The bytes under a global rate that both limiters pass. -/
def admitted (direction : Direction) (locals : RecvLocals) : List Offer → ℕ
  | [] => 0
  | x :: xs =>
    (if (x.limit locals).1 = none then x.limitedLen direction else 0) +
      admitted direction (x.limit locals).2 xs

/-- The bytes under a global rate that the global limiter passes and the other one drops. -/
def droppedByProcess (direction : Direction) (locals : RecvLocals) : List Offer → ℕ
  | [] => 0
  | x :: xs =>
    (if (x.shouldDropGlobal locals).1 = none ∧ (x.limit locals).1 ≠ none
      then x.limitedLen direction else 0) +
      droppedByProcess direction (x.limit locals).2 xs

/-- The global limiter refills the bucket of the packet's direction, and charges what it passes. -/
theorem shouldDropGlobal_globalBucket (x : Offer) (locals : RecvLocals) (direction : Direction) :
    (x.shouldDropGlobal locals).2.globalBucket direction =
      if direction = x.direction then
        match x.globalRate with
        | none => locals.globalBucket direction
        | some rate => some (
            if (x.shouldDropGlobal locals).1 = none then (x.refilled locals rate).debit x.packetLen
            else x.refilled locals rate)
      else locals.globalBucket direction := by
  unfold globalRate
  by_cases hblock : (x.policy.globalRule.blockAll && !x.isLoopback) = true
  · simp only [shouldDropGlobal, hblock, if_true, true_or, ite_self]
  by_cases hempty : x.packetLen = 0
  · simp only [shouldDropGlobal, hblock, hempty, Bool.false_eq_true, if_true, if_false, or_true,
      ite_self]
  simp only [shouldDropGlobal, hblock, hempty, Bool.false_eq_true, if_false, or_self]
  cases x.policy.globalRule.effectiveBps x.direction with
  | none => simp only [ite_self]
  | some rate =>
    simp only [RecvLocals.globalBucket_setGlobalBucket]
    by_cases hdirection : direction = x.direction
    · simp only [hdirection, if_true, refilled, BucketSlot.debit, consumeBucket,
        consumeExistingBucket, TokenBucket.tryConsume]
      split <;> simp
    · simp only [hdirection, if_false]

theorem shouldDropProcess_globalBucket (x : Offer) (locals : RecvLocals) (direction : Direction) :
    (x.shouldDropProcess locals).2.globalBucket direction = locals.globalBucket direction := by
  unfold shouldDropProcess
  cases x.pid with
  | none => rfl
  | some pid =>
    dsimp only
    cases x.policy.rules[pid]? with
    | none => rfl
    | some rule =>
      dsimp only
      split
      · rfl
      split
      · rfl
      split <;> cases direction <;> rfl

/-- The process limiter leaves what the global one did. -/
theorem limit_globalBucket (x : Offer) (locals : RecvLocals) (direction : Direction) :
    (x.limit locals).2.globalBucket direction =
      (x.shouldDropGlobal locals).2.globalBucket direction := by
  unfold limit
  split
  next h => rw [h]
  next h => rw [shouldDropProcess_globalBucket, h]

/-- A packet that the global limiter drops is dropped. -/
theorem limit_ne_none {x : Offer} {locals : RecvLocals}
    (h : (x.shouldDropGlobal locals).1 ≠ none) : (x.limit locals).1 ≠ none := by
  unfold limit
  split
  next hdrop => exact Option.some_ne_none _
  next hdrop => exact absurd (by rw [hdrop]) h

/-- A packet takes from the global budget its length if the global limiter passes it. -/
theorem charge_eq (x : Offer) (locals : RecvLocals) (direction : Direction) :
    x.charge locals direction =
      if (x.shouldDropGlobal locals).1 = none then (x.limitedLen direction : ℚ) else 0 := by
  unfold charge limitedLen
  rw [limit_globalBucket, shouldDropGlobal_globalBucket]
  by_cases hdirection : direction = x.direction
  · simp only [hdirection, if_true, true_and]
    cases x.globalRate with
    | none => simp
    | some rate =>
      by_cases hpass : (x.shouldDropGlobal locals).1 = none
      · simp [hpass, BucketSlot.debit]
      · simp [hpass]
  · simp [hdirection]

/-- Both limiters together: the global one charges a packet that it passes whatever the process
limiter decides, so that the bytes charged are those that both admit and those that the process
limiter drops. -/
theorem limit_charges_passed (x : Offer) (locals : RecvLocals) (direction : Direction)
    (xs : List Offer) :
    (x.limit locals).2.globalBucket direction =
        (if direction = x.direction then
          match x.globalRate with
          | none => locals.globalBucket direction
          | some rate => some (
              if (x.shouldDropGlobal locals).1 = none then
                (x.refilled locals rate).debit x.packetLen
              else x.refilled locals rate)
        else locals.globalBucket direction) ∧
      charged direction locals xs =
        admitted direction locals xs + droppedByProcess direction locals xs := by
  refine ⟨?_, ?_⟩
  · rw [limit_globalBucket, shouldDropGlobal_globalBucket]
  · induction xs generalizing locals with
    | nil => simp [charged, admitted, droppedByProcess]
    | cons x xs ih =>
      simp only [charged, admitted, droppedByProcess, charge_eq, ih, Nat.cast_add]
      by_cases hpass : (x.shouldDropGlobal locals).1 = none
      · by_cases hprocess : (x.limit locals).1 = none
        · simp only [hpass, hprocess, if_true, ne_eq, not_true_eq_false, and_false, if_false,
            Nat.cast_zero]
          ring
        · simp only [hpass, hprocess, if_true, if_false, ne_eq, not_false_eq_true, and_true,
            Nat.cast_zero]
          ring
      · simp only [hpass, limit_ne_none hpass, if_false, false_and, Nat.cast_zero]
        ring

/-- A packet of a process under a lower rate than the global one. -/
def throttledOffer : Offer where
  policy := {
    globalRule := { (default : GlobalRule) with limitDownload := true, downloadKbps := 2 }
    rules := (∅ : RuleMap).insert 7
      { (default : ProcessRule) with limitDownload := true, downloadKbps := 1 } }
  globalAt := 0
  processAt := 0
  pid := some 7
  direction := .download
  packetLen := 1500
  isLoopback := false

/-- The second packet of its kind passes the global limiter, is dropped by the other one, and is
charged all the same. -/
theorem not_atomic_throttledOffer :
    (¬ ∀ (x : Offer) (locals : RecvLocals) (rate : ℚ), x.globalRate = some rate →
      (x.shouldDropGlobal locals).1 = none →
      (x.shouldDropProcess (x.shouldDropGlobal locals).2).1 = some .rate →
      (x.limit locals).2.globalBucket x.direction = some (x.refilled locals rate)) ∧
    ¬ ∀ (direction : Direction) (locals : RecvLocals) (xs : List Offer),
      charged direction locals xs = admitted direction locals xs := by
  refine ⟨fun h => ?_, fun h => ?_⟩
  · have hbucket := h throttledOffer (throttledOffer.limit {}).2 2048 (by decide +kernel)
      (by decide +kernel) (by decide +kernel)
    have htokens := congrArg (Option.map (·.1.tokens)) hbucket
    exact absurd htokens (by decide +kernel)
  · exact absurd (h .download {} [throttledOffer, throttledOffer]) (by decide +kernel)

end Offer

/-- The packet of an admission at the limiters. -/
def State.offer (s : State) (a : Admission) : Offer where
  policy := s.policy
  globalAt := s.now
  processAt := s.now
  pid := a.pid
  direction := a.direction
  packetLen := a.chargeLen
  isLoopback := a.isLoopback

/-- The receiver's stages run the limiters in turn. -/
theorem State.runStage_limitGlobal (s : State) (env : Env) (a : Admission) :
    s.runStage env (.limitGlobal a) =
      match (s.offer a).shouldDropGlobal s.locals with
      | (some reason, locals) => (.drop reason, locals, false)
      | (none, locals) => (.continue (.limitProcess a), locals, false) := by
  simp only [runStage, Offer.shouldDropGlobal, State.offer]
  by_cases hblock : (s.policy.globalRule.blockAll && !a.isLoopback) = true
  · simp only [hblock, if_true]
  by_cases hempty : a.chargeLen = 0
  · simp only [hblock, hempty, Bool.false_eq_true, if_true, if_false]
  simp only [hblock, hempty, Bool.false_eq_true, if_false]
  cases s.policy.globalRule.effectiveBps a.direction with
  | none => rfl
  | some rate =>
    have hdirection : a.direction = .download ∨ a.direction = .upload := by
      cases a.direction <;> simp
    rcases hdirection with hdirection | hdirection <;>
      simp only [hdirection, RecvLocals.globalBucket, RecvLocals.setGlobalBucket] <;>
      split <;> rfl

theorem State.runStage_limitProcess (s : State) (env : Env) (a : Admission) :
    s.runStage env (.limitProcess a) =
      match (s.offer a).shouldDropProcess s.locals with
      | (some reason, locals) => (.drop reason, locals, false)
      | (none, locals) => (.admitted a, locals, false) := by
  simp only [runStage, Offer.shouldDropProcess, State.offer]
  cases a.pid with
  | none => rfl
  | some pid =>
    dsimp only
    cases s.policy.rules[pid]? with
    | none => rfl
    | some rule =>
      by_cases hblock : (rule.blockAll && !a.isLoopback) = true
      · simp only [hblock, if_true]
      by_cases hempty : a.chargeLen = 0
      · simp only [hblock, hempty, Bool.false_eq_true, if_true, if_false]
      simp only [hblock, hempty, Bool.false_eq_true, if_false]
      cases rule.effectiveBps a.direction with
      | none => rfl
      | some rate =>
        dsimp only
        by_cases hexceeded :
            (consumeBucket s.now (s.locals.buckets (pid, a.direction)) rate a.chargeLen).1 = true
        · simp only [hexceeded, if_true]
        · simp only [hexceeded, Bool.false_eq_true, if_false]

end FlowBrake.Windows
