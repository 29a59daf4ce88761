import Mathlib.Data.Rat.Defs
import Mathlib.Algebra.Order.Field.Rat
import Std.Data.ExtTreeMap

/-! Traffic rules: what a process or the whole machine is held to. Rates are exact
rationals in place of `f64`. -/
namespace FlowBrake.Core

/-- Delays are whole milliseconds up to this bound. -/
def maxDelayMs : UInt32 := 5000

inductive Direction
  | download
  | upload
  deriving DecidableEq, Repr

structure ProcessRule where
  blockAll : Bool := false
  limitDownload : Bool := false
  downloadKbps : UInt32 := 0
  limitUpload : Bool := false
  uploadKbps : UInt32 := 0
  adaptive : Bool := false
  downloadLossBasisPoints : Option UInt16 := none
  uploadLossBasisPoints : Option UInt16 := none
  downloadDelayMs : Option UInt32 := none
  uploadDelayMs : Option UInt32 := none
  adjustedDlBps : ℚ := 0
  adjustedUlBps : ℚ := 0
  deriving DecidableEq

instance : Inhabited ProcessRule := ⟨{}⟩

abbrev GlobalRule := ProcessRule

/-- The rules of processes, under their PIDs. -/
abbrev RuleMap := Std.ExtTreeMap UInt32 ProcessRule

namespace ProcessRule

def hasAnyRule (rule : ProcessRule) : Bool :=
  rule.blockAll
    || rule.limitDownload
    || rule.downloadKbps > 0
    || rule.limitUpload
    || rule.uploadKbps > 0
    || rule.adaptive
    || rule.downloadLossBasisPoints.isSome
    || rule.uploadLossBasisPoints.isSome
    || rule.downloadDelayMs.isSome
    || rule.uploadDelayMs.isSome

def lossBasisPoints (rule : ProcessRule) : Direction → Option UInt16
  | .download => rule.downloadLossBasisPoints
  | .upload => rule.uploadLossBasisPoints

def delayMs (rule : ProcessRule) : Direction → Option UInt32
  | .download => rule.downloadDelayMs
  | .upload => rule.uploadDelayMs

def targetBps (rule : ProcessRule) : Direction → Option ℚ
  | .download =>
    if rule.limitDownload && rule.downloadKbps > 0 then some (rule.downloadKbps.toNat * 1024)
    else none
  | .upload =>
    if rule.limitUpload && rule.uploadKbps > 0 then some (rule.uploadKbps.toNat * 1024)
    else none

def effectiveBps (rule : ProcessRule) (direction : Direction) : Option ℚ := do
  let target ← rule.targetBps direction
  if !rule.adaptive then return target
  let adjusted := match direction with
    | .download => rule.adjustedDlBps
    | .upload => rule.adjustedUlBps
  return if adjusted > 0 then adjusted else target

/-- The fields that outlive the adaptation to a measured rate. -/
def persisted (rule : ProcessRule) : ProcessRule :=
  { rule with adjustedDlBps := 0, adjustedUlBps := 0 }

/-- A rule with no active field is kept as no rule at all. -/
def active (rule : ProcessRule) : ProcessRule := if rule.hasAnyRule then rule else default

@[simp] theorem hasAnyRule_default : (default : ProcessRule).hasAnyRule = false := rfl

theorem active_of_hasAnyRule {rule : ProcessRule} (h : rule.hasAnyRule) : rule.active = rule :=
  if_pos h

theorem active_of_not_hasAnyRule {rule : ProcessRule} (h : ¬ rule.hasAnyRule) :
    rule.active = default :=
  if_neg h

@[simp] theorem persisted_default : (default : ProcessRule).persisted = default := rfl

@[simp] theorem active_default : (default : ProcessRule).active = default := rfl

theorem active_eq_default_iff (rule : ProcessRule) : rule.active = default ↔ ¬ rule.hasAnyRule := by
  refine ⟨fun h hr => ?_, active_of_not_hasAnyRule⟩
  rw [active_of_hasAnyRule hr] at h
  subst h
  cases hr

theorem persisted_of_not_hasAnyRule {rule : ProcessRule} (h : ¬ rule.hasAnyRule) :
    rule.persisted = default := by
  simp only [hasAnyRule, Bool.or_eq_true, not_or, Bool.not_eq_true, Option.isSome_eq_false_iff,
    Option.isNone_iff_eq_none, decide_eq_true_eq] at h
  obtain ⟨⟨⟨⟨⟨⟨⟨⟨⟨hblock, hdl⟩, hdlKbps⟩, hul⟩, hulKbps⟩, hadaptive⟩, hdlLoss⟩, hulLoss⟩,
    hdlDelay⟩, hulDelay⟩ := h
  rw [persisted, hblock, hdl, UInt32.le_zero_iff.mp (UInt32.not_lt.mp hdlKbps), hul,
    UInt32.le_zero_iff.mp (UInt32.not_lt.mp hulKbps), hadaptive, hdlLoss, hulLoss, hdlDelay,
    hulDelay]
  rfl

end ProcessRule

/-- Token bucket of two seconds' burst. -/
structure TokenBucket where
  tokens : ℚ
  maxTokens : ℚ
  rateBps : ℚ

namespace TokenBucket

def new (rateBps : ℚ) : TokenBucket :=
  let burst := max (rateBps * 2) 0
  ⟨burst, burst, max rateBps 0⟩

def setRate (bucket : TokenBucket) (rateBps : ℚ) : TokenBucket :=
  let rate := max rateBps 0
  let maxTokens := rate * 2
  let tokens := if bucket.tokens > maxTokens then maxTokens else bucket.tokens
  ⟨tokens, maxTokens, rate⟩

/-- `elapsed` is in seconds. -/
def refill (bucket : TokenBucket) (elapsed : ℚ) : TokenBucket :=
  { bucket with tokens := min (bucket.tokens + bucket.rateBps * elapsed) bucket.maxTokens }

def tryConsume (bucket : TokenBucket) (bytes : ℕ) (elapsed : ℚ) : Bool × TokenBucket :=
  let bucket := bucket.refill elapsed
  if bucket.tokens ≥ bytes then (true, { bucket with tokens := bucket.tokens - bytes })
  else (false, bucket)

end TokenBucket

end FlowBrake.Core
