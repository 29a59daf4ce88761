import Std.Data.ExtTreeMap
import Std.Data.ExtTreeSet
import FlowBrake.Core.Input

/-! The settings file: what the application keeps between its runs, and how it is written and
read back. -/
namespace FlowBrake.Ui
open FlowBrake.Core Text

inductive LanguagePreference
  | system
  | simplifiedChinese
  | english
  deriving DecidableEq

namespace LanguagePreference

def asStr : LanguagePreference → Text
  | system => "system".toList
  | simplifiedChinese => "zh-CN".toList
  | english => "en".toList

def fromConfig (value : Text) : LanguagePreference :=
  if value = "zh-CN".toList then simplifiedChinese
  else if value = "en".toList then english
  else system

end LanguagePreference

/-- The `f32` values that the settings hold, with `Display` and `FromStr`. -/
class F32 (F : Type) where
  ofInt : ℤ → F
  lt : F → F → Bool
  display : F → Text
  parse : Text → Option F

/-- `Display` writes no white space and no control character, and `FromStr` reads it back. -/
class LawfulF32 (F : Type) [F32 F] : Prop where
  parse_display : ∀ x : F, F32.parse (F32.display x) = some x
  plain : ∀ x : F, ∀ c ∈ F32.display x, isWhitespace c = false ∧ isControl c = false

/-- Whole numbers that an `f32` holds exactly are compared as they are. -/
class OrderedF32 (F : Type) [F32 F] : Prop extends LawfulF32 F where
  lt_ofInt : ∀ a b : ℤ, a.natAbs ≤ 2 ^ 24 → b.natAbs ≤ 2 ^ 24 →
    F32.lt (F32.ofInt a : F) (F32.ofInt b) = decide (a < b)

/-- The whole numbers that an `f32` holds exactly. -/
structure WholeF32 where
  value : ℤ
  exact : value.natAbs ≤ 2 ^ 24
  deriving DecidableEq

namespace WholeF32

def ofInt (value : ℤ) : WholeF32 := ⟨max (-2 ^ 24) (min value (2 ^ 24)), by omega⟩

def display (x : WholeF32) : Text :=
  if x.value < 0 then '-' :: Nat.toDigits 10 x.value.natAbs
  else Nat.toDigits 10 x.value.natAbs

def parse : Text → Option WholeF32
  | '-' :: t => (parseUnsigned (2 ^ 24 + 1) t).map fun (n : ℕ) => ofInt (-n)
  | t => (parseUnsigned (2 ^ 24 + 1) t).map fun (n : ℕ) => ofInt n

theorem ofInt_value (x : WholeF32) : ofInt x.value = x := by
  obtain ⟨value, h⟩ := x
  simp only [ofInt, mk.injEq]
  omega

theorem parse_display (x : WholeF32) : parse x.display = some x := by
  have hparse := parseUnsigned_toDigits (Nat.lt_succ_of_le x.exact)
  unfold display
  split
  · next hneg =>
    have habs : -(x.value.natAbs : ℤ) = x.value := by omega
    rw [parse, hparse, Option.map_some, habs, ofInt_value]
  · next hpos =>
    have habs : (x.value.natAbs : ℤ) = x.value := by omega
    rw [parse, hparse, Option.map_some, habs, ofInt_value]
    intro t ht
    have hm : '-' ∈ Nat.toDigits 10 x.value.natAbs := by simp [ht]
    exact absurd (isDigit_of_mem_toDigits hm) (by decide)

theorem mem_display {x : WholeF32} {c : Char} (h : c ∈ x.display) : c = '-' ∨ c.isDigit = true := by
  unfold display at h
  split at h
  · exact (List.mem_cons.mp h).imp_right isDigit_of_mem_toDigits
  · exact .inr (isDigit_of_mem_toDigits h)

instance : F32 WholeF32 where
  ofInt := ofInt
  lt x y := x.value < y.value
  display := display
  parse := parse

instance : LawfulF32 WholeF32 where
  parse_display := parse_display
  plain x c hc := by
    rcases mem_display hc with rfl | h
    · decide
    · exact ⟨isWhitespace_of_isDigit h, isControl_of_isDigit h⟩

instance : OrderedF32 WholeF32 where
  lt_ofInt a b ha hb := by
    have hvalue (n : ℤ) (hn : n.natAbs ≤ 2 ^ 24) : (ofInt n).value = n := by
      simp only [ofInt]
      omega
    change decide ((ofInt a).value < (ofInt b).value) = _
    rw [hvalue a ha, hvalue b hb]

end WholeF32

section
variable {F : Type} [F32 F]

def clamp (x min max : F) : F :=
  let x := if F32.lt x min then min else x
  if F32.lt max x then max else x

variable (F)

def minWindowWidth : F := F32.ofInt 900

def minWindowHeight : F := F32.ofInt 500

def maxWindowSide : F := F32.ofInt 10000

end

abbrev NameRules := Std.ExtTreeMap Text ProcessRule

/-- The rule fields read so far, under their scope. -/
abbrev RuleEntries := Std.ExtTreeMap Text (Std.ExtTreeMap Text Text)

structure AppSettings (F : Type) [F32 F] where
  language : LanguagePreference := .system
  speedUnitBits : Bool := true
  ipv6Enabled : Bool := true
  windowWidth : F := F32.ofInt 1180
  windowHeight : F := F32.ofInt 700
  windowX : F := F32.ofInt (-1)
  windowY : F := F32.ofInt (-1)
  windowMaximized : Bool := false
  globalRule : ProcessRule := {}
  nameRules : NameRules := ∅
  expanded : Std.ExtTreeSet Text := ∅

section Keys

def languageKey : Text := "language".toList
def speedUnitBitsKey : Text := "speed_unit_bits".toList
def ipv6EnabledKey : Text := "ipv6_enabled".toList
def windowWidthKey : Text := "window_width".toList
def windowHeightKey : Text := "window_height".toList
def windowXKey : Text := "window_x".toList
def windowYKey : Text := "window_y".toList
def windowMaximizedKey : Text := "window_maximized".toList
def expandedKey : Text := "expanded".toList

/-- The scope under which the global rule's fields are collected. -/
def globalScope : Text := "global".toList

def globalPrefix : Text := "global.".toList
def rulePrefix : Text := "rule.".toList

end Keys

def parseBool (value : Text) : Bool :=
  value = "1".toList || value = "true".toList || value = "yes".toList

def boolText (value : Bool) : Text := if value then "true".toList else "false".toList

def parseU16 (value : Text) : Option UInt16 := (parseUnsigned (2 ^ 16) value).map UInt16.ofNat

def parseU32 (value : Text) : Option UInt32 := (parseUnsigned (2 ^ 32) value).map UInt32.ofNat

section Fields

def flagField (get : Text → Option Text) (field : String) : Bool :=
  (get field.toList).any parseBool

def rateField (get : Text → Option Text) (field : String) : UInt32 :=
  ((get field.toList).bind parseU32).getD 0

def lossField (get : Text → Option Text) (field : String) : Option UInt16 :=
  ((get field.toList).bind parseU16).filter (· ≤ 10000)

def delayField (get : Text → Option Text) (field : String) : Option UInt32 :=
  (get field.toList).bind fun value => (parseDelayMs value).toOption.join

/-- `parse_rule_fields`, of which the fields are looked up by `get`. -/
def ruleOfFields (get : Text → Option Text) : ProcessRule where
  blockAll := flagField get "block_all"
  limitDownload := flagField get "limit_download"
  downloadKbps := rateField get "download_kbps"
  limitUpload := flagField get "limit_upload"
  uploadKbps := rateField get "upload_kbps"
  adaptive := flagField get "adaptive"
  downloadLossBasisPoints := lossField get "download_loss_basis_points"
  uploadLossBasisPoints := lossField get "upload_loss_basis_points"
  downloadDelayMs := delayField get "download_delay_ms"
  uploadDelayMs := delayField get "upload_delay_ms"
  adjustedDlBps := 0
  adjustedUlBps := 0

def parseRuleFields (fields : Std.ExtTreeMap Text Text) : ProcessRule :=
  ruleOfFields (fields[·]?)

end Fields

section Writing

/-- The fields of a rule that are written, with their texts. -/
def ruleFields (rule : ProcessRule) : List (Text × Text) :=
  [("block_all".toList, boolText rule.blockAll),
    ("limit_download".toList, boolText rule.limitDownload),
    ("download_kbps".toList, Nat.toDigits 10 rule.downloadKbps.toNat),
    ("limit_upload".toList, boolText rule.limitUpload),
    ("upload_kbps".toList, Nat.toDigits 10 rule.uploadKbps.toNat),
    ("adaptive".toList, boolText rule.adaptive)]
  ++ (rule.downloadLossBasisPoints.map fun value =>
    ("download_loss_basis_points".toList, Nat.toDigits 10 value.toNat)).toList
  ++ (rule.uploadLossBasisPoints.map fun value =>
    ("upload_loss_basis_points".toList, Nat.toDigits 10 value.toNat)).toList
  ++ (rule.downloadDelayMs.map fun value =>
    ("download_delay_ms".toList, Nat.toDigits 10 value.toNat)).toList
  ++ (rule.uploadDelayMs.map fun value =>
    ("upload_delay_ms".toList, Nat.toDigits 10 value.toNat)).toList

/-- `{key}={value}` -/
def keyLine (key value : Text) : Text := key ++ '=' :: value

/-- `{prefix}.{field}={value}` -/
def fieldLine (scope : Text) (field : Text × Text) : Text :=
  keyLine (scope ++ '.' :: field.1) field.2

/-- `append_rule_lines` -/
def ruleLines (scope : Text) (rule : ProcessRule) : List Text :=
  if !rule.hasAnyRule && scope != globalScope then []
  else (ruleFields rule).map (fieldLine scope)

variable {F : Type} [F32 F]

def AppSettings.headerLines (s : AppSettings F) : List Text :=
  [keyLine languageKey s.language.asStr,
    keyLine speedUnitBitsKey (boolText s.speedUnitBits),
    keyLine ipv6EnabledKey (boolText s.ipv6Enabled),
    keyLine windowWidthKey (F32.display s.windowWidth),
    keyLine windowHeightKey (F32.display s.windowHeight),
    keyLine windowXKey (F32.display s.windowX),
    keyLine windowYKey (F32.display s.windowY),
    keyLine windowMaximizedKey (boolText s.windowMaximized)]
  ++ if s.expanded.isEmpty then []
    else [keyLine expandedKey ([','].intercalate s.expanded.toList)]

def nameRuleLines (nameRules : NameRules) : List Text :=
  nameRules.toList.flatMap fun (name, rule) => ruleLines (rulePrefix ++ name) rule

def AppSettings.toLines (s : AppSettings F) : List Text :=
  ["# FlowBrake settings".toList] ++ s.headerLines ++ ruleLines globalScope s.globalRule
    ++ nameRuleLines s.nameRules

def AppSettings.toContents (s : AppSettings F) : Text := unlines s.toLines

end Writing

section Reading
variable {F : Type} [F32 F]

/-- The variables of `from_contents`. -/
structure Reading (F : Type) [F32 F] where
  settings : AppSettings F := {}
  ruleEntries : RuleEntries := ∅

/-- `rule_entries.entry(scope).or_default().insert(field, value)` -/
def insertField (entries : RuleEntries) (scope field value : Text) : RuleEntries :=
  entries.alter scope fun fields => some ((fields.getD ∅).insert field value)

/-- `value.split(',').map(str::trim).filter(|name| !name.is_empty()).map(str::to_lowercase)` -/
def readNames (lower : Text → Text) (value : Text) : Std.ExtTreeSet Text :=
  .ofList ((((value.splitOn ',').map trim).filter (!·.isEmpty)).map lower)

/-- The arms of the `match` on a line's key that set a preference; `none` for the other keys. -/
def AppSettings.setKey (lower : Text → Text) (s : AppSettings F) (key value : Text) :
    Option (AppSettings F) :=
  if key = languageKey then some { s with language := .fromConfig value }
  else if key = speedUnitBitsKey then some { s with speedUnitBits := parseBool value }
  else if key = ipv6EnabledKey then some { s with ipv6Enabled := parseBool value }
  else if key = windowWidthKey then
    some ((F32.parse value).elim s fun width =>
      { s with windowWidth := clamp width (minWindowWidth F) (maxWindowSide F) })
  else if key = windowHeightKey then
    some ((F32.parse value).elim s fun height =>
      { s with windowHeight := clamp height (minWindowHeight F) (maxWindowSide F) })
  else if key = windowXKey then
    some ((F32.parse value).elim s fun windowX => { s with windowX })
  else if key = windowYKey then
    some ((F32.parse value).elim s fun windowY => { s with windowY })
  else if key = windowMaximizedKey then some { s with windowMaximized := parseBool value }
  else if key = expandedKey then some { s with expanded := readNames lower value }
  else none

/-- The arms for the fields of rules: the scope and the name of the field. -/
def ruleKey (lower : Text → Text) (key : Text) : Option (Text × Text) :=
  match key.dropPrefix? globalPrefix with
  | some field => some (globalScope, field)
  | none =>
    match (key.dropPrefix? rulePrefix).bind (rsplitOnce '.') with
    | some (name, field) =>
      let name := lower (trim name)
      if name.isEmpty then none else some (name, trim field)
    | none => none

def Reading.setKey (lower : Text → Text) (r : Reading F) (key value : Text) : Reading F :=
  match r.settings.setKey lower key value with
  | some settings => { r with settings }
  | none =>
    match ruleKey lower key with
    | some (scope, field) =>
      { r with ruleEntries := insertField r.ruleEntries scope field value }
    | none => r

/-- The body of the loop over the lines. -/
def Reading.readLine (lower : Text → Text) (r : Reading F) (line : Text) : Reading F :=
  let line := trim line
  if line.isEmpty || line.head? = some '#' then r
  else
    match splitOnce '=' line with
    | some (key, value) => r.setKey lower (trim key) (trim value)
    | none => r

def Reading.globalRule (r : Reading F) : ProcessRule :=
  match r.ruleEntries[globalScope]? with
  | some fields => parseRuleFields fields
  | none => r.settings.globalRule

def Reading.nameRules (r : Reading F) : NameRules :=
  (r.ruleEntries.erase globalScope).filterMap fun _ fields =>
    let rule := parseRuleFields fields
    if rule.hasAnyRule then some rule else none

def Reading.finish (r : Reading F) : AppSettings F :=
  { r.settings with globalRule := r.globalRule, nameRules := r.nameRules }

/-- Every name is lower-cased by `lower`. -/
def AppSettings.fromContents (lower : Text → Text) (contents : Text) : AppSettings F :=
  ((lines contents).foldl (Reading.readLine lower) {}).finish

/-- `contents` is what the settings file holds, if it can be read. -/
def AppSettings.load (lower : Text → Text) (contents : Option Text) : AppSettings F :=
  contents.elim {} (.fromContents lower)

/-- What the next start of the application reads of the settings saved by this one. -/
def AppSettings.reload (lower : Text → Text) (s : AppSettings F) : AppSettings F :=
  .fromContents lower s.toContents

end Reading

end FlowBrake.Ui
