import Mathlib.Data.List.Nodup
import FlowBrake.Ui.Settings

/-! What reading a written line does. -/
namespace FlowBrake.Ui
open FlowBrake.Core Text

/-- A field of a rule as it was read: its scope, its name and its text. -/
structure FieldEntry where
  scope : Text
  field : Text
  value : Text
  deriving DecidableEq

def addEntry (entries : RuleEntries) (entry : FieldEntry) : RuleEntries :=
  insertField entries entry.scope entry.field entry.value

def lookup (entries : RuleEntries) (scope field : Text) : Option Text :=
  entries[scope]?.bind (·[field]?)

section Entries
variable {entries : RuleEntries} {es : List FieldEntry} {scope field value : Text}

theorem lookup_addEntry (entries : RuleEntries) (entry : FieldEntry) (scope field : Text) :
    lookup (addEntry entries entry) scope field =
      if entry.scope = scope ∧ entry.field = field then some entry.value
      else lookup entries scope field := by
  rw [lookup, addEntry, insertField, Std.ExtTreeMap.getElem?_alter]
  by_cases hs : entry.scope = scope
  · subst hs
    by_cases hf : entry.field = field
    · simp [hf]
    · cases he : entries[entry.scope]? <;>
        simp [hf, he, lookup, Std.ExtTreeMap.getElem?_insert]
  · simp [hs, lookup]

theorem mem_addEntry (entries : RuleEntries) (entry : FieldEntry) (scope : Text) :
    scope ∈ addEntry entries entry ↔ entry.scope = scope ∨ scope ∈ entries := by
  rw [Std.ExtTreeMap.mem_iff_isSome_getElem?, addEntry, insertField,
    Std.ExtTreeMap.getElem?_alter]
  by_cases hs : entry.scope = scope
  · simp [hs]
  · simp [hs]

theorem mem_foldl_addEntry : scope ∈ es.foldl addEntry entries ↔
    (∃ entry ∈ es, entry.scope = scope) ∨ scope ∈ entries := by
  induction es generalizing entries with
  | nil => simp
  | cons entry es ih => simp [ih, mem_addEntry, or_assoc, or_left_comm]

/-- Entries of other fields leave a field as it is. -/
theorem lookup_foldl_of_ne (h : ∀ entry ∈ es, entry.scope = scope → entry.field ≠ field) :
    lookup (es.foldl addEntry entries) scope field = lookup entries scope field := by
  induction es generalizing entries with
  | nil => rfl
  | cons entry es ih =>
    rw [List.foldl_cons, ih fun e he => h e (List.mem_cons_of_mem _ he), lookup_addEntry, if_neg]
    rintro ⟨hs, hf⟩
    exact h entry List.mem_cons_self hs hf

/-- A field that is given keeps one of the texts it is given. -/
theorem lookup_foldl_of_mem (entries : RuleEntries)
    (h : ∃ entry ∈ es, entry.scope = scope ∧ entry.field = field) :
    ∃ entry ∈ es, entry.scope = scope ∧ entry.field = field ∧
      lookup (es.foldl addEntry entries) scope field = some entry.value := by
  induction es generalizing entries with
  | nil => simp at h
  | cons entry es ih =>
    by_cases hes : ∃ entry ∈ es, entry.scope = scope ∧ entry.field = field
    · obtain ⟨e, he, hs, hf, hl⟩ := ih (addEntry entries entry) hes
      exact ⟨e, List.mem_cons_of_mem _ he, hs, hf, hl⟩
    · have hentry : entry.scope = scope ∧ entry.field = field := by
        obtain ⟨e, he, hef⟩ := h
        rcases List.mem_cons.mp he with rfl | he
        · exact hef
        · exact absurd ⟨e, he, hef⟩ hes
      refine ⟨entry, List.mem_cons_self, hentry.1, hentry.2, ?_⟩
      rw [List.foldl_cons, lookup_foldl_of_ne fun e he hs hf => hes ⟨e, he, hs, hf⟩,
        lookup_addEntry, if_pos hentry]

/-- A field that is given one text at most is read as that text. -/
theorem lookup_foldl_eq_some
    (h : ∀ e ∈ es, ∀ e' ∈ es, e.scope = scope → e'.scope = scope → e.field = field →
      e'.field = field → e.value = e'.value) :
    lookup (es.foldl addEntry ∅) scope field = some value ↔ ⟨scope, field, value⟩ ∈ es := by
  by_cases hes : ∃ entry ∈ es, entry.scope = scope ∧ entry.field = field
  · obtain ⟨e, he, hs, hf, hl⟩ := lookup_foldl_of_mem ∅ hes
    rw [hl, Option.some.injEq]
    constructor
    · rintro rfl
      rwa [← hs, ← hf]
    · exact fun hm => h e he _ hm hs rfl hf rfl
  · rw [lookup_foldl_of_ne fun e he hs hf => hes ⟨e, he, hs, hf⟩]
    constructor
    · intro hl
      simp [lookup] at hl
    · exact fun hm => absurd ⟨_, hm, rfl, rfl⟩ hes

end Entries

section Fields

/-- The field names of a rule. -/
def fieldNames : List Text :=
  ["block_all", "limit_download", "download_kbps", "limit_upload", "upload_kbps", "adaptive",
    "download_loss_basis_points", "upload_loss_basis_points", "download_delay_ms",
    "upload_delay_ms"].map String.toList

theorem fieldNames_nodup : fieldNames.Nodup := by decide

theorem fieldNames_plain : ∀ f ∈ fieldNames, Trimmed f ∧ f ≠ [] ∧ '.' ∉ f ∧ '=' ∉ f := by
  decide

theorem ruleFields_sublist (rule : ProcessRule) :
    ((ruleFields rule).map Prod.fst).Sublist fieldNames := by
  have hopt {α : Type} (o : Option α) (name : Text) (text : α → Text) :
      ((o.map fun value => (name, text value)).toList.map Prod.fst).Sublist [name] := by
    cases o <;> simp
  have hnames : fieldNames = ["block_all", "limit_download", "download_kbps", "limit_upload",
      "upload_kbps", "adaptive"].map String.toList ++ ["download_loss_basis_points".toList] ++
      ["upload_loss_basis_points".toList] ++ ["download_delay_ms".toList] ++
      ["upload_delay_ms".toList] := rfl
  rw [hnames]
  simp only [ruleFields, List.map_append]
  exact ((((List.Sublist.refl _).append (hopt _ _ _)).append (hopt _ _ _)).append
    (hopt _ _ _)).append (hopt _ _ _)

theorem ruleFields_name {rule : ProcessRule} {field : Text × Text} (h : field ∈ ruleFields rule) :
    field.1 ∈ fieldNames :=
  (ruleFields_sublist rule).subset (List.mem_map_of_mem h)

/-- No field is written twice. -/
theorem ruleFields_functional {rule : ProcessRule} {field field' : Text × Text}
    (h : field ∈ ruleFields rule) (h' : field' ∈ ruleFields rule) (hf : field.1 = field'.1) :
    field = field' := by
  exact List.inj_on_of_nodup_map (fieldNames_nodup.sublist (ruleFields_sublist rule)) h h' hf

/-- The texts of fields are words or numbers. -/
theorem ruleFields_value {rule : ProcessRule} {field : Text × Text} (h : field ∈ ruleFields rule) :
    (∃ b, field.2 = boolText b) ∨ ∃ n, field.2 = Nat.toDigits 10 n := by
  simp only [ruleFields, List.mem_append, List.mem_cons, List.not_mem_nil, or_false,
    Option.mem_toList, Option.map_eq_some_iff] at h
  rcases h with ((((h | ⟨n, -, rfl⟩) | ⟨n, -, rfl⟩) | ⟨n, -, rfl⟩) | ⟨n, -, rfl⟩)
  · rcases h with rfl | rfl | rfl | rfl | rfl | rfl
    exacts [.inl ⟨_, rfl⟩, .inl ⟨_, rfl⟩, .inr ⟨_, rfl⟩, .inl ⟨_, rfl⟩, .inr ⟨_, rfl⟩,
      .inl ⟨_, rfl⟩]
  all_goals exact .inr ⟨_, rfl⟩

theorem ruleFields_plain {rule : ProcessRule} {field : Text × Text} (h : field ∈ ruleFields rule) :
    Trimmed field.2 ∧ field.2 ≠ [] ∧ ∀ c ∈ field.2, isControl c = false := by
  have hbool : ∀ b, Trimmed (boolText b) ∧ boolText b ≠ [] ∧ ∀ c ∈ boolText b,
      isControl c = false := by decide
  rcases ruleFields_value h with ⟨b, hb⟩ | ⟨n, hn⟩
  · exact hb ▸ hbool b
  · rw [hn]
    exact ⟨trimmed_toDigits, Nat.toDigits_ne_nil,
      fun c hc => isControl_of_isDigit (isDigit_of_mem_toDigits hc)⟩

end Fields

/-- A rule that the application can hold while it is not adapting. -/
structure InRange (rule : ProcessRule) : Prop where
  downloadLoss : ∀ value ∈ rule.downloadLossBasisPoints, value ≤ 10000
  uploadLoss : ∀ value ∈ rule.uploadLossBasisPoints, value ≤ 10000
  downloadDelay : ∀ value ∈ rule.downloadDelayMs, value ≤ maxDelayMs
  uploadDelay : ∀ value ∈ rule.uploadDelayMs, value ≤ maxDelayMs
  unadjusted : rule = { rule with adjustedDlBps := 0, adjustedUlBps := 0 }

section Values
variable {get : Text → Option Text} {name : String}

theorem flagField_eq {value : Bool} (h : get name.toList = some (boolText value)) :
    flagField get name = value := by
  rw [flagField, h]
  cases value <;> decide

theorem rateField_eq {value : UInt32} (h : get name.toList = some (Nat.toDigits 10 value.toNat)) :
    rateField get name = value := by
  rw [rateField, h, Option.bind_some, parseU32, parseUnsigned_toDigits (UInt32.toNat_lt value)]
  simp

theorem lossField_eq {value : Option UInt16} (hle : ∀ v ∈ value, v ≤ 10000)
    (h : ∀ text, get name.toList = some text ↔
      ∃ v, value = some v ∧ Nat.toDigits 10 v.toNat = text) : lossField get name = value := by
  cases value with
  | none =>
    have hnone : get name.toList = none := Option.eq_none_iff_forall_not_mem.mpr (by simpa using h)
    simp [lossField, hnone]
  | some v =>
    rw [lossField, (h _).mpr ⟨v, rfl, rfl⟩, Option.bind_some, parseU16,
      parseUnsigned_toDigits (UInt16.toNat_lt v)]
    simp [hle v rfl]

theorem delayField_eq {value : Option UInt32} (hle : ∀ v ∈ value, v ≤ maxDelayMs)
    (h : ∀ text, get name.toList = some text ↔
      ∃ v, value = some v ∧ Nat.toDigits 10 v.toNat = text) : delayField get name = value := by
  cases value with
  | none =>
    have hnone : get name.toList = none := Option.eq_none_iff_forall_not_mem.mpr (by simpa using h)
    simp [delayField, hnone]
  | some v =>
    rw [delayField, (h _).mpr ⟨v, rfl, rfl⟩, Option.bind_some, parseDelayMs_toDigits (hle v rfl)]
    rfl

/-- A rule is read back from exactly the fields that are written of it. -/
theorem ruleOfFields_eq {rule : ProcessRule} (hr : InRange rule)
    (h : ∀ field ∈ fieldNames, ∀ value,
      get field = some value ↔ (field, value) ∈ ruleFields rule) :
    ruleOfFields get = rule := by
  have hflag {name : String} (value : Bool) (hm : (name.toList, boolText value) ∈ ruleFields rule) :
      flagField get name = value := flagField_eq ((h _ (ruleFields_name hm) _).mpr hm)
  have hrate {name : String} (value : UInt32)
      (hm : (name.toList, Nat.toDigits 10 value.toNat) ∈ ruleFields rule) :
      rateField get name = value := rateField_eq ((h _ (ruleFields_name hm) _).mpr hm)
  rw [ruleOfFields, hflag rule.blockAll (by simp [ruleFields]),
    hflag rule.limitDownload (by simp [ruleFields]),
    hrate rule.downloadKbps (by simp [ruleFields]),
    hflag rule.limitUpload (by simp [ruleFields]),
    hrate rule.uploadKbps (by simp [ruleFields]),
    hflag rule.adaptive (by simp [ruleFields]),
    lossField_eq hr.downloadLoss fun _ =>
      (h _ (by decide) _).trans (by simp [ruleFields]),
    lossField_eq hr.uploadLoss fun _ =>
      (h _ (by decide) _).trans (by simp [ruleFields]),
    delayField_eq hr.downloadDelay fun _ =>
      (h _ (by decide) _).trans (by simp [ruleFields]),
    delayField_eq hr.uploadDelay fun _ =>
      (h _ (by decide) _).trans (by simp [ruleFields])]
  exact hr.unadjusted.symm
end Values

section Reading
variable {F : Type} [F32 F] (lower : Text → Text) (r : Reading F)

def Reading.addEntry (r : Reading F) (entry : FieldEntry) : Reading F :=
  { r with ruleEntries := Ui.addEntry r.ruleEntries entry }

/-- What the name `n` turns a line of its rule into: with `=` in it, the key ends there. -/
def nameEntry (n : Text) (field : Text × Text) : Option FieldEntry :=
  match splitOnce '=' n with
  | none => (ruleKey lower (rulePrefix ++ (n ++ '.' :: field.1))).map fun (scope, f) =>
      ⟨scope, f, field.2⟩
  | some (a, b) => (ruleKey lower (rulePrefix ++ trimEnd a)).map fun (scope, f) =>
      ⟨scope, f, trim (b ++ '.' :: keyLine field.1 field.2)⟩

variable {lower} {r}

theorem readLine_of_trimmed {key value : Text} (htrim : Trimmed (keyLine key value))
    (hne : key ≠ []) (hhash : key.head? ≠ some '#') (heq : '=' ∉ key) :
    r.readLine lower (keyLine key value) = r.setKey lower (trim key) (trim value) := by
  have hhead : (keyLine key value).head? = key.head? := List.head?_append_of_ne_nil _ hne
  have hempty : (keyLine key value).isEmpty = false := by simp [keyLine]
  simp only [Reading.readLine, htrim.eq, hempty, hhead, hhash, Bool.false_or, decide_false,
    Bool.false_eq_true, if_false]
  rw [keyLine, splitOnce_append heq]

theorem readLine_keyLine {key value : Text} (hk : Trimmed key) (hv : Trimmed value)
    (hne : key ≠ []) (hhash : key.head? ≠ some '#') (heq : '=' ∉ key) :
    r.readLine lower (keyLine key value) = r.setKey lower key value := by
  have htrim : Trimmed (keyLine key value) := by
    cases value with
    | nil => simpa [keyLine] using trimmed_append hk (b := ['=']) (by decide) hne (by simp) []
    | cons c value => simpa [keyLine] using trimmed_append hk hv hne (by simp) ['=']
  rw [readLine_of_trimmed htrim hne hhash heq, hk.eq, hv.eq]

def headerKeys : List Text :=
  [languageKey, speedUnitBitsKey, ipv6EnabledKey, windowWidthKey, windowHeightKey, windowXKey,
    windowYKey, windowMaximizedKey, expandedKey]

theorem head_headerKeys : ∀ key ∈ headerKeys, key.head? ≠ some 'g' ∧ key.head? ≠ some 'r' := by
  decide

theorem setKey_of_not_mem {key value : Text} (h : key ∉ headerKeys) :
    r.setKey lower key value =
      (ruleKey lower key).elim r fun (scope, field) => r.addEntry ⟨scope, field, value⟩ := by
  have hnone : r.settings.setKey lower key value = none := by
    simp only [headerKeys, List.mem_cons, List.not_mem_nil, or_false, not_or] at h
    obtain ⟨h₁, h₂, h₃, h₄, h₅, h₆, h₇, h₈, h₉⟩ := h
    simp only [AppSettings.setKey, h₁, h₂, h₃, h₄, h₅, h₆, h₇, h₈, h₉, if_false]
  rw [Reading.setKey, hnone]
  cases ruleKey lower key <;> rfl

theorem setKey_global (field value : Text) :
    r.setKey lower (globalPrefix ++ field) value = r.addEntry ⟨globalScope, field, value⟩ := by
  have hkey : globalPrefix ++ field ∉ headerKeys := fun h => (head_headerKeys _ h).1 rfl
  have hdrop : (globalPrefix ++ field).dropPrefix? globalPrefix = some field :=
    List.dropPrefix?_append_of_beq _ (by simp)
  rw [setKey_of_not_mem hkey, ruleKey, hdrop]
  rfl

theorem ruleKey_rule (key : Text) :
    ruleKey lower (rulePrefix ++ key) =
      (rsplitOnce '.' key).bind fun (name, field) =>
        if (lower (trim name)).isEmpty then none else some (lower (trim name), trim field) := by
  have hdrop : (rulePrefix ++ key).dropPrefix? rulePrefix = some key :=
    List.dropPrefix?_append_of_beq _ (by simp)
  have hglobal : (rulePrefix ++ key).dropPrefix? globalPrefix = none := rfl
  rw [ruleKey, hglobal, hdrop, Option.bind_some]
  cases rsplitOnce '.' key <;> rfl

theorem setKey_rule (key value : Text) :
    r.setKey lower (rulePrefix ++ key) value =
      (ruleKey lower (rulePrefix ++ key)).elim r fun (scope, field) =>
        r.addEntry ⟨scope, field, value⟩ :=
  setKey_of_not_mem fun h => (head_headerKeys _ h).2 rfl

theorem trim_rulePrefix (t : Text) : trim (rulePrefix ++ t) = rulePrefix ++ trimEnd t := by
  have hstart : trimStart (rulePrefix ++ t) = rulePrefix ++ t := by
    rw [trimStart_eq_self]
    rintro c ⟨⟩
    decide
  rw [trim, hstart, trimEnd_append (by decide)]

/-- A line of a rule adds one entry, if it is read as a field at all. -/
theorem readLine_rule {n : Text} {field : Text × Text} (hfield : field.1 ∈ fieldNames)
    (hv : Trimmed field.2) (hne : field.2 ≠ []) :
    r.readLine lower (fieldLine (rulePrefix ++ n) field) =
      (nameEntry lower n field).elim r r.addEntry := by
  obtain ⟨f, v⟩ := field
  obtain ⟨hf, hfne, -, heq⟩ := fieldNames_plain f hfield
  have hpre : Trimmed rulePrefix ∧ rulePrefix ≠ [] ∧ '=' ∉ rulePrefix := by decide
  have hhead (t : Text) : (rulePrefix ++ t).head? ≠ some '#' := by
    rw [List.head?_append_of_ne_nil _ hpre.2.1]
    decide
  by_cases hn : '=' ∈ n
  · obtain ⟨a, b, rfl, ha⟩ := List.eq_append_cons_of_mem hn
    have hline : fieldLine (rulePrefix ++ (a ++ '=' :: b)) (f, v) =
        keyLine (rulePrefix ++ a) (b ++ '.' :: keyLine f v) := by
      simp [fieldLine, keyLine]
    have htrim : Trimmed (keyLine (rulePrefix ++ a) (b ++ '.' :: keyLine f v)) := by
      simpa [keyLine] using trimmed_append hpre.1 hv hpre.2.1 hne
        (a ++ '=' :: (b ++ '.' :: f ++ ['=']))
    rw [hline, readLine_of_trimmed htrim (by simp [hpre.2.1]) (hhead _)
      (by simp [hpre.2.2, ha]), trim_rulePrefix, setKey_rule]
    simp only [nameEntry, splitOnce_append ha]
    cases ruleKey lower (rulePrefix ++ trimEnd a) <;> rfl
  · have hline : fieldLine (rulePrefix ++ n) (f, v) =
        keyLine (rulePrefix ++ (n ++ '.' :: f)) v := by
      simp [fieldLine]
    have hkey : Trimmed (rulePrefix ++ (n ++ '.' :: f)) := by
      simpa using trimmed_append hpre.1 hf hpre.2.1 hfne (n ++ ['.'])
    rw [hline, readLine_keyLine hkey hv (by simp [hpre.2.1]) (hhead _)
      (by simp [hpre.2.2, hn, heq]), setKey_rule]
    simp only [nameEntry, splitOnce_eq_none hn]
    cases ruleKey lower (rulePrefix ++ (n ++ '.' :: f)) <;> rfl

theorem readLine_global {field : Text × Text} (hfield : field.1 ∈ fieldNames)
    (hv : Trimmed field.2) :
    r.readLine lower (fieldLine globalScope field) =
      r.addEntry ⟨globalScope, field.1, field.2⟩ := by
  obtain ⟨hf, hfne, -, heq⟩ := fieldNames_plain field.1 hfield
  have hpre : Trimmed globalPrefix ∧ globalPrefix ≠ [] ∧ '=' ∉ globalPrefix := by decide
  have hkey : Trimmed (globalPrefix ++ field.1) := by
    simpa using trimmed_append hpre.1 hf hpre.2.1 hfne []
  have hhead : (globalPrefix ++ field.1).head? ≠ some '#' := by
    rw [List.head?_append_of_ne_nil _ hpre.2.1]
    decide
  have hline : fieldLine globalScope field = keyLine (globalPrefix ++ field.1) field.2 := rfl
  rw [hline, readLine_keyLine hkey hv (by simp [hpre.2.1]) hhead (by simp [hpre.2.2, heq]),
    setKey_global]

theorem ruleOfFields_congr {get get' : Text → Option Text}
    (h : ∀ field ∈ fieldNames, get field = get' field) : ruleOfFields get = ruleOfFields get' := by
  have hname (name : String) (hm : name.toList ∈ fieldNames) :
      get name.toList = get' name.toList := h _ hm
  simp only [ruleOfFields, flagField, rateField, lossField, delayField,
    hname "block_all" (by decide), hname "limit_download" (by decide),
    hname "download_kbps" (by decide), hname "limit_upload" (by decide),
    hname "upload_kbps" (by decide), hname "adaptive" (by decide),
    hname "download_loss_basis_points" (by decide),
    hname "upload_loss_basis_points" (by decide),
    hname "download_delay_ms" (by decide), hname "upload_delay_ms" (by decide)]

theorem setKey_globalRule {s s' : AppSettings F} {key value : Text}
    (h : s.setKey lower key value = some s') : s'.globalRule = s.globalRule := by
  unfold AppSettings.setKey at h
  repeat' split at h
  all_goals cases h
  all_goals first | rfl | cases F32.parse (F := F) value <;> rfl

/-- Reading a line never sets the global rule: it is made of the entries in the end. -/
theorem readLine_globalRule (line : Text) :
    (r.readLine lower line).settings.globalRule = r.settings.globalRule := by
  simp only [Reading.readLine]
  split
  · rfl
  · split
    · unfold Reading.setKey
      split
      · next hkey => exact setKey_globalRule hkey
      · split <;> rfl
    · rfl

theorem foldl_readLine_globalRule (ls : List Text) (r : Reading F) :
    (ls.foldl (Reading.readLine lower) r).settings.globalRule = r.settings.globalRule := by
  induction ls generalizing r with
  | nil => rfl
  | cons line ls ih => rw [List.foldl_cons, ih, readLine_globalRule]

theorem globalRule_eq (h : r.settings.globalRule = {}) :
    r.globalRule = ruleOfFields (lookup r.ruleEntries globalScope) := by
  unfold Reading.globalRule
  cases hg : r.ruleEntries[globalScope]? with
  | none =>
    have hnone : lookup r.ruleEntries globalScope = fun _ => none := by
      funext field
      simp [lookup, hg]
    rw [hnone, h]
    rfl
  | some fields =>
    have hsome : lookup r.ruleEntries globalScope = fun field => fields[field]? := by
      funext field
      simp [lookup, hg]
    rw [hsome]
    rfl

def Reading.addEntries (r : Reading F) (es : List FieldEntry) : Reading F :=
  { r with ruleEntries := es.foldl Ui.addEntry r.ruleEntries }

@[simp] theorem addEntries_append (es es' : List FieldEntry) :
    r.addEntries (es ++ es') = (r.addEntries es).addEntries es' := by
  simp [Reading.addEntries]

/-- The entries that the lines of the global rule are read as. -/
def globalEntries (rule : ProcessRule) : List FieldEntry :=
  (ruleFields rule).map fun field => ⟨globalScope, field.1, field.2⟩

/-- The entries that the lines of the processes' rules are read as. -/
def nameEntries (lower : Text → Text) (nameRules : NameRules) : List FieldEntry :=
  nameRules.toList.flatMap fun (n, rule) =>
    if rule.hasAnyRule then (ruleFields rule).filterMap (nameEntry lower n) else []

theorem foldl_readLine_global (rule : ProcessRule) (r : Reading F) :
    (ruleLines globalScope rule).foldl (Reading.readLine lower) r =
      r.addEntries (globalEntries rule) := by
  have hfold (fields : List (Text × Text)) (hfields : fields ⊆ ruleFields rule) :
      (fields.map (fieldLine globalScope)).foldl (Reading.readLine lower) r =
        r.addEntries (fields.map fun field => ⟨globalScope, field.1, field.2⟩) := by
    induction fields generalizing r with
    | nil => rfl
    | cons field fields ih =>
      have hm := hfields List.mem_cons_self
      rw [List.map_cons, List.foldl_cons, readLine_global (ruleFields_name hm)
        (ruleFields_plain hm).1, ih _ fun _ h => hfields (List.mem_cons_of_mem _ h)]
      rfl
  have hlines : ruleLines globalScope rule = (ruleFields rule).map (fieldLine globalScope) := by
    simp [ruleLines]
  rw [hlines, hfold _ (List.Subset.refl _), globalEntries]

theorem foldl_readLine_rule (n : Text) (rule : ProcessRule) (r : Reading F) :
    (ruleLines (rulePrefix ++ n) rule).foldl (Reading.readLine lower) r = r.addEntries
      (if rule.hasAnyRule then (ruleFields rule).filterMap (nameEntry lower n) else []) := by
  have hfold (fields : List (Text × Text)) (hfields : fields ⊆ ruleFields rule) :
      (fields.map (fieldLine (rulePrefix ++ n))).foldl (Reading.readLine lower) r =
        r.addEntries (fields.filterMap (nameEntry lower n)) := by
    induction fields generalizing r with
    | nil => rfl
    | cons field fields ih =>
      have hm := hfields List.mem_cons_self
      obtain ⟨hv, hne, -⟩ := ruleFields_plain hm
      rw [List.map_cons, List.foldl_cons, readLine_rule (ruleFields_name hm) hv hne,
        ih _ fun _ h => hfields (List.mem_cons_of_mem _ h), List.filterMap_cons]
      cases nameEntry lower n field <;> rfl
  have hscope : rulePrefix ++ n ≠ globalScope := by
    intro he
    have hhead : some 'r' = some 'g' := congrArg List.head? he
    exact absurd hhead (by decide)
  cases hrule : rule.hasAnyRule with
  | true => simpa [ruleLines, hrule] using hfold _ (List.Subset.refl _)
  | false => simp [ruleLines, hrule, hscope, Reading.addEntries]

theorem foldl_readLine_nameRules (nameRules : NameRules) (r : Reading F) :
    (nameRuleLines nameRules).foldl (Reading.readLine lower) r =
      r.addEntries (nameEntries lower nameRules) := by
  rw [nameRuleLines, nameEntries]
  induction nameRules.toList generalizing r with
  | nil => rfl
  | cons p rest ih =>
    rw [List.flatMap_cons, List.foldl_append, foldl_readLine_rule, ih, List.flatMap_cons,
      addEntries_append]

end Reading

end FlowBrake.Ui
