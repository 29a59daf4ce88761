import FlowBrake.Ui.Settings.Lines

/-! Which names of processes reach the global rule through the settings file. -/
namespace FlowBrake.Ui
open FlowBrake.Core Text

/-- A file stem as Windows allows it. -/
structure FileStem (n : Text) : Prop where
  nonempty : n ≠ []
  legal : ∀ c ∈ n, isControl c = false ∧ c ∉ ['\\', '/', ':', '*', '?', '"', '<', '>', '|']

instance (n : Text) : Decidable (FileStem n) :=
  decidable_of_iff (n ≠ [] ∧ ∀ c ∈ n, isControl c = false ∧
    c ∉ ['\\', '/', ':', '*', '?', '"', '<', '>', '|'])
    ⟨fun h => ⟨h.1, h.2⟩, fun h => ⟨h.1, h.2⟩⟩

section Captures
variable (lower : Text → Text)

/-- The names whose rules are read back, in part or as a whole, as the global rule: the scope
itself, and those that an `=` cuts off after the scope and the name of a field. -/
def captures (n : Text) : Prop :=
  match splitOnce '=' n with
  | none => lower (trim n) = globalScope
  | some (a, _) => ∃ name field, rsplitOnce '.' (trimEnd a) = some (name, field) ∧
      lower (trim name) = globalScope ∧ trim field ∈ fieldNames

variable {lower}

theorem ruleKey_dot (n : Text) {field : Text} (h : field ∈ fieldNames) :
    ruleKey lower (rulePrefix ++ (n ++ '.' :: field)) =
      if (lower (trim n)).isEmpty then none else some (lower (trim n), field) := by
  obtain ⟨hf, -, hdot, -⟩ := fieldNames_plain field h
  simp only [ruleKey_rule, rsplitOnce_append n hdot, Option.bind_some, hf.eq]

theorem nameEntry_of_not_mem {n : Text} {field : Text × Text} (h : '=' ∉ n)
    (hf : field.1 ∈ fieldNames) : nameEntry lower n field =
      if (lower (trim n)).isEmpty then none else some ⟨lower (trim n), field.1, field.2⟩ := by
  rw [nameEntry, splitOnce_eq_none h]
  simp only [ruleKey_dot n hf]
  split <;> rfl

/-- The entries of a captured name go to the fields of the global rule. -/
theorem captures_of_nameEntry {n : Text} {field : Text × Text} (hf : field.1 ∈ fieldNames)
    {entry : FieldEntry} (he : nameEntry lower n field = some entry)
    (hs : entry.scope = globalScope) (hm : entry.field ∈ fieldNames) : captures lower n := by
  unfold captures
  split
  · next hsplit =>
    simp only [nameEntry, hsplit, ruleKey_dot n hf] at he
    split at he
    · cases he
    · cases he
      exact hs
  · next a b hsplit =>
    simp only [nameEntry, hsplit, ruleKey_rule, Option.map_eq_some_iff, Option.bind_eq_some_iff,
      Prod.exists] at he
    obtain ⟨scope, f, ⟨name, f', hdot, hkey⟩, rfl⟩ := he
    split at hkey
    · cases hkey
    · cases hkey
      exact ⟨name, f', hdot, hs, hm⟩

/-- All lines of a captured name give fields of the global rule, unchanged or as texts that no
field takes. -/
theorem nameEntry_of_captures {n : Text} (h : captures lower n) :
    ('=' ∉ n ∧ ∀ field : Text × Text, field.1 ∈ fieldNames →
      nameEntry lower n field = some ⟨globalScope, field.1, field.2⟩) ∨
    ∃ f ∈ fieldNames, ∀ field : Text × Text, ∃ value, '=' ∈ value ∧
      nameEntry lower n field = some ⟨globalScope, f, value⟩ := by
  unfold captures at h
  split at h
  · next hsplit =>
    have hn : '=' ∉ n := fun hm => by
      obtain ⟨a, b, rfl, ha⟩ := List.eq_append_cons_of_mem hm
      rw [splitOnce_append ha] at hsplit
      cases hsplit
    refine .inl ⟨hn, fun field hf => ?_⟩
    rw [nameEntry_of_not_mem hn hf, h]
    rfl
  · next a b hsplit =>
    obtain ⟨name, f, hdot, hscope, hf⟩ := h
    refine .inr ⟨trim f, hf, fun field => ⟨_, mem_trim (t := b ++ '.' :: keyLine field.1 field.2)
      (by decide) (by simp [keyLine]), ?_⟩⟩
    simp only [nameEntry, hsplit, ruleKey_rule, hdot, Option.bind_some, hscope]
    rfl

end Captures

section Separation
variable {F : Type} [F32 F] {lower : Text → Text}

theorem FileStem.not_newline {n : Text} (h : FileStem n) : '\n' ∉ n :=
  fun hm => absurd (h.legal _ hm).1 (by decide)

theorem isLine_keyLine {key value : Text} (hk : '\n' ∉ key) (hv : IsLine value) :
    IsLine (keyLine key value) := by
  constructor
  · intro hm
    rcases List.mem_append.mp hm with hm | hm
    · exact hk hm
    · rcases List.mem_cons.mp hm with hm | hm
      · exact absurd hm (by decide)
      · exact hv.1 hm
  · rw [keyLine, List.getLast?_append_of_ne_nil _ (by simp)]
    cases value with
    | nil => decide
    | cons c value =>
      rw [List.getLast?_cons_cons]
      exact hv.2

theorem isLine_ruleLines {scope : Text} {rule : ProcessRule} (hscope : '\n' ∉ scope) :
    ∀ line ∈ ruleLines scope rule, IsLine line := by
  intro line hline
  have hnames : ∀ f ∈ fieldNames, '\n' ∉ f := by decide
  unfold ruleLines at hline
  split at hline
  · cases hline
  · obtain ⟨field, hfield, rfl⟩ := List.mem_map.mp hline
    refine isLine_keyLine (fun hm => ?_) (isLine_of_control (ruleFields_plain hfield).2.2)
    rcases List.mem_append.mp hm with hm | hm
    · exact hscope hm
    · rcases List.mem_cons.mp hm with hm | hm
      · exact absurd hm (by decide)
      · exact hnames _ (ruleFields_name hfield) hm

theorem isLine_nameRuleLines {nameRules : NameRules} (h : ∀ n ∈ nameRules, '\n' ∉ n) :
    ∀ line ∈ nameRuleLines nameRules, IsLine line := by
  intro line hline
  obtain ⟨⟨n, rule⟩, hn, hline⟩ := List.mem_flatMap.mp hline
  have hmem : n ∈ nameRules :=
    Std.ExtTreeMap.mem_iff_isSome_getElem?.mpr
      (by rw [Std.ExtTreeMap.mem_toList_iff_getElem?_eq_some.mp hn]; rfl)
  refine isLine_ruleLines (fun hm => ?_) line hline
  rcases List.mem_append.mp hm with hm | hm
  · exact absurd hm (by decide)
  · exact h n hmem hm

/-- The variables of `from_contents` after the lines that do not depend on the processes'
rules. -/
def AppSettings.prelude (lower : Text → Text) (s : AppSettings F) : Reading F :=
  (lines (unlines (["# FlowBrake settings".toList] ++ s.headerLines
    ++ ruleLines globalScope s.globalRule))).foldl (Reading.readLine lower) {}

theorem reload_eq (s : AppSettings F) (h : ∀ n ∈ s.nameRules, '\n' ∉ n) :
    s.reload lower =
      ((s.prelude lower).addEntries (nameEntries lower s.nameRules)).finish := by
  rw [AppSettings.reload, AppSettings.fromContents, AppSettings.toContents, AppSettings.toLines,
    lines_unlines_append (by simp) (isLine_nameRuleLines h), List.foldl_append,
    foldl_readLine_nameRules]
  rfl

theorem reload_globalRule (s : AppSettings F) (h : ∀ n ∈ s.nameRules, FileStem n) :
    (s.reload lower).globalRule =
      ruleOfFields (lookup
        ((s.prelude lower).addEntries (nameEntries lower s.nameRules)).ruleEntries
        globalScope) := by
  rw [reload_eq s fun n hn => (h n hn).not_newline]
  exact globalRule_eq (foldl_readLine_globalRule _ _)

theorem mem_nameEntries {nameRules : NameRules} {entry : FieldEntry} :
    entry ∈ nameEntries lower nameRules ↔ ∃ n rule, nameRules[n]? = some rule ∧
      rule.hasAnyRule ∧ ∃ field ∈ ruleFields rule, nameEntry lower n field = some entry := by
  rw [nameEntries, List.mem_flatMap]
  constructor
  · rintro ⟨⟨n, rule⟩, hn, hentry⟩
    dsimp only at hentry
    split at hentry
    · next hrule =>
      exact ⟨n, rule, Std.ExtTreeMap.mem_toList_iff_getElem?_eq_some.mp hn, hrule,
        List.mem_filterMap.mp hentry⟩
    · cases hentry
  · rintro ⟨n, rule, hn, hrule, hfield⟩
    refine ⟨(n, rule), Std.ExtTreeMap.mem_toList_iff_getElem?_eq_some.mpr hn, ?_⟩
    simp only [hrule, if_true]
    exact List.mem_filterMap.mpr hfield

/-- Rules of names that are not captured leave the global rule as it is. -/
theorem globalRule_of_not_captures (s : AppSettings F)
    (h : ∀ n ∈ s.nameRules, FileStem n ∧ ¬ captures lower n) :
    (s.reload lower).globalRule =
      ruleOfFields (lookup (s.prelude lower).ruleEntries globalScope) := by
  rw [reload_globalRule s fun n hn => (h n hn).1]
  refine ruleOfFields_congr fun field hf => lookup_foldl_of_ne fun entry he hs hfield => ?_
  obtain ⟨n, rule, hn, -, f, hm, hentry⟩ := mem_nameEntries.mp he
  have hmem : n ∈ s.nameRules := Std.ExtTreeMap.mem_iff_isSome_getElem?.mpr (by rw [hn]; rfl)
  exact (h n hmem).2 (captures_of_nameEntry (ruleFields_name hm) hentry hs (hfield ▸ hf))

/-- A rule that sets each of its fields. -/
def everyField : ProcessRule where
  blockAll := true
  limitDownload := true
  downloadKbps := 1
  limitUpload := true
  uploadKbps := 1
  adaptive := true
  downloadLossBasisPoints := some 1
  uploadLossBasisPoints := some 1
  downloadDelayMs := some 1
  uploadDelayMs := some 1

theorem inRange_everyField : InRange everyField := by
  constructor <;> simp [everyField, maxDelayMs]

theorem parseBool_eq_false {value : Text} (h : '=' ∈ value) : parseBool value = false := by
  by_contra hv
  simp only [parseBool, Bool.or_eq_true, decide_eq_true_eq, Bool.not_eq_false] at hv
  rcases hv with (rfl | rfl) | rfl <;> exact absurd h (by decide)

theorem parseDelayMs_eq_error {value : Text} (h : '=' ∈ value) :
    parseDelayMs value = .error delayError := by
  have hm : '=' ∈ trim value := mem_trim (by decide) h
  have hne : (trim value).isEmpty = false := by
    cases ht : trim value with
    | nil => simp [ht] at hm
    | cons => rfl
  have hall : (trim value).all Char.isDigit = false :=
    List.all_eq_false.mpr ⟨'=', hm, by decide⟩
  simp [parseDelayMs, hne, hall]

/-- No field takes a text with `=` in it. -/
theorem ruleOfFields_ne_everyField {get : Text → Option Text} {f value : Text}
    (hf : f ∈ fieldNames) (h : get f = some value) (hv : '=' ∈ value) :
    ruleOfFields get ≠ everyField := by
  have hnumber {limit : ℕ} : parseUnsigned limit value = none :=
    parseUnsigned_eq_none hv (by decide) (by decide)
  have hflag {name : String} (hn : get name.toList = some value) : flagField get name ≠ true := by
    simp [flagField, hn, parseBool_eq_false hv]
  have hrate {name : String} (hn : get name.toList = some value) : rateField get name ≠ 1 := by
    simp [rateField, hn, parseU32, hnumber]
  have hloss {name : String} (hn : get name.toList = some value) :
      lossField get name ≠ some 1 := by
    simp [lossField, hn, parseU16, hnumber]
  have hdelay {name : String} (hn : get name.toList = some value) :
      delayField get name ≠ some 1 := by
    simp [delayField, hn, parseDelayMs_eq_error hv, Except.toOption]
  intro he
  simp only [fieldNames, List.map_cons, List.map_nil, List.mem_cons, List.not_mem_nil,
    or_false] at hf
  rcases hf with rfl | rfl | rfl | rfl | rfl | rfl | rfl | rfl | rfl | rfl
  exacts [hflag h (congrArg ProcessRule.blockAll he),
    hflag h (congrArg ProcessRule.limitDownload he),
    hrate h (congrArg ProcessRule.downloadKbps he), hflag h (congrArg ProcessRule.limitUpload he),
    hrate h (congrArg ProcessRule.uploadKbps he), hflag h (congrArg ProcessRule.adaptive he),
    hloss h (congrArg ProcessRule.downloadLossBasisPoints he),
    hloss h (congrArg ProcessRule.uploadLossBasisPoints he),
    hdelay h (congrArg ProcessRule.downloadDelayMs he),
    hdelay h (congrArg ProcessRule.uploadDelayMs he)]

theorem prelude_eq (s : AppSettings F) :
    s.prelude lower = ((lines (unlines (["# FlowBrake settings".toList] ++ s.headerLines))).foldl
      (Reading.readLine lower) {}).addEntries (globalEntries s.globalRule) := by
  rw [AppSettings.prelude, lines_unlines_append (by simp) (isLine_ruleLines (by decide)),
    List.foldl_append, foldl_readLine_global]

/-- The fields of the global rule are read as they were written. -/
theorem lookup_prelude (s : AppSettings F) {field value : Text}
    (h : (field, value) ∈ ruleFields s.globalRule) :
    lookup (s.prelude lower).ruleEntries globalScope field = some value := by
  rw [prelude_eq, Reading.addEntries]
  have hgiven : ∃ entry ∈ globalEntries s.globalRule,
      entry.scope = globalScope ∧ entry.field = field := ⟨_, List.mem_map_of_mem h, rfl, rfl⟩
  obtain ⟨entry, he, -, hf, hl⟩ := lookup_foldl_of_mem _ hgiven
  obtain ⟨p, hp, rfl⟩ := List.mem_map.mp he
  rw [hl, ruleFields_functional hp h hf]

theorem reload_everyField :
    (AppSettings.reload lower ({ globalRule := everyField } : AppSettings F)).globalRule =
      everyField := by
  rw [globalRule_of_not_captures _ (by simp)]
  refine ruleOfFields_eq inRange_everyField fun field hf value => ?_
  have hnames : (ruleFields everyField).map Prod.fst = fieldNames := rfl
  obtain ⟨⟨_, v⟩, hv, rfl⟩ := List.mem_map.mp (hnames ▸ hf)
  rw [lookup_prelude _ hv, Option.some.injEq]
  constructor
  · rintro rfl
    exact hv
  · intro hm
    exact congrArg Prod.snd (ruleFields_functional hv hm rfl)

/-- The rules of one process that is blocked. -/
def blocked (n : Text) : NameRules := (∅ : NameRules).insert n { blockAll := true }

theorem getElem?_blocked {n n' : Text} {rule : ProcessRule} :
    (blocked n)[n']? = some rule ↔ n = n' ∧ { blockAll := true } = rule := by
  simp [blocked, Std.ExtTreeMap.getElem?_insert]

theorem mem_nameEntries_blocked {n : Text} {entry : FieldEntry} :
    entry ∈ nameEntries lower (blocked n) ↔
      ∃ field ∈ ruleFields { blockAll := true }, nameEntry lower n field = some entry := by
  rw [mem_nameEntries]
  constructor
  · rintro ⟨n', rule, hn', -, field, hfield, he⟩
    obtain ⟨rfl, rfl⟩ := getElem?_blocked.mp hn'
    exact ⟨field, hfield, he⟩
  · rintro ⟨field, hfield, he⟩
    exact ⟨n, _, getElem?_blocked.mpr ⟨rfl, rfl⟩, rfl, field, hfield, he⟩

/-- What a captured name's rule adds to the global rule leaves no rule with every field set. -/
theorem ruleOfFields_blocked {n : Text} (h : captures lower n) (entries : RuleEntries) :
    ruleOfFields (lookup ((nameEntries lower (blocked n)).foldl addEntry entries) globalScope) ≠
      everyField := by
  have hlimit : ("limit_download".toList, "false".toList) ∈ ruleFields { blockAll := true } := by
    simp [ruleFields, boolText]
  rcases nameEntry_of_captures h with ⟨-, hentry⟩ | ⟨f, hf, hentry⟩
  · have hgiven : ∃ entry ∈ nameEntries lower (blocked n),
        entry.scope = globalScope ∧ entry.field = "limit_download".toList :=
      ⟨_, mem_nameEntries_blocked.mpr ⟨_, hlimit, hentry _ (ruleFields_name hlimit)⟩, rfl, rfl⟩
    obtain ⟨entry, he, -, hfield, hl⟩ := lookup_foldl_of_mem entries hgiven
    obtain ⟨field, hm, hn⟩ := mem_nameEntries_blocked.mp he
    rw [hentry field (ruleFields_name hm), Option.some.injEq] at hn
    subst hn
    rw [ruleFields_functional hm hlimit hfield] at hl
    intro heq
    have hflag : flagField (lookup ((nameEntries lower (blocked n)).foldl addEntry entries)
        globalScope) "limit_download" = true := congrArg ProcessRule.limitDownload heq
    rw [flagField, hl] at hflag
    exact absurd hflag (by decide)
  · obtain ⟨value, -, hentry'⟩ := hentry ("limit_download".toList, "false".toList)
    have hgiven : ∃ entry ∈ nameEntries lower (blocked n),
        entry.scope = globalScope ∧ entry.field = f :=
      ⟨_, mem_nameEntries_blocked.mpr ⟨_, hlimit, hentry'⟩, rfl, rfl⟩
    obtain ⟨entry, he, -, -, hl⟩ := lookup_foldl_of_mem entries hgiven
    obtain ⟨field, -, hn⟩ := mem_nameEntries_blocked.mp he
    obtain ⟨value', hv, hn'⟩ := hentry field
    rw [hn', Option.some.injEq] at hn
    subst hn
    exact ruleOfFields_ne_everyField hf hl hv

/-- The processes' rules leave the global rule of the next start as it is exactly where no name
is captured. -/
theorem globalRule_separate_iff (lower : Text → Text) (K : Set Text)
    (hK : ∀ n ∈ K, FileStem n ∧ lower n = n) :
    (∀ (s : AppSettings F) (nameRules : NameRules),
      (∀ n ∈ s.nameRules, n ∈ K) → (∀ n ∈ nameRules, n ∈ K) →
        (AppSettings.reload lower { s with nameRules }).globalRule =
          (s.reload lower).globalRule) ↔
    ∀ n ∈ K, ¬ captures lower n := by
  constructor
  · intro h n hn hc
    have hmem (n' : Text) (hn' : n' ∈ blocked n) : n' ∈ K := by
      simp only [blocked, Std.ExtTreeMap.mem_insert, Std.compare_eq_iff_eq,
        Std.ExtTreeMap.not_mem_empty, or_false] at hn'
      exact hn' ▸ hn
    have heq := h { globalRule := everyField } (blocked n) (by simp) hmem
    rw [reload_everyField, reload_globalRule _ fun n' hn' => (hK n' (hmem n' hn')).1] at heq
    exact ruleOfFields_blocked hc _ heq
  · intro h s nameRules hs hrules
    rw [globalRule_of_not_captures _ fun n hn => ⟨(hK n (hs n hn)).1, h n (hs n hn)⟩,
      globalRule_of_not_captures _ fun n hn => ⟨(hK n (hrules n hn)).1, h n (hrules n hn)⟩]
    rfl

def browser : Text := "browser".toList

theorem globalRule_separate_browser :
    (AppSettings.reload toAsciiLowercase
      { ({} : AppSettings WholeF32) with nameRules := blocked browser }).globalRule =
        (AppSettings.reload toAsciiLowercase ({} : AppSettings WholeF32)).globalRule := by
  refine (globalRule_separate_iff toAsciiLowercase {browser} ?_).mpr ?_ {} (blocked browser)
    (by simp) (by simp [blocked])
  · rintro n rfl
    decide
  · rintro n rfl
    exact (by decide : toAsciiLowercase (trim browser) ≠ globalScope)

/-- Blocking `global.exe` blocks all traffic after the next start. -/
theorem globalRule_not_separate_global :
    FileStem globalScope ∧ toAsciiLowercase globalScope = globalScope ∧
    (AppSettings.reload toAsciiLowercase
      { ({} : AppSettings WholeF32) with nameRules := blocked globalScope }).globalRule.blockAll ∧
    ¬ (AppSettings.reload toAsciiLowercase ({} : AppSettings WholeF32)).globalRule.blockAll := by
  refine ⟨by decide, by decide, ?_⟩
  decide +kernel

end Separation

end FlowBrake.Ui
