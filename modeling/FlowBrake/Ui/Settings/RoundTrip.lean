import FlowBrake.Ui.Settings.Separation

/-! Which settings are read back as they were written. -/
namespace FlowBrake.Ui
open FlowBrake.Core Text

section WellFormed
variable {F : Type} [F32 F] {lower : Text → Text}

/-- A text that a key can hold as a name. -/
def IsKey (n : Text) : Prop := '=' ∉ n ∧ Trimmed n

/-- A text that a list can hold as an element. -/
def IsElement (e : Text) : Prop := ',' ∉ e ∧ Trimmed e

/-- What holds of the variables of `from_contents` after every line. -/
structure Reading.WellFormed (r : Reading F) : Prop where
  scopes : ∀ scope ∈ r.ruleEntries, IsKey scope
  expanded : ∀ e ∈ r.settings.expanded, IsElement e

theorem isKey_of_ruleKey (hlower : Lowercases lower) {key scope field : Text} (hkey : '=' ∉ key)
    (h : ruleKey lower key = some (scope, field)) : IsKey scope := by
  unfold ruleKey at h
  split at h
  · cases h
    exact (by decide : '=' ∉ globalScope ∧ Trimmed globalScope)
  · split at h
    · next name field' hname =>
      dsimp only at h
      split at h
      · cases h
      · cases h
        obtain ⟨rest, hdrop, hdot⟩ := Option.bind_eq_some_iff.mp hname
        obtain ⟨start, rfl, -⟩ := List.dropPrefix?_eq_some_iff.mp hdrop
        refine ⟨fun hm => hkey ?_, ?_⟩
        · have hmem := of_mem_trim (hlower.of_mem '=' (by simp) _ hm)
          rw [rsplitOnce_eq_some hdot]
          exact List.mem_append_right _ (List.mem_append_left _ hmem)
        · rw [Trimmed, hlower.trim_lower, (trimmed_trim name).eq]
    · cases h

theorem setKey_expanded {s s' : AppSettings F} {key value : Text}
    (h : s.setKey lower key value = some s') :
    s'.expanded = s.expanded ∨ s'.expanded = readNames lower value := by
  unfold AppSettings.setKey at h
  repeat' split at h
  all_goals cases h
  all_goals first
    | exact .inl rfl
    | exact .inr rfl
    | exact .inl (by cases F32.parse (F := F) value <;> rfl)

theorem isElement_of_mem_readNames (hlower : Lowercases lower) {value e : Text}
    (h : e ∈ readNames lower value) : IsElement e := by
  simp only [readNames, Std.ExtTreeSet.mem_ofList, List.contains_iff_mem, List.mem_map,
    List.mem_filter] at h
  obtain ⟨_, ⟨⟨piece, hpiece, rfl⟩, -⟩, rfl⟩ := h
  refine ⟨fun hm => not_mem_of_mem_splitOn hpiece ?_, ?_⟩
  · exact of_mem_trim (hlower.of_mem ',' (by simp) _ hm)
  · rw [Trimmed, hlower.trim_lower, (trimmed_trim piece).eq]

theorem readLine_wellFormed (hlower : Lowercases lower) {r : Reading F} (hr : r.WellFormed)
    (line : Text) : (r.readLine lower line).WellFormed := by
  simp only [Reading.readLine]
  split
  · exact hr
  · split
    · next key value hsplit =>
      have hkey : '=' ∉ trim key := fun hm => (splitOnce_eq_some hsplit).2 (of_mem_trim hm)
      unfold Reading.setKey
      split
      · next hset =>
        refine ⟨hr.scopes, fun e he => ?_⟩
        rcases setKey_expanded hset with hexpanded | hexpanded
        · exact hr.expanded e (hexpanded ▸ he)
        · exact isElement_of_mem_readNames hlower (hexpanded ▸ he)
      · split
        · next scope field hrule =>
          refine ⟨fun n hn => ?_, hr.expanded⟩
          rcases (mem_addEntry r.ruleEntries ⟨scope, field, trim value⟩ n).mp hn with rfl | hn
          · exact isKey_of_ruleKey hlower hkey hrule
          · exact hr.scopes n hn
        · exact hr
    · exact hr

theorem foldl_readLine_wellFormed (hlower : Lowercases lower) {r : Reading F} (hr : r.WellFormed)
    (ls : List Text) : (ls.foldl (Reading.readLine lower) r).WellFormed := by
  induction ls generalizing r with
  | nil => exact hr
  | cons line ls ih => exact ih (readLine_wellFormed hlower hr line)

theorem getElem?_nameRules (r : Reading F) (n : Text) :
    r.nameRules[n]? = if n ∈ r.ruleEntries ∧ n ≠ globalScope then
      (some (ruleOfFields (lookup r.ruleEntries n))).filter (·.hasAnyRule) else none := by
  rw [Reading.nameRules, Std.ExtTreeMap.getElem?_filterMap', Std.ExtTreeMap.getElem?_erase]
  by_cases hn : n = globalScope
  · simp [hn]
  · have hne : compare globalScope n ≠ .eq := fun he => hn (Std.compare_eq_iff_eq.mp he).symm
    rw [if_neg hne]
    cases hfields : r.ruleEntries[n]? with
    | none =>
      have hmem : n ∉ r.ruleEntries := fun hm => by
        rw [Std.ExtTreeMap.mem_iff_isSome_getElem?, hfields] at hm
        cases hm
      rw [if_neg fun h => hmem h.1]
      rfl
    | some fields =>
      have hmem : n ∈ r.ruleEntries := by
        rw [Std.ExtTreeMap.mem_iff_isSome_getElem?, hfields]
        rfl
      have hlookup : lookup r.ruleEntries n = (fields[·]?) := by
        funext field
        simp [lookup, hfields]
      rw [if_pos ⟨hmem, hn⟩, hlookup]
      rfl

/-- What is read from any file can be written to a file. -/
theorem fromContents_names (hlower : Lowercases lower) (contents : Text) :
    (∀ n ∈ (AppSettings.fromContents (F := F) lower contents).nameRules,
      IsKey n ∧ n ≠ globalScope) ∧
    ∀ e ∈ (AppSettings.fromContents (F := F) lower contents).expanded, IsElement e := by
  have hempty : Reading.WellFormed ({} : Reading F) := by
    constructor
    · simp
    · intro e he
      exact absurd he Std.ExtTreeSet.not_mem_empty
  have hread := foldl_readLine_wellFormed hlower hempty (lines contents)
  refine ⟨fun n hn => ?_, hread.expanded⟩
  have hsome :
      ((lines contents).foldl (Reading.readLine lower) {} : Reading F).nameRules[n]?.isSome :=
    Std.ExtTreeMap.mem_iff_isSome_getElem?.mp hn
  rw [getElem?_nameRules] at hsome
  split at hsome
  · next hmem => exact ⟨hread.scopes n hmem.1, hmem.2⟩
  · cases hsome

end WellFormed

section RoundTrip
variable {F : Type} [F32 F] (lower : Text → Text)

/-- The settings that the application can hold. -/
structure AppSettings.Holdable (s : AppSettings F) : Prop where
  windowWidth : F32.lt s.windowWidth (minWindowWidth F) = false ∧
    F32.lt (maxWindowSide F) s.windowWidth = false
  windowHeight : F32.lt s.windowHeight (minWindowHeight F) = false ∧
    F32.lt (maxWindowSide F) s.windowHeight = false
  globalRule : InRange s.globalRule
  names : ∀ n ∈ s.nameRules, FileStem n ∧ lower n = n
  rules : ∀ (n : Text) (rule : ProcessRule), s.nameRules[n]? = some rule →
    rule.hasAnyRule ∧ InRange rule
  expanded : ∀ e ∈ s.expanded, FileStem e ∧ lower e = e

/-- A name that is left alone when it is lower-cased, and that one line holds. -/
structure IsName (n : Text) : Prop where
  nonempty : n ≠ []
  lowered : lower n = n
  newline : '\n' ∉ n

/-- The settings that the file can hold. -/
structure AppSettings.Storable (s : AppSettings F) : Prop where
  windowWidth : F32.lt s.windowWidth (minWindowWidth F) = false ∧
    F32.lt (maxWindowSide F) s.windowWidth = false
  windowHeight : F32.lt s.windowHeight (minWindowHeight F) = false ∧
    F32.lt (maxWindowSide F) s.windowHeight = false
  globalRule : InRange s.globalRule
  names : ∀ n ∈ s.nameRules, IsName lower n ∧ IsKey n ∧ n ≠ globalScope
  rules : ∀ (n : Text) (rule : ProcessRule), s.nameRules[n]? = some rule →
    rule.hasAnyRule ∧ InRange rule
  expanded : ∀ e ∈ s.expanded, IsName lower e ∧ IsElement e

variable {lower} {r : Reading F}

theorem isName_of_fileStem {n : Text} (h : FileStem n ∧ lower n = n) : IsName lower n :=
  ⟨h.1.nonempty, h.2, h.1.not_newline⟩

theorem AppSettings.Holdable.storable {s : AppSettings F} (hs : s.Holdable lower)
    (hk : ∀ n ∈ s.nameRules, IsKey n ∧ n ≠ globalScope) (he : ∀ e ∈ s.expanded, IsElement e) :
    s.Storable lower where
  windowWidth := hs.windowWidth
  windowHeight := hs.windowHeight
  globalRule := hs.globalRule
  names n hn := ⟨isName_of_fileStem (hs.names n hn), hk n hn⟩
  rules := hs.rules
  expanded e hmem := ⟨isName_of_fileStem (hs.expanded e hmem), he e hmem⟩

theorem headerKeys_plain : ∀ key ∈ headerKeys, Trimmed key ∧ key ≠ [] ∧ key.head? ≠ some '#' ∧
    '=' ∉ key ∧ '\n' ∉ key := by
  decide

theorem readLine_header {key value : Text} {settings : AppSettings F} (hk : key ∈ headerKeys)
    (hv : Trimmed value) (h : r.settings.setKey lower key value = some settings) :
    r.readLine lower (keyLine key value) = { r with settings } := by
  obtain ⟨htrim, hne, hhash, heq, -⟩ := headerKeys_plain key hk
  rw [readLine_keyLine htrim hv hne hhash heq, Reading.setKey, h]

theorem parseBool_boolText (b : Bool) : parseBool (boolText b) = b := by
  cases b <;> decide

theorem trimmed_boolText (b : Bool) : Trimmed (boolText b) := by
  cases b <;> decide

theorem trimmed_display [LawfulF32 F] (x : F) : Trimmed (F32.display x) := by
  refine trimmed_iff.mpr ⟨trimStart_eq_self.mpr fun c hc => ?_, trimEnd_eq_self.mpr fun c hc => ?_⟩
  · exact (LawfulF32.plain x c (List.mem_of_mem_head? hc)).1
  · exact (LawfulF32.plain x c (List.mem_of_mem_getLast? hc)).1

theorem clamp_eq_self {x min max : F} (h : F32.lt x min = false ∧ F32.lt max x = false) :
    clamp x min max = x := by
  simp [clamp, h]

/-- Names that a list can hold are read back from their line. -/
theorem readNames_intercalate {names : Std.ExtTreeSet Text} (hne : names.isEmpty = false)
    (h : ∀ e ∈ names, IsElement e ∧ e ≠ [] ∧ lower e = e) :
    readNames lower ([','].intercalate names.toList) = names := by
  have hlist (e : Text) (he : e ∈ names.toList) : IsElement e ∧ e ≠ [] ∧ lower e = e :=
    h e (Std.ExtTreeSet.mem_toList.mp he)
  have hnil : names.toList ≠ [] := by
    intro hnil
    have hempty : names.isEmpty = true := by
      rw [← Std.ExtTreeSet.isEmpty_toList, hnil]
      rfl
    simp [hempty] at hne
  have htrim : names.toList.map trim = names.toList :=
    (List.map_congr_left fun e he => (hlist e he).1.2.eq).trans (List.map_id _)
  have hfilter : names.toList.filter (!·.isEmpty) = names.toList :=
    List.filter_eq_self.mpr fun e he => by simpa using (hlist e he).2.1
  have hlow : names.toList.map lower = names.toList :=
    (List.map_congr_left fun e he => (hlist e he).2.2).trans (List.map_id _)
  rw [readNames, List.splitOn_intercalate ',' (fun e he => (hlist e he).1.1) hnil, htrim, hfilter,
    hlow]
  refine Std.ExtTreeSet.ext_mem fun e => ?_
  rw [Std.ExtTreeSet.mem_ofList, List.contains_iff_mem, Std.ExtTreeSet.mem_toList]

section Header

theorem readLine_language (language : LanguagePreference) :
    r.readLine lower (keyLine languageKey language.asStr) =
      { r with settings := { r.settings with language } } := by
  have hlanguage : Trimmed language.asStr ∧ LanguagePreference.fromConfig language.asStr =
      language := by
    cases language <;> decide
  rw [readLine_header (by decide) hlanguage.1 rfl, hlanguage.2]

theorem readLine_speedUnitBits (b : Bool) :
    r.readLine lower (keyLine speedUnitBitsKey (boolText b)) =
      { r with settings := { r.settings with speedUnitBits := b } } := by
  rw [readLine_header (by decide) (trimmed_boolText b) rfl, parseBool_boolText]

theorem readLine_ipv6Enabled (b : Bool) :
    r.readLine lower (keyLine ipv6EnabledKey (boolText b)) =
      { r with settings := { r.settings with ipv6Enabled := b } } := by
  rw [readLine_header (by decide) (trimmed_boolText b) rfl, parseBool_boolText]

theorem readLine_windowMaximized (b : Bool) :
    r.readLine lower (keyLine windowMaximizedKey (boolText b)) =
      { r with settings := { r.settings with windowMaximized := b } } := by
  rw [readLine_header (by decide) (trimmed_boolText b) rfl, parseBool_boolText]

theorem readLine_windowWidth [LawfulF32 F] {x : F} (h : F32.lt x (minWindowWidth F) = false ∧
    F32.lt (maxWindowSide F) x = false) :
    r.readLine lower (keyLine windowWidthKey (F32.display x)) =
      { r with settings := { r.settings with windowWidth := x } } := by
  rw [readLine_header (by decide) (trimmed_display x) rfl, LawfulF32.parse_display,
    Option.elim_some, clamp_eq_self h]

theorem readLine_windowHeight [LawfulF32 F] {x : F} (h : F32.lt x (minWindowHeight F) = false ∧
    F32.lt (maxWindowSide F) x = false) :
    r.readLine lower (keyLine windowHeightKey (F32.display x)) =
      { r with settings := { r.settings with windowHeight := x } } := by
  rw [readLine_header (by decide) (trimmed_display x) rfl, LawfulF32.parse_display,
    Option.elim_some, clamp_eq_self h]

theorem readLine_windowX [LawfulF32 F] (x : F) :
    r.readLine lower (keyLine windowXKey (F32.display x)) =
      { r with settings := { r.settings with windowX := x } } := by
  rw [readLine_header (by decide) (trimmed_display x) rfl, LawfulF32.parse_display,
    Option.elim_some]

theorem readLine_windowY [LawfulF32 F] (x : F) :
    r.readLine lower (keyLine windowYKey (F32.display x)) =
      { r with settings := { r.settings with windowY := x } } := by
  rw [readLine_header (by decide) (trimmed_display x) rfl, LawfulF32.parse_display,
    Option.elim_some]

theorem readLine_expanded {names : Std.ExtTreeSet Text} (hne : names.isEmpty = false)
    (h : ∀ e ∈ names, IsElement e ∧ e ≠ [] ∧ lower e = e) :
    r.readLine lower (keyLine expandedKey ([','].intercalate names.toList)) =
      { r with settings := { r.settings with expanded := names } } := by
  have htrim : Trimmed ([','].intercalate names.toList) :=
    (trimmed_intercalate fun e he =>
      have hmem := h e (Std.ExtTreeSet.mem_toList.mp he)
      ⟨hmem.1.2, hmem.2.1⟩).1
  rw [readLine_header (by decide) htrim rfl, readNames_intercalate hne h]

/-- The lines before the rules set all preferences. -/
theorem foldl_readLine_header [LawfulF32 F] {s : AppSettings F} (hs : s.Storable lower) :
    s.headerLines.foldl (Reading.readLine lower) {} =
      { settings := { s with globalRule := {}, nameRules := ∅ } } := by
  rw [AppSettings.headerLines, List.foldl_append]
  simp only [List.foldl_cons, List.foldl_nil, readLine_language, readLine_speedUnitBits,
    readLine_ipv6Enabled, readLine_windowWidth hs.windowWidth,
    readLine_windowHeight hs.windowHeight, readLine_windowX, readLine_windowY,
    readLine_windowMaximized]
  cases hexpanded : s.expanded.isEmpty with
  | true =>
    have hnone : s.expanded = ∅ := Std.ExtTreeSet.isEmpty_iff.mp hexpanded
    simp only [if_true, List.foldl_nil, hnone]
  | false =>
    have hnames (e : Text) (hmem : e ∈ s.expanded) : IsElement e ∧ e ≠ [] ∧ lower e = e :=
      ⟨(hs.expanded e hmem).2, (hs.expanded e hmem).1.nonempty, (hs.expanded e hmem).1.lowered⟩
    simp only [Bool.false_eq_true, if_false, List.foldl_cons, List.foldl_nil,
      readLine_expanded hexpanded hnames]

theorem boolText_control : ∀ b, ∀ c ∈ boolText b, isControl c = false := by
  decide

/-- White space at the end of a line is no part of it. -/
theorem isLine_of_trimmed {t : Text} (ht : Trimmed t) (hn : '\n' ∉ t) : IsLine t := by
  refine ⟨hn, fun hlast => ?_⟩
  have hend := trimEnd_eq_self.mp (trimmed_iff.mp ht).2 '\r' hlast
  exact absurd hend (by decide)

theorem isLine_headerLines [LawfulF32 F] {s : AppSettings F} (hs : s.Storable lower) :
    ∀ line ∈ s.headerLines, IsLine line := by
  have hline {key value : Text} (hk : key ∈ headerKeys) (hv : IsLine value) :
      IsLine (keyLine key value) :=
    isLine_keyLine (headerKeys_plain key hk).2.2.2.2 hv
  have hbool (b : Bool) : IsLine (boolText b) := isLine_of_control (boolText_control b)
  have hlanguage : IsLine s.language.asStr := by
    apply isLine_of_control
    cases s.language <;> decide
  have hdisplay (x : F) : IsLine (F32.display x) :=
    isLine_of_control fun c hc => (LawfulF32.plain x c hc).2
  have hnames : IsLine ([','].intercalate s.expanded.toList) := by
    have hmem (e : Text) (he : e ∈ s.expanded.toList) : IsName lower e ∧ IsElement e :=
      hs.expanded e (Std.ExtTreeSet.mem_toList.mp he)
    refine isLine_of_trimmed (trimmed_intercalate fun e he =>
      ⟨(hmem e he).2.2, (hmem e he).1.nonempty⟩).1 fun hn => ?_
    rcases mem_intercalate hn with hc | ⟨e, he, hn⟩
    · exact absurd hc (by decide)
    · exact (hmem e he).1.newline hn
  intro line hmem
  rcases List.mem_append.mp hmem with hmem | hmem
  · simp only [List.mem_cons, List.not_mem_nil, or_false] at hmem
    rcases hmem with rfl | rfl | rfl | rfl | rfl | rfl | rfl | rfl
    exacts [hline (by decide) hlanguage, hline (by decide) (hbool _), hline (by decide) (hbool _),
      hline (by decide) (hdisplay _), hline (by decide) (hdisplay _),
      hline (by decide) (hdisplay _), hline (by decide) (hdisplay _), hline (by decide) (hbool _)]
  · split at hmem
    · cases hmem
    · rw [List.mem_singleton.mp hmem]
      exact hline (by decide) hnames

/-- Everything before the processes' rules is read back as it was written. -/
theorem prelude_of_storable [LawfulF32 F] {s : AppSettings F} (hs : s.Storable lower) :
    s.prelude lower = ({ settings := { s with globalRule := {}, nameRules := ∅ } } :
      Reading F).addEntries (globalEntries s.globalRule) := by
  have hlines : ∀ line ∈ "# FlowBrake settings".toList :: s.headerLines, IsLine line := by
    intro line hline
    rcases List.mem_cons.mp hline with rfl | hline
    · exact isLine_of_control (by decide)
    · exact isLine_headerLines hs line hline
  have hcomment : Reading.readLine lower ({} : Reading F) "# FlowBrake settings".toList = {} := rfl
  rw [prelude_eq, List.singleton_append, lines_unlines hlines, List.foldl_cons, hcomment,
    foldl_readLine_header hs]

end Header

section Rules
variable {s : AppSettings F}

/-- The rule that is written under a scope. -/
def AppSettings.scopeRule (s : AppSettings F) (scope : Text) : Option ProcessRule :=
  if scope = globalScope then some s.globalRule else s.nameRules[scope]?

/-- The entries that all lines of rules are read as. -/
def AppSettings.entries (lower : Text → Text) (s : AppSettings F) : List FieldEntry :=
  globalEntries s.globalRule ++ nameEntries lower s.nameRules

theorem nameEntry_of_isKey {n : Text} {field : Text × Text} (hkey : IsKey n) (hne : n ≠ [])
    (hlow : lower n = n) (hf : field.1 ∈ fieldNames) :
    nameEntry lower n field = some ⟨n, field.1, field.2⟩ := by
  rw [nameEntry_of_not_mem hkey.1 hf, hkey.2.eq, hlow, if_neg (by simpa using hne)]

theorem mem_entries (hs : s.Storable lower)
    {entry : FieldEntry} : entry ∈ s.entries lower ↔
      ∃ rule, s.scopeRule entry.scope = some rule ∧
        (entry.field, entry.value) ∈ ruleFields rule := by
  have hname {n : Text} {rule : ProcessRule} (hn : s.nameRules[n]? = some rule) : n ∈ s.nameRules :=
    Std.ExtTreeMap.mem_iff_isSome_getElem?.mpr (by rw [hn]; rfl)
  have hentry {n : Text} {rule : ProcessRule} (hn : s.nameRules[n]? = some rule)
      {field : Text × Text} (hf : field ∈ ruleFields rule) :
      nameEntry lower n field = some ⟨n, field.1, field.2⟩ :=
    have hmem := hname hn
    nameEntry_of_isKey (hs.names n hmem).2.1 (hs.names n hmem).1.nonempty
      (hs.names n hmem).1.lowered (ruleFields_name hf)
  rw [AppSettings.entries, List.mem_append, mem_nameEntries, globalEntries, List.mem_map]
  constructor
  · rintro (⟨field, hf, rfl⟩ | ⟨n, rule, hn, -, field, hf, he⟩)
    · exact ⟨s.globalRule, by simp [AppSettings.scopeRule], hf⟩
    · rw [hentry hn hf, Option.some.injEq] at he
      subst he
      exact ⟨rule, by rw [AppSettings.scopeRule, if_neg (hs.names n (hname hn)).2.2, hn], hf⟩
  · rintro ⟨rule, hscope, hf⟩
    unfold AppSettings.scopeRule at hscope
    split at hscope
    · next hglobal =>
      cases hscope
      exact .inl ⟨_, hf, by rw [← hglobal]⟩
    · exact .inr ⟨entry.scope, rule, hscope, (hs.rules _ _ hscope).1, _, hf, hentry hscope hf⟩

/-- Every field of every rule is read back as it was written. -/
theorem lookup_entries (hs : s.Storable lower) {scope field value : Text}
    {rule : ProcessRule} (hrule : s.scopeRule scope = some rule) :
    lookup ((s.entries lower).foldl addEntry ∅) scope field = some value ↔
      (field, value) ∈ ruleFields rule := by
  rw [lookup_foldl_eq_some, mem_entries hs]
  · constructor
    · rintro ⟨rule', hrule', hf⟩
      cases hrule.symm.trans hrule'
      exact hf
    · exact fun hf => ⟨rule, hrule, hf⟩
  · intro e he e' he' hscope hscope' hfield hfield'
    obtain ⟨rule₁, hrule₁, hf⟩ := (mem_entries hs).mp he
    obtain ⟨rule₂, hrule₂, hf'⟩ := (mem_entries hs).mp he'
    rw [hscope, ← hscope', hrule₂] at hrule₁
    cases hrule₁
    exact congrArg Prod.snd (ruleFields_functional hf hf' (hfield.trans hfield'.symm))

theorem ruleOfFields_entries (hs : s.Storable lower) {scope : Text} {rule : ProcessRule}
    (hrule : s.scopeRule scope = some rule) :
    ruleOfFields (lookup ((s.entries lower).foldl addEntry ∅) scope) = rule := by
  have hrange : InRange rule := by
    unfold AppSettings.scopeRule at hrule
    split at hrule
    · cases hrule
      exact hs.globalRule
    · exact (hs.rules _ _ hrule).2
  exact ruleOfFields_eq hrange fun field _ value => lookup_entries hs hrule

theorem mem_foldl_entries (hs : s.Storable lower) {scope : Text} :
    scope ∈ (s.entries lower).foldl addEntry ∅ ↔ (s.scopeRule scope).isSome := by
  rw [mem_foldl_addEntry]
  constructor
  · rintro (⟨entry, he, rfl⟩ | hmem)
    · obtain ⟨rule, hrule, -⟩ := (mem_entries hs).mp he
      rw [hrule]
      rfl
    · simp at hmem
  · intro hsome
    obtain ⟨rule, hrule⟩ := Option.isSome_iff_exists.mp hsome
    have hfirst : ("block_all".toList, boolText rule.blockAll) ∈ ruleFields rule := by
      simp [ruleFields]
    exact .inl ⟨⟨scope, _, _⟩, (mem_entries hs).mpr ⟨rule, hrule, hfirst⟩, rfl⟩

/-- The rules that are collected from all lines are the rules that were written. -/
theorem nameRules_entries (hs : s.Storable lower) {r : Reading F}
    (hr : r.ruleEntries = (s.entries lower).foldl addEntry ∅) : r.nameRules = s.nameRules := by
  refine Std.ExtTreeMap.ext_getElem? fun n => ?_
  rw [getElem?_nameRules, hr]
  cases hn : s.nameRules[n]? with
  | none =>
    rw [if_neg]
    rintro ⟨hmem, hne⟩
    have hsome := (mem_foldl_entries hs).mp hmem
    rw [AppSettings.scopeRule, if_neg hne, hn] at hsome
    cases hsome
  | some rule =>
    have hne : n ≠ globalScope :=
      (hs.names n (Std.ExtTreeMap.mem_iff_isSome_getElem?.mpr (by rw [hn]; rfl))).2.2
    have hrule : s.scopeRule n = some rule := by rw [AppSettings.scopeRule, if_neg hne, hn]
    have hmem : n ∈ (s.entries lower).foldl addEntry ∅ :=
      (mem_foldl_entries hs).mpr (by rw [hrule]; rfl)
    have hany : rule.hasAnyRule = true := (hs.rules n rule hn).1
    rw [if_pos ⟨hmem, hne⟩, ruleOfFields_entries hs hrule, Option.filter_some, hany]
    rfl

theorem finish_entries (hs : s.Storable lower) {r : Reading F}
    (hsettings : r.settings = { s with globalRule := {}, nameRules := ∅ })
    (hr : r.ruleEntries = (s.entries lower).foldl addEntry ∅) : r.finish = s := by
  have hglobal : r.globalRule = s.globalRule := by
    rw [globalRule_eq (by rw [hsettings]), hr]
    exact ruleOfFields_entries hs (if_pos rfl)
  rw [Reading.finish, hglobal, nameRules_entries hs hr, hsettings]

/-- What the file can hold is read back as it was written. -/
theorem reload_of_storable [LawfulF32 F] (hs : s.Storable lower) : s.reload lower = s := by
  rw [reload_eq s fun n hn => (hs.names n hn).1.newline, prelude_of_storable hs,
    ← addEntries_append]
  exact finish_entries hs rfl (by rw [Reading.addEntries, AppSettings.entries])

end Rules

/-- Settings are read back as they were written exactly where the keys of the file can hold the
names of the rules, and its list the names of the groups. -/
theorem reload_eq_self_iff [LawfulF32 F] (hlower : Lowercases lower) (s : AppSettings F)
    (hs : s.Holdable lower) :
    s.reload lower = s ↔
      (∀ n ∈ s.nameRules, '=' ∉ n ∧ Trimmed n ∧ n ≠ globalScope) ∧
        ∀ e ∈ s.expanded, ',' ∉ e ∧ Trimmed e := by
  constructor
  · intro heq
    obtain ⟨hnames, hexpanded⟩ := fromContents_names (F := F) hlower s.toContents
    rw [show AppSettings.fromContents lower s.toContents = s from heq] at hnames hexpanded
    exact ⟨fun n hn => ⟨(hnames n hn).1.1, (hnames n hn).1.2, (hnames n hn).2⟩, hexpanded⟩
  · rintro ⟨hnames, hexpanded⟩
    refine reload_of_storable (hs.storable (fun n hn => ?_) hexpanded)
    obtain ⟨heq, htrim, hne⟩ := hnames n hn
    exact ⟨⟨heq, htrim⟩, hne⟩

end RoundTrip

section Blocked

/-- The default settings with one process that is blocked and shown as an open group. -/
def blockedSettings (n : Text) : AppSettings WholeF32 where
  nameRules := blocked n
  expanded := .ofList [n]

theorem mem_blockedSettings {n n' : Text} :
    (n' ∈ (blockedSettings n).nameRules ↔ n = n') ∧
      (n' ∈ (blockedSettings n).expanded ↔ n = n') := by
  constructor
  · simp [blockedSettings, blocked]
  · rw [blockedSettings, Std.ExtTreeSet.mem_ofList, List.contains_iff_mem, List.mem_singleton,
      eq_comm]

theorem blockedSettings_holdable {n : Text} (h : FileStem n ∧ toAsciiLowercase n = n) :
    (blockedSettings n).Holdable toAsciiLowercase where
  windowWidth := ⟨rfl, rfl⟩
  windowHeight := ⟨rfl, rfl⟩
  globalRule := by constructor <;> simp [blockedSettings]
  names n' hn := mem_blockedSettings.1.mp hn ▸ h
  rules n' rule hn := by
    obtain ⟨-, rfl⟩ := getElem?_blocked.mp hn
    exact ⟨rfl, by constructor <;> simp⟩
  expanded n' hn := mem_blockedSettings.2.mp hn ▸ h

theorem reload_eq_self_browser :
    (blockedSettings browser).reload toAsciiLowercase = blockedSettings browser := by
  refine (reload_eq_self_iff lowercases_toAsciiLowercase _
    (blockedSettings_holdable (by decide))).mpr ⟨fun n hn => ?_, fun e he => ?_⟩
  · rw [← mem_blockedSettings.1.mp hn]
    decide
  · rw [← mem_blockedSettings.2.mp he]
    decide

/-- The rule of `a=b.exe` is lost. -/
theorem reload_ne_self_equals :
    (blockedSettings "a=b".toList).Holdable toAsciiLowercase ∧
      (blockedSettings "a=b".toList).reload toAsciiLowercase ≠ blockedSettings "a=b".toList := by
  refine ⟨blockedSettings_holdable (by decide), fun heq => ?_⟩
  have hrule := congrArg (fun s : AppSettings WholeF32 => s.nameRules["a=b".toList]?) heq
  exact absurd hrule (by decide +kernel)

end Blocked

end FlowBrake.Ui
