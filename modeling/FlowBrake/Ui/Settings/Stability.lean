import FlowBrake.Ui.Settings.RoundTrip

/-! What a settings file is read as is saved and read as the same again. -/
namespace FlowBrake.Ui
open FlowBrake.Core Text

section Values
variable {get : Text → Option Text} {name : String}

theorem le_of_lossField {value : UInt16} (h : value ∈ lossField get name) : value ≤ 10000 := by
  obtain ⟨-, hle⟩ := Option.mem_filter_iff.mp h
  exact of_decide_eq_true hle

theorem le_of_delayField {value : UInt32} (h : value ∈ delayField get name) :
    value ≤ maxDelayMs := by
  obtain ⟨text, -, hjoin⟩ := Option.bind_eq_some_iff.mp h
  cases hparse : parseDelayMs text with
  | error e => simp [hparse, Except.toOption] at hjoin
  | ok delay =>
    rw [hparse] at hjoin
    have hdelay : delay = some value := hjoin
    exact le_of_parseDelayMs (hdelay ▸ hparse)

/-- Whatever the texts of its fields, a rule is read within its bounds. -/
theorem inRange_ruleOfFields (get : Text → Option Text) : InRange (ruleOfFields get) where
  downloadLoss _ h := le_of_lossField h
  uploadLoss _ h := le_of_lossField h
  downloadDelay _ h := le_of_delayField h
  uploadDelay _ h := le_of_delayField h
  unadjusted := rfl

end Values

section Clamp
variable {F : Type} [F32 F] [OrderedF32 F]

theorem lt_ofInt_of_le {a b : ℤ} (ha : a.natAbs ≤ 2 ^ 24) (hb : b.natAbs ≤ 2 ^ 24) (h : b ≤ a) :
    F32.lt (F32.ofInt a : F) (F32.ofInt b) = false := by
  rw [OrderedF32.lt_ofInt a b ha hb, decide_eq_false_iff_not]
  omega

/-- A clamped value is within its bounds. -/
theorem clamp_within (x : F) (min max : ℤ) (hmin : min.natAbs ≤ 2 ^ 24)
    (hmax : max.natAbs ≤ 2 ^ 24) (h : min ≤ max) :
    F32.lt (clamp x (F32.ofInt min) (F32.ofInt max)) (F32.ofInt min) = false ∧
      F32.lt (F32.ofInt max) (clamp x (F32.ofInt min) (F32.ofInt max)) = false := by
  have hminmin : F32.lt (F32.ofInt min : F) (F32.ofInt min) = false :=
    lt_ofInt_of_le hmin hmin (le_refl min)
  have hmaxmax : F32.lt (F32.ofInt max : F) (F32.ofInt max) = false :=
    lt_ofInt_of_le hmax hmax (le_refl max)
  have hmaxmin : F32.lt (F32.ofInt max : F) (F32.ofInt min) = false := lt_ofInt_of_le hmax hmin h
  unfold clamp
  dsimp only
  cases hx : F32.lt x (F32.ofInt min) with
  | true =>
    simp only [if_true, hmaxmin, Bool.false_eq_true, if_false]
    exact ⟨hminmin, trivial⟩
  | false =>
    cases hx' : F32.lt (F32.ofInt max) x with
    | true =>
      simp only [Bool.false_eq_true, if_false, hx', if_true]
      exact ⟨hmaxmin, hmaxmax⟩
    | false =>
      simp only [Bool.false_eq_true, if_false, hx', hx, and_self]

end Clamp

section Image
variable {F : Type} [F32 F] {lower : Text → Text}

/-- What further holds of the variables of `from_contents` after every line. -/
structure Reading.Stable (lower : Text → Text) (r : Reading F) : Prop where
  windowWidth : F32.lt r.settings.windowWidth (minWindowWidth F) = false ∧
    F32.lt (maxWindowSide F) r.settings.windowWidth = false
  windowHeight : F32.lt r.settings.windowHeight (minWindowHeight F) = false ∧
    F32.lt (maxWindowSide F) r.settings.windowHeight = false
  scopes : ∀ scope ∈ r.ruleEntries, scope ≠ globalScope → IsName lower scope
  expanded : ∀ e ∈ r.settings.expanded, IsName lower e

/-- A lower-cased text is a name if it comes from a line and something is left of it. -/
theorem isName_lower (hlower : FullyLowercases lower) {t : Text} (hn : '\n' ∉ t)
    (hne : lower t ≠ []) : IsName lower (lower t) :=
  ⟨hne, hlower.idempotent t, fun hm => hn (hlower.of_newline t hm)⟩

theorem isName_of_ruleKey (hlower : FullyLowercases lower) {key scope field : Text}
    (hkey : '\n' ∉ key) (h : ruleKey lower key = some (scope, field)) (hne : scope ≠ globalScope) :
    IsName lower scope := by
  unfold ruleKey at h
  split at h
  · cases h
    exact absurd rfl hne
  · split at h
    · next name field' hname =>
      dsimp only at h
      split at h
      · cases h
      · next hempty =>
        cases h
        obtain ⟨rest, hdrop, hdot⟩ := Option.bind_eq_some_iff.mp hname
        obtain ⟨start, rfl, -⟩ := List.dropPrefix?_eq_some_iff.mp hdrop
        refine isName_lower hlower (fun hm => hkey ?_) (by simpa using hempty)
        rw [rsplitOnce_eq_some hdot]
        exact List.mem_append_right _ (List.mem_append_left _ (of_mem_trim hm))
    · cases h

theorem isName_of_mem_readNames (hlower : FullyLowercases lower) {value e : Text}
    (hvalue : '\n' ∉ value) (h : e ∈ readNames lower value) : IsName lower e := by
  simp only [readNames, Std.ExtTreeSet.mem_ofList, List.contains_iff_mem, List.mem_map,
    List.mem_filter] at h
  obtain ⟨_, ⟨⟨piece, hpiece, rfl⟩, hempty⟩, rfl⟩ := h
  refine isName_lower hlower (fun hm => hvalue ?_) (hlower.ne_nil _ (by simpa using hempty))
  exact mem_of_mem_splitOn hpiece (of_mem_trim hm)

/-- A preference is set to a value that is saved as it is. -/
theorem stable_of_setKey [OrderedF32 F] (hlower : FullyLowercases lower) {r : Reading F}
    (hr : r.Stable lower) {key value : Text} (hvalue : '\n' ∉ value) {settings : AppSettings F}
    (h : r.settings.setKey lower key value = some settings) :
    Reading.Stable lower { r with settings } := by
  have hwidth (x : F) := clamp_within x 900 10000 (by decide) (by decide) (by decide)
  have hheight (x : F) := clamp_within x 500 10000 (by decide) (by decide) (by decide)
  unfold AppSettings.setKey at h
  split_ifs at h <;> cases h
  · exact ⟨hr.windowWidth, hr.windowHeight, hr.scopes, hr.expanded⟩
  · exact ⟨hr.windowWidth, hr.windowHeight, hr.scopes, hr.expanded⟩
  · exact ⟨hr.windowWidth, hr.windowHeight, hr.scopes, hr.expanded⟩
  · cases F32.parse (F := F) value with
    | none => exact hr
    | some width => exact ⟨hwidth width, hr.windowHeight, hr.scopes, hr.expanded⟩
  · cases F32.parse (F := F) value with
    | none => exact hr
    | some height => exact ⟨hr.windowWidth, hheight height, hr.scopes, hr.expanded⟩
  · cases F32.parse (F := F) value <;>
      exact ⟨hr.windowWidth, hr.windowHeight, hr.scopes, hr.expanded⟩
  · cases F32.parse (F := F) value <;>
      exact ⟨hr.windowWidth, hr.windowHeight, hr.scopes, hr.expanded⟩
  · exact ⟨hr.windowWidth, hr.windowHeight, hr.scopes, hr.expanded⟩
  · exact ⟨hr.windowWidth, hr.windowHeight, hr.scopes,
      fun e he => isName_of_mem_readNames hlower hvalue he⟩

theorem stable_readLine [OrderedF32 F] (hlower : FullyLowercases lower) {r : Reading F}
    (hr : r.Stable lower) {line : Text} (hline : '\n' ∉ line) :
    (r.readLine lower line).Stable lower := by
  simp only [Reading.readLine]
  split
  · exact hr
  · split
    · next key value hsplit =>
      have hparts := (splitOnce_eq_some hsplit).1
      have hmem {c : Char} (hc : c ∈ key ∨ c ∈ value) : c ∈ line := by
        refine of_mem_trim (hparts ▸ ?_)
        rcases hc with hc | hc
        · exact List.mem_append_left _ hc
        · exact List.mem_append_right _ (List.mem_cons_of_mem _ hc)
      have hkey : '\n' ∉ trim key := fun hm => hline (hmem (.inl (of_mem_trim hm)))
      have hvalue : '\n' ∉ trim value := fun hm => hline (hmem (.inr (of_mem_trim hm)))
      unfold Reading.setKey
      split
      · next hset => exact stable_of_setKey hlower hr hvalue hset
      · split
        · next scope field hrule =>
          refine ⟨hr.windowWidth, hr.windowHeight, fun n hn hne => ?_, hr.expanded⟩
          rcases (mem_addEntry r.ruleEntries ⟨scope, field, trim value⟩ n).mp hn with rfl | hn
          · exact isName_of_ruleKey hlower hkey hrule hne
          · exact hr.scopes n hn hne
        · exact hr
    · exact hr

theorem stable_default [OrderedF32 F] : Reading.Stable lower ({} : Reading F) where
  windowWidth := ⟨lt_ofInt_of_le (by decide) (by decide) (by decide),
    lt_ofInt_of_le (by decide) (by decide) (by decide)⟩
  windowHeight := ⟨lt_ofInt_of_le (by decide) (by decide) (by decide),
    lt_ofInt_of_le (by decide) (by decide) (by decide)⟩
  scopes := by simp
  expanded e he := absurd he Std.ExtTreeSet.not_mem_empty

theorem stable_foldl [OrderedF32 F] (hlower : FullyLowercases lower) (contents : Text) :
    ((lines contents).foldl (Reading.readLine lower) ({} : Reading F)).Stable lower :=
  List.foldlRecOn (motive := Reading.Stable lower) _ _ stable_default
    fun _ hr _ hline => stable_readLine hlower hr (not_mem_of_mem_lines hline)

/-- The file can hold what it is read as. -/
theorem storable_fromContents [OrderedF32 F] (hlower : FullyLowercases lower) (contents : Text) :
    (AppSettings.fromContents lower contents : AppSettings F).Storable lower := by
  have hstable := stable_foldl (F := F) hlower contents
  obtain ⟨hnames, hexpanded⟩ := fromContents_names (F := F) hlower.toLowercases contents
  have hglobal : (AppSettings.fromContents lower contents : AppSettings F).globalRule = _ :=
    globalRule_eq (foldl_readLine_globalRule _ _)
  have hrules (n : Text) : (AppSettings.fromContents lower contents : AppSettings F).nameRules[n]? =
      _ := getElem?_nameRules _ n
  constructor
  · exact hstable.windowWidth
  · exact hstable.windowHeight
  · rw [hglobal]
    exact inRange_ruleOfFields _
  · intro n hn
    obtain ⟨hkey, hne⟩ := hnames n hn
    refine ⟨hstable.scopes n ?_ hne, hkey, hne⟩
    have hsome := Std.ExtTreeMap.mem_iff_isSome_getElem?.mp hn
    rw [hrules] at hsome
    split at hsome
    · next hmem => exact hmem.1
    · cases hsome
  · intro n rule hn
    rw [hrules] at hn
    split at hn
    · obtain ⟨hrule, hany⟩ := Option.filter_eq_some_iff.mp hn
      cases hrule
      exact ⟨hany, inRange_ruleOfFields _⟩
    · cases hn
  · exact fun e he => ⟨hstable.expanded e he, hexpanded e he⟩

/-- Whatever a file is read as, saving it and reading it again gives the same. -/
theorem fromContents_toContents_fromContents [OrderedF32 F] (hlower : FullyLowercases lower)
    (contents : Text) :
    (AppSettings.fromContents lower
        (AppSettings.fromContents lower contents : AppSettings F).toContents : AppSettings F) =
      AppSettings.fromContents lower contents :=
  reload_of_storable (storable_fromContents hlower contents)

/-- Lines in disorder, for one. -/
def looseContents : Text :=
  "expanded = A, ,b\r\n\n # x\nwindow_width=7\nrule. Chat.block_all= yes\nglobal.adaptive".toList

theorem fromContents_toContents_fromContents_loose :
    (AppSettings.fromContents toAsciiLowercase
        (AppSettings.fromContents toAsciiLowercase looseContents :
          AppSettings WholeF32).toContents : AppSettings WholeF32) =
      AppSettings.fromContents toAsciiLowercase looseContents :=
  fromContents_toContents_fromContents fullyLowercases_toAsciiLowercase looseContents

end Image

end FlowBrake.Ui
