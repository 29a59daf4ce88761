import Mathlib.Data.List.DropRight
import Mathlib.Data.List.Induction

/-! Strings as lists of characters, with the operations of Rust's `str` and their laws. -/

/-- A string, as its list of Unicode scalar values. -/
abbrev Text := List Char

namespace Text

/-- A property of the characters of a text is decided along the text, never over `Char`. -/
instance decidableForallMem (t : Text) (p : Char → Prop) [DecidablePred p] :
    Decidable (∀ c ∈ t, p c) :=
  List.decidableBAll p t

/-- Unicode's `White_Space`. -/
def isWhitespace (c : Char) : Bool :=
  let n := c.toNat
  0x09 ≤ n && n ≤ 0x0d || n = 0x20 || n = 0x85 || n = 0xa0 || n = 0x1680
    || 0x2000 ≤ n && n ≤ 0x200a || n = 0x2028 || n = 0x2029 || n = 0x202f || n = 0x205f
    || n = 0x3000

/-- Unicode's general category `Cc`. -/
def isControl (c : Char) : Bool := c.toNat ≤ 0x1f || 0x7f ≤ c.toNat && c.toNat ≤ 0x9f

def trimStart (t : Text) : Text := t.dropWhile isWhitespace

def trimEnd (t : Text) : Text := t.rdropWhile isWhitespace

def trim (t : Text) : Text := trimEnd (trimStart t)

/-- The text before the first `c` and the text after it. -/
def splitOnce (c : Char) : Text → Option (Text × Text)
  | [] => none
  | d :: t => if d = c then some ([], t) else (splitOnce c t).map fun (a, b) => (d :: a, b)

/-- The text before the last `c` and the text after it. -/
def rsplitOnce (c : Char) : Text → Option (Text × Text)
  | [] => none
  | d :: t =>
    match rsplitOnce c t with
    | some (a, b) => some (d :: a, b)
    | none => if d = c then some ([], t) else none

/-- The lines of a text, without their ends `\n` or `\r\n`. -/
def lines : Text → List Text
  | [] => []
  | '\n' :: t => [] :: lines t
  | '\r' :: '\n' :: t => [] :: lines t
  | c :: t =>
    match lines t with
    | [] => [[c]]
    | line :: rest => (c :: line) :: rest

/-- `lines.join("\n") + "\n"` -/
def unlines (lines : List Text) : Text := ['\n'].intercalate lines ++ ['\n']

/-- `FromStr` of the unsigned integers below `limit`. -/
def parseUnsigned (limit : ℕ) (t : Text) : Option ℕ :=
  let digits := if t.head? = some '+' then t.tail else t
  if digits.isEmpty || !digits.all Char.isDigit then none
  else
    let n := Nat.ofDigitChars 10 digits 0
    if n < limit then some n else none

/-- What `str::to_lowercase` does not do: it maps the characters between the outer white space,
and makes no delimiter. -/
structure Lowercases (lower : Text → Text) : Prop where
  trim_lower : ∀ t, trim (lower t) = lower (trim t)
  of_mem : ∀ c ∈ ['=', ','], ∀ t, c ∈ lower t → c ∈ t

/-- Further, it has nothing to do on its own results, makes no line end, and leaves no text
empty. -/
structure FullyLowercases (lower : Text → Text) : Prop extends Lowercases lower where
  idempotent : ∀ t, lower (lower t) = lower t
  of_newline : ∀ t, '\n' ∈ lower t → '\n' ∈ t
  ne_nil : ∀ t, t ≠ [] → lower t ≠ []

/-- A text without white space at its ends. -/
def Trimmed (t : Text) : Prop := trim t = t

theorem Trimmed.eq {t : Text} (h : Trimmed t) : trim t = t := h

instance (t : Text) : Decidable (Trimmed t) := inferInstanceAs (Decidable (_ = _))

section Trim
variable {t a b : Text} {c : Char}

theorem trimStart_eq_self : trimStart t = t ↔ ∀ c ∈ t.head?, isWhitespace c = false := by
  cases t with
  | nil => simp [trimStart]
  | cons d t =>
    rw [trimStart, List.dropWhile_eq_self_iff]
    simp

theorem trimEnd_eq_self : trimEnd t = t ↔ ∀ c ∈ t.getLast?, isWhitespace c = false := by
  rw [trimEnd, List.rdropWhile_eq_self_iff]
  cases t using List.reverseRecOn with
  | nil => simp
  | append_singleton t d => simp

/-- Trimmed texts begin and end with characters that are not white space. -/
theorem trimmed_iff : Trimmed t ↔ trimStart t = t ∧ trimEnd t = t := by
  refine ⟨fun h => ?_, fun h => (congrArg trimEnd h.1).trans h.2⟩
  have hsuffix : trimStart t <:+ t := List.dropWhile_suffix _
  have hpre : trim t <+: trimStart t := List.rdropWhile_prefix _ _
  have hlen : t.length ≤ (trimStart t).length := by
    simpa [show trim t = t from h] using hpre.length_le
  have hs : trimStart t = t := hsuffix.eq_of_length_le hlen
  exact ⟨hs, by simpa [Trimmed, trim, hs] using h⟩

theorem trimmed_trim (t : Text) : Trimmed (trim t) := by
  have hstart : trimStart (trimStart t) = trimStart t := List.dropWhile_idempotent _ _
  refine trimmed_iff.mpr ⟨?_, List.rdropWhile_idempotent _ _⟩
  obtain ⟨rest, hrest⟩ : trim t <+: trimStart t := List.rdropWhile_prefix _ _
  rw [trimStart_eq_self] at hstart ⊢
  intro c hc
  refine hstart c ?_
  rw [← hrest, List.head?_append_of_ne_nil]
  · exact hc
  · rintro hnil
    simp [hnil] at hc

theorem trimEnd_append (ha : trimEnd a = a) (b : Text) : trimEnd (a ++ b) = a ++ trimEnd b := by
  simp only [trimEnd, List.rdropWhile, List.reverse_append, List.dropWhile_append] at ha ⊢
  split
  · next h => rw [ha, List.isEmpty_iff.mp h]; simp
  · simp

/-- A text between two trimmed ones is not trimmed with them. -/
theorem trimmed_append (ha : Trimmed a) (hb : Trimmed b) (ha' : a ≠ []) (hb' : b ≠ []) (t : Text) :
    Trimmed (a ++ (t ++ b)) := by
  have hs := (trimmed_iff.mp ha).1
  have he := (trimmed_iff.mp hb).2
  rw [trimStart_eq_self] at hs
  rw [trimEnd_eq_self] at he
  refine trimmed_iff.mpr ⟨trimStart_eq_self.mpr ?_, trimEnd_eq_self.mpr ?_⟩
  · rwa [List.head?_append_of_ne_nil _ ha']
  · rwa [← List.append_assoc, List.getLast?_append_of_ne_nil _ hb']

theorem mem_trim (hc : isWhitespace c = false) (h : c ∈ t) : c ∈ trim t := by
  have hstart : c ∈ trimStart t := by
    rw [← List.takeWhile_append_dropWhile (p := isWhitespace) (l := t), List.mem_append] at h
    exact h.resolve_left fun h => absurd (List.mem_takeWhile_imp h) (by simp [hc])
  rw [← List.mem_reverse, ← List.takeWhile_append_dropWhile (p := isWhitespace)
    (l := (trimStart t).reverse), List.mem_append] at hstart
  have hend := hstart.resolve_left fun h => absurd (List.mem_takeWhile_imp h) (by simp [hc])
  exact List.mem_reverse.mpr hend

theorem of_mem_trim (h : c ∈ trim t) : c ∈ t :=
  (List.dropWhile_suffix _).subset ((List.rdropWhile_prefix _ _).subset h)

end Trim

section Split
variable {c : Char} {t a b : Text}

theorem splitOnce_append (h : c ∉ a) (b : Text) : splitOnce c (a ++ c :: b) = some (a, b) := by
  induction a with
  | nil => simp [splitOnce]
  | cons d a ih =>
    simp only [List.mem_cons, not_or] at h
    simp [splitOnce, ih h.2, Ne.symm h.1]

theorem splitOnce_eq_some (h : splitOnce c t = some (a, b)) : t = a ++ c :: b ∧ c ∉ a := by
  induction t generalizing a with
  | nil => cases h
  | cons d t ih =>
    by_cases hd : d = c
    · subst hd
      simp only [splitOnce, if_pos] at h
      cases h
      simp
    · simp only [splitOnce, hd, if_false, Option.map_eq_some_iff, Prod.exists] at h
      obtain ⟨a', b', hs, hp⟩ := h
      cases hp
      obtain ⟨rfl, hc⟩ := ih hs
      exact ⟨rfl, by simp [hc, Ne.symm hd]⟩

theorem splitOnce_eq_none (h : c ∉ t) : splitOnce c t = none := by
  cases hs : splitOnce c t with
  | none => rfl
  | some p => exact absurd (by simp [(splitOnce_eq_some (b := p.2) hs).1]) h

theorem rsplitOnce_eq_none (h : c ∉ t) : rsplitOnce c t = none := by
  induction t with
  | nil => rfl
  | cons d t ih =>
    simp only [List.mem_cons, not_or] at h
    simp [rsplitOnce, ih h.2, Ne.symm h.1]

theorem rsplitOnce_append (a : Text) (h : c ∉ b) : rsplitOnce c (a ++ c :: b) = some (a, b) := by
  induction a with
  | nil => simp [rsplitOnce, rsplitOnce_eq_none h]
  | cons d a ih => simp [rsplitOnce, ih]

theorem rsplitOnce_eq_some (h : rsplitOnce c t = some (a, b)) : t = a ++ c :: b := by
  induction t generalizing a with
  | nil => cases h
  | cons d t ih =>
    simp only [rsplitOnce] at h
    split at h
    · next a' b' hs =>
      cases h
      rw [ih hs]
      rfl
    · split at h
      · next hd =>
        cases h
        rw [hd]
        rfl
      · cases h

end Split

section Lines

/-- A text that stays one line when it is written and read back. -/
def IsLine (t : Text) : Prop := '\n' ∉ t ∧ t.getLast? ≠ some '\r'

theorem isLine_of_control {t : Text} (h : ∀ c ∈ t, isControl c = false) : IsLine t := by
  constructor
  · exact fun hm => absurd (h _ hm) (by decide)
  · exact fun hm => absurd (h _ (List.mem_of_getLast? hm)) (by decide)

theorem lines_append {line : Text} (h : IsLine line) (t : Text) :
    lines (line ++ '\n' :: t) = line :: lines t := by
  induction line with
  | nil => rfl
  | cons c line ih =>
    obtain ⟨hn, hr⟩ := h
    have hc : c ≠ '\n' := fun hc => hn (hc ▸ List.mem_cons_self)
    have hcr : ∀ s : Text, c = '\r' → line ++ '\n' :: t = '\n' :: s → False := by
      intro s hcr hs
      cases line with
      | nil => exact hr (by rw [hcr]; rfl)
      | cons d line =>
        have hd : d = '\n' := (List.cons.inj hs).1
        exact hn (hd ▸ by simp)
    have hline : IsLine line := by
      refine ⟨fun hm => hn (List.mem_cons_of_mem _ hm), fun hlast => hr ?_⟩
      cases line with
      | nil => cases hlast
      | cons d line => rwa [List.getLast?_cons_cons]
    rw [List.cons_append, lines]
    · rw [ih hline]
    · exact hc
    · exact hcr

/-- Lines are read without their ends. -/
theorem not_mem_of_mem_lines {t line : Text} (h : line ∈ lines t) : '\n' ∉ line := by
  fun_induction lines t generalizing line with
  | case1 => cases h
  | case2 t ih =>
    rcases List.mem_cons.mp h with rfl | h
    · simp
    · exact ih h
  | case3 t ih =>
    rcases List.mem_cons.mp h with rfl | h
    · simp
    · exact ih h
  | case4 c t hn hr hnil ih =>
    rw [List.mem_singleton.mp h, List.mem_singleton]
    exact fun hc => hn hc.symm
  | case5 c t hn hr first rest hcons ih =>
    rcases List.mem_cons.mp h with rfl | h
    · intro hm
      rcases List.mem_cons.mp hm with hc | hm
      · exact hn hc.symm
      · exact ih (hcons ▸ List.mem_cons_self) hm
    · exact ih (hcons ▸ List.mem_cons_of_mem _ h)

theorem lines_ne_nil {t : Text} (h : t ≠ []) : lines t ≠ [] := by
  fun_cases lines t <;> simp_all

/-- A text that ends with a line is read on its own. -/
theorem lines_split (a b : Text) : lines (a ++ '\n' :: b) = lines (a ++ ['\n']) ++ lines b := by
  fun_induction lines a with
  | case1 => rfl
  | case2 t ih => simpa [lines] using ih
  | case3 t ih => simpa [lines] using ih
  | case4 c t hn hr hnil ih =>
    have ht : t = [] := by
      by_contra ht
      exact lines_ne_nil ht hnil
    subst ht
    by_cases hc : c = '\r'
    · subst hc
      rfl
    · simp [lines, hc]
  | case5 c t hn hr line rest hcons ih =>
    have hr' (s s' : Text) : c = '\r' → t ++ s = '\n' :: s' → False := by
      intro hc hs
      cases t with
      | nil => simp [lines] at hcons
      | cons d t => exact hr t hc (by simpa using (List.cons.inj hs).1)
    obtain ⟨x, xs, hx⟩ := List.exists_cons_of_ne_nil (lines_ne_nil (t := t ++ ['\n']) (by simp))
    rw [List.cons_append, List.cons_append, lines, lines, ih, hx]
    · rfl
    · exact hn
    · exact hr' _
    · exact hn
    · exact hr' _

theorem unlines_cons (line : Text) {ls : List Text} (h : ls ≠ []) :
    unlines (line :: ls) = line ++ '\n' :: unlines ls := by
  cases ls with
  | nil => exact absurd rfl h
  | cons next rest => simp [unlines, List.intercalate]

theorem unlines_append {ls ms : List Text} (hl : ls ≠ []) (hm : ms ≠ []) :
    unlines (ls ++ ms) = unlines ls ++ unlines ms := by
  induction ls with
  | nil => exact absurd rfl hl
  | cons line ls ih =>
    cases ls with
    | nil =>
      rw [List.singleton_append, unlines_cons line hm]
      simp [unlines, List.intercalate]
    | cons next rest =>
      rw [List.cons_append, unlines_cons line (by simp), unlines_cons line (by simp), ih (by simp)]
      simp

/-- Lines are read back as they were written, whatever they follow. -/
theorem lines_unlines_append {ls ms : List Text} (hl : ls ≠ []) (h : ∀ line ∈ ms, IsLine line) :
    lines (unlines (ls ++ ms)) = lines (unlines ls) ++ ms := by
  induction ms generalizing ls with
  | nil => simp
  | cons line ms ih =>
    have hline : lines (unlines (ls ++ [line])) = lines (unlines ls) ++ [line] := by
      have hsplit := lines_split (['\n'].intercalate ls) (unlines [line])
      have hone := lines_append (h line List.mem_cons_self) []
      rw [unlines_append hl (by simp)]
      simp only [unlines, List.intercalate, List.append_assoc] at hsplit ⊢
      simpa [List.intercalate, lines, hone] using hsplit
    rw [List.append_cons ls line ms, ih (by simp) fun l hm => h l (List.mem_cons_of_mem _ hm),
      hline, List.append_assoc]
    rfl

/-- Lines are read back as they were written. -/
theorem lines_unlines {line : Text} {ls : List Text} (h : ∀ l ∈ line :: ls, IsLine l) :
    lines (unlines (line :: ls)) = line :: ls := by
  have hone := lines_append (h line List.mem_cons_self) []
  rw [← List.singleton_append, lines_unlines_append (by simp)
    fun l hm => h l (List.mem_cons_of_mem _ hm)]
  simp [unlines, List.intercalate, show lines (line ++ ['\n']) = [line] from hone]

end Lines

section Join
variable {c : Char} {t piece : Text}

theorem not_mem_of_mem_splitOn (h : piece ∈ t.splitOn c) : c ∉ piece := by
  induction t generalizing piece with
  | nil =>
    rw [List.splitOn_nil, List.mem_singleton] at h
    simp [h]
  | cons d t ih =>
    rw [List.splitOn_cons_eq_if_modifyHead] at h
    by_cases hd : d = c
    · simp only [hd, beq_self_eq_true, if_true, List.mem_cons] at h
      rcases h with rfl | h
      · simp
      · exact ih h
    · simp only [beq_iff_eq, hd, if_false] at h
      cases hs : t.splitOn c with
      | nil => exact absurd hs (List.splitOn_ne_nil c t)
      | cons first rest =>
        rw [hs] at ih h
        rcases List.mem_cons.mp h with rfl | h
        · simp [Ne.symm hd, ih List.mem_cons_self]
        · exact ih (List.mem_cons_of_mem _ h)

theorem mem_intercalate {sep : Text} {pieces : List Text} (h : c ∈ sep.intercalate pieces) :
    c ∈ sep ∨ ∃ t ∈ pieces, c ∈ t := by
  induction pieces with
  | nil => cases h
  | cons t pieces ih =>
    cases pieces with
    | nil => exact .inr ⟨t, List.mem_cons_self, by simpa using h⟩
    | cons u pieces =>
      rw [List.intercalate_cons_cons, List.mem_append, List.mem_append] at h
      rcases h with (h | h) | h
      · exact .inr ⟨t, List.mem_cons_self, h⟩
      · exact .inl h
      · rcases ih h with hc | ⟨v, hv, hc⟩
        · exact .inl hc
        · exact .inr ⟨v, List.mem_cons_of_mem _ hv, hc⟩

theorem mem_intercalate_of_mem {sep : Text} {pieces : List Text} (ht : t ∈ pieces) (h : c ∈ t) :
    c ∈ sep.intercalate pieces := by
  induction pieces with
  | nil => cases ht
  | cons first pieces ih =>
    cases pieces with
    | nil => simpa [List.mem_singleton.mp ht] using h
    | cons u pieces =>
      rw [List.intercalate_cons_cons, List.mem_append, List.mem_append]
      rcases List.mem_cons.mp ht with rfl | ht
      · exact .inl (.inl h)
      · exact .inr (ih ht)

/-- The pieces of a text have its characters. -/
theorem mem_of_mem_splitOn {d : Char} (hpiece : piece ∈ t.splitOn c) (h : d ∈ piece) : d ∈ t := by
  have hmem : d ∈ [c].intercalate (t.splitOn c) := mem_intercalate_of_mem hpiece h
  rwa [List.intercalate_splitOn] at hmem

/-- Pieces without white space at their ends join to a text without white space at its ends. -/
theorem trimmed_intercalate {pieces : List Text} (h : ∀ t ∈ pieces, Trimmed t ∧ t ≠ []) :
    Trimmed ([c].intercalate pieces) ∧ (pieces ≠ [] → [c].intercalate pieces ≠ []) := by
  induction pieces with
  | nil => exact ⟨rfl, fun hne => absurd rfl hne⟩
  | cons t pieces ih =>
    obtain ⟨ht, hne⟩ := h t List.mem_cons_self
    obtain ⟨hrest, hrest'⟩ := ih fun u hu => h u (List.mem_cons_of_mem _ hu)
    cases pieces with
    | nil => simpa using ⟨ht, hne⟩
    | cons u pieces =>
      rw [List.intercalate_cons_cons, List.append_assoc]
      exact ⟨trimmed_append ht hrest hne (hrest' (by simp)) [c], by simp [hne]⟩

end Join

section Digits

theorem isDigit_of_mem_toDigits {n : ℕ} {c : Char} (h : c ∈ Nat.toDigits 10 n) :
    c.isDigit = true :=
  Nat.isDigit_of_mem_toDigits (by decide) (by decide) h

theorem isWhitespace_of_isDigit {c : Char} (h : c.isDigit = true) : isWhitespace c = false := by
  have hn : 48 ≤ c.toNat ∧ c.toNat ≤ 57 := Char.isDigit_iff_toNat.mp h
  simp only [isWhitespace, Bool.or_eq_false_iff, Bool.and_eq_false_iff, decide_eq_false_iff_not]
  omega

theorem isControl_of_isDigit {c : Char} (h : c.isDigit = true) : isControl c = false := by
  have hn : 48 ≤ c.toNat ∧ c.toNat ≤ 57 := Char.isDigit_iff_toNat.mp h
  simp only [isControl, Bool.or_eq_false_iff, Bool.and_eq_false_iff, decide_eq_false_iff_not]
  omega

theorem trimmed_toDigits {n : ℕ} : Trimmed (Nat.toDigits 10 n) := by
  refine trimmed_iff.mpr ⟨trimStart_eq_self.mpr fun c hc => ?_, trimEnd_eq_self.mpr fun c hc => ?_⟩
  · exact isWhitespace_of_isDigit (isDigit_of_mem_toDigits (List.mem_of_mem_head? hc))
  · exact isWhitespace_of_isDigit (isDigit_of_mem_toDigits (List.mem_of_mem_getLast? hc))

theorem parseUnsigned_toDigits {limit n : ℕ} (h : n < limit) :
    parseUnsigned limit (Nat.toDigits 10 n) = some n := by
  have hplus : (Nat.toDigits 10 n).head? ≠ some '+' := fun hp =>
    absurd (isDigit_of_mem_toDigits (List.mem_of_mem_head? hp)) (by decide)
  have hall : (Nat.toDigits 10 n).all Char.isDigit = true :=
    List.all_eq_true.mpr fun c hc => isDigit_of_mem_toDigits hc
  have hne : (Nat.toDigits 10 n).isEmpty = false := by simp [Nat.toDigits_ne_nil]
  simp [parseUnsigned, hplus, hall, hne, Nat.ofDigitChars_ten_toDigits, h]

theorem parseUnsigned_eq_none {limit : ℕ} {t : Text} {c : Char} (h : c ∈ t) (hplus : c ≠ '+')
    (hd : c.isDigit = false) : parseUnsigned limit t = none := by
  have hmem : c ∈ (if t.head? = some '+' then t.tail else t) := by
    split
    · next hp =>
      cases t with
      | nil => cases h
      | cons d t =>
        cases hp
        exact (List.mem_cons.mp h).resolve_left hplus
    · exact h
  have hall : (if t.head? = some '+' then t.tail else t).all Char.isDigit = false :=
    List.all_eq_false.mpr ⟨c, hmem, by simp [hd]⟩
  simp only [parseUnsigned, hall, Bool.not_false, Bool.or_true, if_true]

end Digits

section LowerCase

/-- `str::to_ascii_lowercase`: what `str::to_lowercase` does to the ASCII characters. -/
def toAsciiLowercase (t : Text) : Text := t.map Char.toLower

theorem toNat_toLower (c : Char) :
    c.toLower.toNat = c.toNat ∨ 65 ≤ c.toNat ∧ c.toNat ≤ 90 ∧ c.toLower.toNat = c.toNat + 32 := by
  unfold Char.toLower
  split
  · next h =>
    have h₁ : 65 ≤ c.toNat := h.1
    have h₂ : c.toNat ≤ 90 := h.2
    refine .inr ⟨h₁, h₂, ?_⟩
    have hadd : (c.val + ('a'.val - 'A'.val)).toNat = c.toNat + 32 := by
      rw [UInt32.toNat_add]
      exact Nat.mod_eq_of_lt (by change c.toNat + 32 < _; omega)
    exact hadd
  · exact .inl rfl

theorem isWhitespace_toLower (c : Char) : isWhitespace c.toLower = isWhitespace c := by
  rcases toNat_toLower c with h | ⟨h₁, h₂, h⟩
  · simp only [isWhitespace, h]
  · rw [Bool.eq_iff_iff]
    simp only [isWhitespace, h, Bool.or_eq_true, Bool.and_eq_true, decide_eq_true_eq]
    omega

theorem toLower_toLower (c : Char) : c.toLower.toLower = c.toLower := by
  rcases toNat_toLower c with h | ⟨h₁, h₂, h⟩
  · have hsame : c.toLower = c := Char.toNat_inj.mp h
    rw [hsame, hsame]
  · rcases toNat_toLower c.toLower with h' | ⟨-, h', -⟩
    · exact Char.toNat_inj.mp h'
    · omega

/-- Lower-casing makes no character that is neither a letter nor there. -/
theorem of_mem_toAsciiLowercase {c : Char} (hc : c.toNat < 97) {t : Text}
    (h : c ∈ toAsciiLowercase t) : c ∈ t := by
  obtain ⟨d, hd, rfl⟩ := List.mem_map.mp h
  rcases toNat_toLower d with h | h
  · rwa [show d.toLower = d from Char.toNat_inj.mp h]
  · omega

theorem lowercases_toAsciiLowercase : Lowercases toAsciiLowercase where
  trim_lower t := by
    have hcomp : isWhitespace ∘ Char.toLower = isWhitespace := funext isWhitespace_toLower
    simp only [trim, trimStart, trimEnd, toAsciiLowercase, List.rdropWhile, List.dropWhile_map,
      ← List.map_reverse, hcomp]
  of_mem c hc t h := by
    refine of_mem_toAsciiLowercase ?_ h
    simp only [List.mem_cons, List.not_mem_nil, or_false] at hc
    rcases hc with rfl | rfl <;> decide

theorem fullyLowercases_toAsciiLowercase : FullyLowercases toAsciiLowercase where
  toLowercases := lowercases_toAsciiLowercase
  idempotent t := by
    rw [toAsciiLowercase, toAsciiLowercase, List.map_map]
    exact List.map_congr_left fun c _ => toLower_toLower c
  of_newline t h := of_mem_toAsciiLowercase (by decide) h
  ne_nil t h := by simpa [toAsciiLowercase] using h

end LowerCase

end Text
