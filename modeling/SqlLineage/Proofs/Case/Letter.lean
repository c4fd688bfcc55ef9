import SqlLineage.Keyword
import SqlLineage.Proofs.Registry.Usage
import SqlLineage.Proofs.Text.Line

/-! # Characters and ASCII case

`Char.toUpper` moves 26 letters and nothing else, so every class of characters that matters to the readers
holds as many capitals as small letters, and every sign that they look for is its own capital.

* `Text.toUpper_cases`: what becomes of a character.
* `Text.toUpper_eq_iff`: a character becomes a given sign only if it is that sign.
* `Text.isBlank_toUpper`, `Text.isWordChar_toUpper`, `Text.isDigit_toUpper`: the classes.
* `Text.foldCase_foldCase`, `Text.upper_foldCase`, `Text.sameFold_foldCase`: folding twice, and the two
  foldings together. -/

namespace SqlLineage.Text
set_option autoImplicit false

/-! ## One character -/

/-- A character is its own capital, or one of the 26 letters that move down by 32. -/
theorem toUpper_cases (c : Char) :
    c.toUpper = c ∨ 97 ≤ c.toNat ∧ c.toNat ≤ 122 ∧ c.toUpper.toNat = c.toNat - 32 := by
  unfold Char.toUpper
  split
  · next h =>
    obtain ⟨hlow, hhigh⟩ := h
    simp only [UInt32.le_iff_toNat_le] at hlow hhigh
    have hlow : 97 ≤ c.toNat := hlow
    have hhigh : c.toNat ≤ 122 := hhigh
    refine .inr ⟨hlow, hhigh, ?_⟩
    show (c.val + (65 - 97 : UInt32)).toNat = c.toNat - 32
    rw [UInt32.toNat_add]
    show (c.toNat + 4294967264) % 4294967296 = c.toNat - 32
    omega
  · exact .inl rfl

theorem isAlpha_iff {c : Char} :
    c.isAlpha = true ↔ (65 ≤ c.toNat ∧ c.toNat ≤ 90) ∨ (97 ≤ c.toNat ∧ c.toNat ≤ 122) := by
  show (c.isUpper || c.isLower) = true ↔ _
  rw [Bool.or_eq_true]
  apply or_congr
  · show decide (c.val ≥ 'A'.val ∧ c.val ≤ 'Z'.val) = true ↔ _
    rw [decide_eq_true_eq]
    rfl
  · show (decide (c.val ≥ 'a'.val) && decide (c.val ≤ 'z'.val)) = true ↔ _
    rw [Bool.and_eq_true, decide_eq_true_eq, decide_eq_true_eq]
    rfl

theorem isDigit_iff {c : Char} : c.isDigit = true ↔ 48 ≤ c.toNat ∧ c.toNat ≤ 57 := by
  simp only [Char.isDigit, ge_iff_le, UInt32.le_iff_toNat_le, Bool.and_eq_true, decide_eq_true_eq]
  rfl

theorem toUpper_toUpper (c : Char) : c.toUpper.toUpper = c.toUpper := by
  rcases toUpper_cases c with h | ⟨hlow, hhigh, h⟩
  · rw [h, h]
  · rcases toUpper_cases c.toUpper with h' | ⟨hlow', -, -⟩
    · exact h'
    · omega

/-- A sign: no letter with a counterpart in the other case. -/
def isSign (c : Char) : Bool :=
  !c.isAlpha

theorem not_alpha_of_isSign {d : Char} (hd : isSign d = true) :
    ¬((65 ≤ d.toNat ∧ d.toNat ≤ 90) ∨ (97 ≤ d.toNat ∧ d.toNat ≤ 122)) := by
  rw [isSign, Bool.not_eq_true', Bool.eq_false_iff, ne_eq, isAlpha_iff] at hd
  exact hd

theorem toUpper_of_isSign {d : Char} (hd : isSign d = true) : d.toUpper = d := by
  have hno := not_alpha_of_isSign hd
  rcases toUpper_cases d with h | ⟨hlow, hhigh, -⟩
  · exact h
  · omega

theorem toUpper_eq_iff {c d : Char} (hd : isSign d = true) : c.toUpper = d ↔ c = d := by
  have hno := not_alpha_of_isSign hd
  constructor
  · rintro rfl
    rcases toUpper_cases c with h | ⟨hlow, hhigh, h⟩
    · exact h.symm
    · omega
  · rintro rfl
    exact toUpper_of_isSign hd

theorem toUpper_beq {d : Char} (hd : isSign d = true) (c : Char) : (c.toUpper == d) = (c == d) := by
  rw [Bool.eq_iff_iff, beq_iff_eq, beq_iff_eq]
  exact toUpper_eq_iff hd

theorem isDigit_toUpper (c : Char) : c.toUpper.isDigit = c.isDigit := by
  rcases toUpper_cases c with h | ⟨hlow, hhigh, h⟩
  · rw [h]
  · rw [Bool.eq_iff_iff, isDigit_iff, isDigit_iff]
    omega

theorem toUpper_of_isDigit {c : Char} (hc : c.isDigit = true) : c.toUpper = c := by
  rw [isDigit_iff] at hc
  rcases toUpper_cases c with h | ⟨hlow, -, -⟩
  · exact h
  · omega

theorem isBlank_toUpper (c : Char) : isBlank c.toUpper = isBlank c := by
  rcases toUpper_cases c with h | ⟨hlow, hhigh, h⟩
  · rw [h]
  · rw [Bool.eq_iff_iff]
    simp only [isBlank, Bool.or_eq_true, Bool.and_eq_true, decide_eq_true_eq, beq_iff_eq]
    omega

theorem isWordChar_of_isAlpha {c : Char} (h : c.isAlpha = true) : isWordChar c = true := by
  have hc := isAlpha_iff.mp h
  rw [isWordChar, isAlphabetic, if_pos (by omega), h]
  rfl

theorem isWordChar_toUpper (c : Char) : isWordChar c.toUpper = isWordChar c := by
  rcases toUpper_cases c with h | ⟨hlow, hhigh, h⟩
  · rw [h]
  · rw [isWordChar_of_isAlpha (isAlpha_iff.mpr (by omega)), isWordChar_of_isAlpha (isAlpha_iff.mpr (by omega))]

/-! ## Lists of characters -/

theorem trim_map_toUpper (cs : List Char) : trim (cs.map Char.toUpper) = (trim cs).map Char.toUpper := by
  have hblank : isBlank ∘ Char.toUpper = isBlank := funext isBlank_toUpper
  rw [trim, trimEnd, trim, trimEnd, List.dropWhile_map, hblank, ← List.map_reverse, List.dropWhile_map, hblank,
    ← List.map_reverse]

/-- A character that ends no line ends none in capitals. -/
theorem lines_cons_toUpper {c : Char} {cs : List Char} (hn : c = '\n' → False)
    (hr : ∀ rest, c = '\r' → cs = '\n' :: rest → False) :
    lines (c.toUpper :: cs.map Char.toUpper) =
      (c.toUpper :: (lines (cs.map Char.toUpper)).headD []) :: (lines (cs.map Char.toUpper)).tail := by
  rw [lines]
  · cases lines (cs.map Char.toUpper) <;> rfl
  · exact fun h => hn ((toUpper_eq_iff (by decide)).mp h)
  · intro r hreturn hrest
    obtain ⟨c', cs', rfl, hc', -⟩ := List.map_eq_cons_iff.mp hrest
    exact hr cs' ((toUpper_eq_iff (by decide)).mp hreturn) (by rw [(toUpper_eq_iff (by decide)).mp hc'])

theorem lines_map_toUpper (cs : List Char) :
    lines (cs.map Char.toUpper) = (lines cs).map (List.map Char.toUpper) := by
  fun_induction lines cs with
  | case1 => rfl
  | case2 cs ih => exact congrArg ([] :: ·) ih
  | case3 cs ih => exact congrArg ([] :: ·) ih
  | case4 c cs hn hr hnil ih =>
    rw [List.map_cons, lines_cons_toUpper hn hr, ih, hnil]
    rfl
  | case5 c cs hn hr l ls hl ih =>
    rw [List.map_cons, lines_cons_toUpper hn hr, ih, hl]
    rfl

theorem map_toUpper_eq_iff {cs ds : List Char} (hd : ∀ d ∈ ds, isSign d = true) :
    cs.map Char.toUpper = ds ↔ cs = ds := by
  induction ds generalizing cs with
  | nil => exact List.map_eq_nil_iff
  | cons d ds ih =>
    obtain ⟨hsign, hds⟩ := List.forall_mem_cons.mp hd
    cases cs with
    | nil => simp
    | cons c cs => rw [List.map_cons, List.cons_eq_cons, List.cons_eq_cons, toUpper_eq_iff hsign, ih hds]

/-! ## Texts -/

theorem foldCase_ofList (cs : List Char) : foldCase (String.ofList cs) = String.ofList (cs.map Char.toUpper) := by
  rw [← String.toList_inj, toList_foldCase, String.toList_ofList, String.toList_ofList]

@[simp] theorem foldCase_foldCase (s : String) : foldCase (foldCase s) = foldCase s := by
  rw [← String.toList_inj, toList_foldCase, toList_foldCase, List.map_map]
  exact List.map_congr_left fun c _ => toUpper_toUpper c

theorem sameFold_foldCase (s : String) : sameFold (foldCase s) s = true := by
  rw [sameFold_iff, foldCase_foldCase]

@[simp] theorem upper_foldCase (s : String) : upper (foldCase s) = upper s :=
  upper_eq_of_sameFold (sameFold_foldCase s)

theorem foldCase_append (a b : String) : foldCase (a ++ b) = foldCase a ++ foldCase b := by
  rw [← String.toList_inj]
  simp

theorem foldCase_intercalate (separator : String) (parts : List String) :
    foldCase (separator.intercalate parts) = (foldCase separator).intercalate (parts.map foldCase) := by
  induction parts with
  | nil => rfl
  | cons part parts ih =>
    cases parts with
    | nil => simp
    | cons next parts =>
      rw [String.intercalate_cons_cons, foldCase_append, foldCase_append, ih]
      simp only [List.map_cons, String.intercalate_cons_cons]

theorem foldCase_toString (n : Nat) : foldCase (toString n) = toString n := by
  show foldCase n.repr = n.repr
  rw [← String.toList_inj, toList_foldCase, Nat.toList_repr]
  have hdigits : ∀ c ∈ Nat.toDigits 10 n, c.toUpper = id c := fun c hc =>
    toUpper_of_isDigit (Nat.isDigit_of_mem_toDigits (by decide) (by decide) hc)
  rw [List.map_congr_left hdigits, List.map_id]

@[simp] theorem isEmpty_foldCase (s : String) : (foldCase s).isEmpty = s.isEmpty := by
  rw [Bool.eq_iff_iff, String.isEmpty_iff, String.isEmpty_iff, ← String.toList_inj, ← String.toList_inj,
    toList_foldCase]
  simp

theorem foldCase_trimmed (s : String) : foldCase (trimmed s) = trimmed (foldCase s) := by
  rw [← String.toList_inj, toList_foldCase, toList_trimmed, toList_trimmed, toList_foldCase, trim_map_toUpper]

@[simp] theorem sameFold_foldCase_left (a b : String) : sameFold (foldCase a) b = sameFold a b := by
  rw [sameFold, foldCase_foldCase, sameFold]

@[simp] theorem sameFold_foldCase_right (a b : String) : sameFold a (foldCase b) = sameFold a b := by
  rw [sameFold, foldCase_foldCase, sameFold]

/-- A text of signs is spelled in one way only. -/
theorem eq_of_sameFold_signs {s t : String} (ht : ∀ c ∈ t.toList, isSign c = true) (h : sameFold s t = true) :
    s = t := by
  have hself : t.toList.map Char.toUpper = t.toList := (map_toUpper_eq_iff ht).mpr rfl
  have hl : s.toList.map Char.toUpper = t.toList := by
    rw [← toList_foldCase, sameFold_iff.mp h, toList_foldCase, hself]
  rw [← String.toList_inj]
  exact (map_toUpper_eq_iff ht).mp hl

end SqlLineage.Text
