import SqlLineage.Text.Upper

/-!
# Letter case

Two foldings of different reach. Keywords and column names are compared with `foldCase`, which moves
ASCII letters only; table names are filed under `upper`, the full upper-case mapping of Unicode, where
one character may become several.
-/

namespace SqlLineage.Text
set_option autoImplicit false

/-! ## ASCII case -/

/-- The text with its ASCII letters in upper case. -/
def foldCase (s : String) : String :=
  String.ofList (s.toList.map Char.toUpper)

/-- Equality up to the case of ASCII letters. -/
def sameFold (a b : String) : Bool :=
  foldCase a == foldCase b

@[simp] theorem toList_foldCase (s : String) : (foldCase s).toList = s.toList.map Char.toUpper := by
  simp [foldCase]

theorem sameFold_iff {a b : String} : sameFold a b = true ↔ foldCase a = foldCase b := by
  simp [sameFold]

@[simp] theorem sameFold_refl (a : String) : sameFold a a = true := by
  simp [sameFold]

theorem sameFold_comm (a b : String) : sameFold a b = sameFold b a := by
  unfold sameFold
  rw [Bool.eq_iff_iff]
  simp only [beq_iff_eq]
  exact eq_comm

/-! ## Full upper case -/

/-- Whether the run moves the code point `n`. -/
def UpperRun.covers (r : UpperRun) (n : Nat) : Bool :=
  r.first ≤ n && n ≤ r.last && (n - r.first) % r.step == 0

/-- The upper case of one character, as the characters that replace it. -/
def upperChar (c : Char) : List Char :=
  if c.toNat < 0x80 then [c.toUpper]
  else match upperExpansions.lookup c.toNat with
    | some codes => codes.map Char.ofNat
    | none => match upperRuns.find? (·.covers c.toNat) with
      | some r => [Char.ofNat (c.toNat + r.up - r.down)]
      | none => [c]

/-- The upper case of a text, character by character. -/
def upper (s : String) : String :=
  String.ofList (s.toList.flatMap upperChar)

@[simp] theorem toList_upper (s : String) : (upper s).toList = s.toList.flatMap upperChar := by
  simp [upper]

theorem upper_append (a b : String) : upper (a ++ b) = upper a ++ upper b := by
  simp [upper, String.ofList_append]

end SqlLineage.Text
