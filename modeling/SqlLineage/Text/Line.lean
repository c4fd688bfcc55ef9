import SqlLineage.Text.Character

/-!
# Trimming and lines

`trim` removes blanks at both ends. `lines` cuts a text at its line breaks: a line break is a newline
with one carriage return before it, if there is one; a last line without a newline keeps its carriage
return, and a text that ends in a newline has no empty last line.
-/

namespace SqlLineage.Text
set_option autoImplicit false

/-! ## Trimming -/

def trimEnd (cs : List Char) : List Char :=
  (cs.reverse.dropWhile isBlank).reverse

def trim (cs : List Char) : List Char :=
  trimEnd (cs.dropWhile isBlank)

def trimmed (s : String) : String :=
  String.ofList (trim s.toList)

@[simp] theorem toList_trimmed (s : String) : (trimmed s).toList = trim s.toList := by
  simp [trimmed]

/-! ## Lines -/

/-- The character list cut at its line breaks. -/
def lines : List Char → List (List Char)
  | [] => []
  | '\n' :: cs => [] :: lines cs
  | '\r' :: '\n' :: cs => [] :: lines cs
  | c :: cs => match lines cs with
    | [] => [[c]]
    | l :: ls => (c :: l) :: ls

end SqlLineage.Text
