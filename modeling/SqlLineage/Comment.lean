import SqlLineage.Text.Line

/-!
# Comments

A line comment runs from two dashes up to the next line break; a block comment runs from `/*` through
the next `*/`. Either one runs to the end of the text if nothing closes it.

* `Comment.line`, `Comment.block`: the characters of a comment and what follows it.
* `Comment.strip`: a text without its comments. A block comment leaves one space, so that the words
  around it stay apart; quoted text is copied as it stands, whatever it looks like.
-/

namespace SqlLineage.Comment
open SqlLineage.Text
set_option autoImplicit false

/-! ## One comment -/

def line (cs : List Char) : List Char × List Char :=
  (cs.takeWhile (· != '\n'), cs.dropWhile (· != '\n'))

/-- The characters through the next `*/`, and what follows. -/
def block : List Char → List Char × List Char
  | [] => ([], [])
  | '*' :: '/' :: cs => (['*', '/'], cs)
  | c :: cs => (block cs).map (List.cons c) id

/-- The characters through the next `q`, and what follows. -/
def through (q : Char) : List Char → List Char × List Char
  | [] => ([], [])
  | c :: cs => if c = q then ([c], cs) else (through q cs).map (List.cons c) id

@[simp] theorem line_append (cs : List Char) : (line cs).1 ++ (line cs).2 = cs := by
  simp [line]

@[simp] theorem block_append (cs : List Char) : (block cs).1 ++ (block cs).2 = cs := by
  fun_induction block cs with
  | case1 => rfl
  | case2 => rfl
  | case3 c cs _ ih => simp [ih]

@[simp] theorem through_append (q : Char) (cs : List Char) :
    (through q cs).1 ++ (through q cs).2 = cs := by
  induction cs with
  | nil => rfl
  | cons c cs ih => by_cases h : c = q <;> simp [through, h, ih]

/-- What follows a comment or a quoted text is never longer than the text that held it. -/
theorem length_le_of_append {a b cs : List Char} (h : a ++ b = cs) : b.length ≤ cs.length := by
  subst h
  simp

/-! ## A text without comments -/

/-- The three quotes whose text is copied as it stands. -/
def isQuote (c : Char) : Bool :=
  c == '\'' || c == '"' || c == '\x60'

def remove : List Char → List Char
  | [] => []
  | c :: cs =>
    if c = '-' ∧ cs.head? = some '-' then remove (line cs).2
    else if c = '/' ∧ cs.head? = some '*' then ' ' :: remove (block cs.tail).2
    else if isQuote c then c :: ((through c cs).1 ++ remove (through c cs).2)
    else c :: remove cs
termination_by cs => cs.length
decreasing_by
  · exact Nat.lt_succ_of_le (length_le_of_append (line_append cs))
  · have h := length_le_of_append (block_append cs.tail)
    have h' : cs.tail.length ≤ cs.length := by simp
    simp only [List.length_cons]
    omega
  · exact Nat.lt_succ_of_le (length_le_of_append (through_append c cs))
  · simp

/-- A text without comments and without blanks at its ends. -/
def strip (s : String) : String :=
  String.ofList (trim (remove s.toList))

@[simp] theorem toList_strip (s : String) : (strip s).toList = trim (remove s.toList) := by
  simp [strip]

end SqlLineage.Comment
