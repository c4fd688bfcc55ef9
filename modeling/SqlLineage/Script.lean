import SqlLineage.Text.Fold
import SqlLineage.Text.Line

/-!
# Scripts and their statements

A script is cut into statements in two steps. A line that holds only `GO`, in any case, ends a block,
and brackets never reach over it. Inside a block a semicolon outside all parentheses ends a statement;
quotes are not looked at, and a closing parenthesis too many is ignored.

* `Script.blocks`: the texts between the `GO` lines, each line ended by a newline.
* `Script.cut`: a block cut at its semicolons.
* `Script.statements`: the trimmed, non-empty pieces of all blocks in order.
-/

namespace SqlLineage.Script
open SqlLineage.Text
set_option autoImplicit false

/-- A line that only holds the batch separator. -/
def isSeparator (l : List Char) : Bool :=
  sameFold (String.ofList (trim l)) "GO"

/-- The blocks of a list of lines; there is always one, maybe empty, after the last separator. -/
def blocks : List (List Char) → List (List Char)
  | [] => [[]]
  | l :: ls =>
    if isSeparator l then [] :: blocks ls
    else match blocks ls with
      | [] => [l ++ ['\n']]
      | b :: bs => (l ++ '\n' :: b) :: bs

def depthAfter (depth : Nat) (c : Char) : Nat :=
  if c = '(' then depth + 1 else if c = ')' then depth - 1 else depth

/-- The pieces of a block between the semicolons at depth zero; the semicolons are dropped. -/
def cut (depth : Nat) : List Char → List (List Char)
  | [] => [[]]
  | c :: cs =>
    if c = ';' ∧ depth = 0 then [] :: cut 0 cs
    else match cut (depthAfter depth c) cs with
      | [] => [[c]]
      | p :: ps => (c :: p) :: ps

def blockStatements (block : List Char) : List (List Char) :=
  ((cut 0 block).map trim).filter (!·.isEmpty)

/-- The statements of a script, trimmed and none of them empty. -/
def statements (s : String) : List String :=
  ((blocks (lines s.toList)).flatMap blockStatements).map String.ofList

theorem blocks_ne_nil (ls : List (List Char)) : blocks ls ≠ [] := by
  cases ls with
  | nil => simp [blocks]
  | cons l ls =>
    unfold blocks
    split
    · simp
    · split <;> simp

theorem cut_ne_nil (depth : Nat) (cs : List Char) : cut depth cs ≠ [] := by
  cases cs with
  | nil => simp [cut]
  | cons c cs =>
    unfold cut
    split
    · simp
    · split <;> simp

end SqlLineage.Script
