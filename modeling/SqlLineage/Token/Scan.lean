import SqlLineage.Comment
import SqlLineage.Token

/-!
# Reading tokens

A text is read one piece at a time. A piece is a token, or a blank, or a comment; reading never fails,
because a quoted text that nothing closes runs to the end and a character of no other use is an
operator.

* `Piece.read`: the piece at the head of a text. `Piece.read_append` says that the characters of the
  piece and the rest make up the text again, so nothing is lost or read twice.
* `Position.after`: where a text ends that begins at a given place.
* `Token.scan`: the tokens of a text.
-/

namespace SqlLineage
open SqlLineage.Text
set_option autoImplicit false

/-! ## Places -/

/-- A place in a text; lines and columns count from one and have no upper bound. Neither goes beyond the number of
characters by more than one, so that counters of 32 bits hold the same numbers in every text of fewer than
`2 ^ 32 - 1` characters. -/
structure Position where
  line : Nat
  col : Nat
deriving DecidableEq

namespace Position

def start : Position := ⟨1, 1⟩

/-- The place behind one character. Only a newline begins a line. -/
def step (p : Position) (c : Char) : Position :=
  if c = '\n' then ⟨p.line + 1, 1⟩ else ⟨p.line, p.col + 1⟩

def after (p : Position) (cs : List Char) : Position :=
  cs.foldl step p

@[simp] theorem after_nil (p : Position) : p.after [] = p := rfl

@[simp] theorem after_cons (p : Position) (c : Char) (cs : List Char) :
    p.after (c :: cs) = (p.step c).after cs := rfl

theorem after_append (p : Position) (a b : List Char) : p.after (a ++ b) = (p.after a).after b := by
  simp [after]

end Position

/-! ## Quoted text and numbers -/

/-- A quoted text: its value, the characters that were read for it, and what follows. -/
structure Quoted where
  value : List Char
  taken : List Char
  rest : List Char

/-- The same text with the character `c` in front, which was written as `written`. -/
def Quoted.push (c : Char) (written : List Char) (q : Quoted) : Quoted :=
  ⟨c :: q.value, written ++ q.taken, q.rest⟩

/-- Reads to the closing delimiter `d`. A doubled delimiter stands for one, except for brackets. -/
def Quoted.read (d : Char) : List Char → Quoted
  | [] => ⟨[], [], []⟩
  | c :: cs =>
    if c = d then
      match cs with
      | [] => ⟨[], [c], []⟩
      | c' :: cs' =>
        if c' = d ∧ d ≠ ']' then (Quoted.read d cs').push d [c, c'] else ⟨[], [c], c' :: cs'⟩
    else (Quoted.read d cs).push c [c]

@[simp] theorem Quoted.read_append (d : Char) (cs : List Char) :
    (Quoted.read d cs).taken ++ (Quoted.read d cs).rest = cs := by
  fun_induction Quoted.read d cs <;> simp_all [Quoted.push]

/-- Digits and points make up the body of a number, in any order. -/
def isNumberChar (c : Char) : Bool :=
  c.isDigit || c == '.'

def startsWithDigit (cs : List Char) : Bool :=
  cs.head?.any Char.isDigit

/-- Whether the text begins with an exponent: the letter, maybe a sign, and a digit. -/
def startsWithExponent : List Char → Bool
  | e :: c :: cs =>
    (e == 'e' || e == 'E') && (c.isDigit || ((c == '+' || c == '-') && startsWithDigit cs))
  | _ => false

/-- The exponent at the head of a text, if there is one, and what follows. -/
def exponent (cs : List Char) : List Char × List Char :=
  if startsWithExponent cs then
    (cs.take 2 ++ (cs.drop 2).takeWhile Char.isDigit, (cs.drop 2).dropWhile Char.isDigit)
  else ([], cs)

@[simp] theorem exponent_append (cs : List Char) : (exponent cs).1 ++ (exponent cs).2 = cs := by
  unfold exponent
  split <;> simp

/-! ## Pieces -/

/-- One step of reading behind a first character: the kind of token, if the piece is one, the further
characters that belong to the piece, and what follows it. -/
structure Piece where
  kind : Option Token.Kind
  taken : List Char
  rest : List Char

namespace Piece

def single (kind : Token.Kind) (cs : List Char) : Piece :=
  ⟨some kind, [], cs⟩

def number (c : Char) (cs : List Char) : Piece :=
  let digits := cs.takeWhile isNumberChar
  let e := exponent (cs.dropWhile isNumberChar)
  ⟨some (.number (String.ofList (c :: (digits ++ e.1)))), digits ++ e.1, e.2⟩

def word (c : Char) (cs : List Char) : Piece :=
  ⟨some (.word (String.ofList (c :: cs.takeWhile isWordChar))), cs.takeWhile isWordChar,
    cs.dropWhile isWordChar⟩

/-- An operator that takes a second sign with it: `::`, `<=`, `>=`, `<>`, `!=`, `||`, `=>`. -/
def operator : List Char → Piece
  | [] => ⟨some .operator, [], []⟩
  | c :: cs =>
    if c = ':' ∨ c = '=' ∨ c = '>' ∨ c = '|' then ⟨some .operator, [c], cs⟩
    else ⟨some .operator, [], c :: cs⟩

/-- A text up to the delimiter `d`, made into a token by `kind`. -/
def delimited (d : Char) (kind : String → Token.Kind) (cs : List Char) : Piece :=
  let q := Quoted.read d cs
  ⟨some (kind (String.ofList q.value)), q.taken, q.rest⟩

/-- The token of a delimited identifier, whose name has no blanks at its ends. -/
def identifier (name : String) : Token.Kind :=
  .quoted (trimmed name)

def read (c : Char) (cs : List Char) : Piece :=
  match c with
  | '(' => single .leftParen cs
  | ')' => single .rightParen cs
  | ',' => single .comma cs
  | ';' => single .semicolon cs
  | '*' => single .star cs
  | '.' => if startsWithDigit cs then number c cs else single .dot cs
  | '-' =>
    if cs.head? = some '-' then ⟨none, (Comment.line cs).1, (Comment.line cs).2⟩
    else single .operator cs
  | '/' =>
    match cs with
    | '*' :: r => ⟨none, '*' :: (Comment.block r).1, (Comment.block r).2⟩
    | _ => single .operator cs
  | '\'' => delimited '\'' .literal cs
  | '"' => delimited '"' identifier cs
  | '\x60' => delimited '\x60' identifier cs
  | '[' => delimited ']' identifier cs
  | _ =>
    if c = ':' ∨ c = '<' ∨ c = '>' ∨ c = '!' ∨ c = '=' ∨ c = '|' then operator cs
    else if c.isDigit then number c cs
    else if isWordChar c then word c cs
    else if isBlank c then ⟨none, [], cs⟩
    else single .operator cs

@[simp] theorem single_append (kind : Token.Kind) (cs : List Char) :
    (single kind cs).taken ++ (single kind cs).rest = cs := rfl

@[simp] theorem number_append (c : Char) (cs : List Char) :
    (number c cs).taken ++ (number c cs).rest = cs := by
  simp [number, List.append_assoc]

@[simp] theorem word_append (c : Char) (cs : List Char) :
    (word c cs).taken ++ (word c cs).rest = cs := by
  simp [word]

@[simp] theorem operator_append (cs : List Char) :
    (operator cs).taken ++ (operator cs).rest = cs := by
  cases cs with
  | nil => rfl
  | cons c cs =>
    by_cases h : c = ':' ∨ c = '=' ∨ c = '>' ∨ c = '|' <;> simp [operator, h]

@[simp] theorem delimited_append (d : Char) (kind : String → Token.Kind) (cs : List Char) :
    (delimited d kind cs).taken ++ (delimited d kind cs).rest = cs := by
  simp [delimited]

theorem read_append (c : Char) (cs : List Char) : (read c cs).taken ++ (read c cs).rest = cs := by
  unfold read
  repeat' split
  all_goals simp

theorem length_rest_le (c : Char) (cs : List Char) : (read c cs).rest.length ≤ cs.length :=
  Comment.length_le_of_append (read_append c cs)

end Piece

/-! ## All tokens of a text -/

namespace Token

def scanFrom (p : Position) : List Char → List Token
  | [] => []
  | c :: cs =>
    let piece := Piece.read c cs
    let p' := p.after (c :: piece.taken)
    match piece.kind with
    | none => scanFrom p' piece.rest
    | some kind =>
      ⟨kind, String.ofList (c :: piece.taken), p'.line, p'.col⟩ :: scanFrom p' piece.rest
termination_by cs => cs.length
decreasing_by all_goals exact Nat.lt_succ_of_le (Piece.length_rest_le c cs)

def scan (s : String) : List Token :=
  scanFrom .start s.toList

end Token
end SqlLineage
