import SqlLineage.Text.Fold

/-!
# Tokens

A token is a kind, the text it was read from, and the place just behind that text.

* `Token.Kind`: punctuation, any other sign (`operator`), and the four kinds that carry a text.
* `Token.isWord`, `Token.isOneOf`: keywords, compared up to ASCII case. Only an unquoted word can be a
  keyword, so a quoted name never ends a clause.
* `Token.identifier?`: the name that a word or a quoted identifier stands for.
-/

namespace SqlLineage
set_option autoImplicit false

/-- The kind of a token. A quoted identifier carries its name without quotes and outer blanks, a
literal its value without quotes. -/
inductive Token.Kind where
  | leftParen
  | rightParen
  | comma
  | dot
  | star
  | semicolon
  | operator
  | word (text : String)
  | quoted (name : String)
  | literal (value : String)
  | number (text : String)
deriving DecidableEq

/-- A token of a statement. `line` and `col` count from one and say where the text after the token
begins; they have no upper bound, as those of a `Position`. -/
structure Token where
  kind : Token.Kind
  lexeme : String
  line : Nat
  col : Nat
deriving DecidableEq

namespace Token
open SqlLineage.Text

/-- Whether the token is an unquoted word among `keywords`, which are written in upper case. -/
def isOneOf (t : Token) (keywords : List String) : Bool :=
  match t.kind with
  | .word text => keywords.contains (foldCase text)
  | _ => false

/-- Whether the token is the unquoted word `keyword`, which is written in upper case. -/
def isWord (t : Token) (keyword : String) : Bool :=
  match t.kind with
  | .word text => foldCase text == keyword
  | _ => false

/-- The name that a word or a quoted identifier stands for. -/
def identifier? (t : Token) : Option String :=
  match t.kind with
  | .word text => some text
  | .quoted name => some name
  | _ => none

def isIdentifier (t : Token) : Bool :=
  t.identifier?.isSome

def isQuoted (t : Token) : Bool :=
  match t.kind with
  | .quoted _ => true
  | _ => false

def wordAt (ts : List Token) (i : Nat) (keyword : String) : Bool :=
  ts[i]?.any (·.isWord keyword)

def opensAt (ts : List Token) (i : Nat) : Bool :=
  ts[i]?.any (·.kind == .leftParen)

/-- The index behind the unquoted word `keyword`, if it stands at `i`. -/
def behindWord (ts : List Token) (i : Nat) (keyword : String) : Nat :=
  if wordAt ts i keyword then i + 1 else i

theorem isOneOf_singleton (t : Token) (keyword : String) :
    t.isOneOf [keyword] = t.isWord keyword := by
  unfold isOneOf isWord
  split
  · rw [Bool.eq_iff_iff]
    simp
  · rfl

/-- The source texts of the tokens, with one space between neighbours. -/
def spelled (ts : List Token) : String :=
  " ".intercalate (ts.map Token.lexeme)

end Token
end SqlLineage
