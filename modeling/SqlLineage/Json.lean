/-!
# JSON texts

JSON values with whole numbers and objects that keep the order of their keys, and their two written
forms: compact, without any blank, and indented by two blanks. Characters outside ASCII are written as
they are; only quotes, backslashes and control characters are escaped.
-/

namespace SqlLineage
set_option autoImplicit false

inductive Json where
  | null
  | bool (b : Bool)
  | num (n : Int)
  | str (s : String)
  | arr (items : List Json)
  | obj (fields : List (String × Json))

namespace Json

/-! ## Strings -/

def hexDigit (n : Nat) : Char :=
  if n < 10 then Char.ofNat (48 + n) else Char.ofNat (87 + n)

/-- How a character is written inside a string. -/
def escaped (c : Char) : List Char :=
  match c with
  | '"' => ['\\', '"']
  | '\\' => ['\\', '\\']
  | '\x08' => ['\\', 'b']
  | '\t' => ['\\', 't']
  | '\n' => ['\\', 'n']
  | '\x0c' => ['\\', 'f']
  | '\r' => ['\\', 'r']
  | _ =>
    if c.toNat < 0x20 then ['\\', 'u', '0', '0', hexDigit (c.toNat / 16), hexDigit (c.toNat % 16)]
    else [c]

def quoted (s : String) : String :=
  String.ofList ('"' :: (s.toList.flatMap escaped ++ ['"']))

/-! ## Written forms -/

/-- The characters that open and close a value with parts. -/
def openObject : String := "\x7b"

def closeObject : String := "\x7d"

mutual
def compact : Json → String
  | .null => "null"
  | .bool b => if b then "true" else "false"
  | .num n => toString n
  | .str s => quoted s
  | .arr items => "[" ++ ",".intercalate (compactItems items) ++ "]"
  | .obj fields => openObject ++ ",".intercalate (compactFields fields) ++ closeObject

def compactItems : List Json → List String
  | [] => []
  | j :: js => compact j :: compactItems js

def compactFields : List (String × Json) → List String
  | [] => []
  | (k, j) :: js => (quoted k ++ ":" ++ compact j) :: compactFields js
end

/-- A line break and the indentation of the next line. -/
def newline (depth : Nat) : String :=
  String.ofList ('\n' :: List.replicate (2 * depth) ' ')

/-- Parts on lines of their own between two brackets; without parts the brackets touch. -/
def indented (depth : Nat) (opening closing : String) (parts : List String) : String :=
  if parts.isEmpty then opening ++ closing
  else opening ++ newline (depth + 1) ++ ("," ++ newline (depth + 1)).intercalate parts ++
    newline depth ++ closing

mutual
/-- The indented form of a value that begins on a line of the given depth. -/
def pretty (depth : Nat) : Json → String
  | .null => "null"
  | .bool b => if b then "true" else "false"
  | .num n => toString n
  | .str s => quoted s
  | .arr items => indented depth "[" "]" (prettyItems (depth + 1) items)
  | .obj fields => indented depth openObject closeObject (prettyFields (depth + 1) fields)

def prettyItems (depth : Nat) : List Json → List String
  | [] => []
  | j :: js => pretty depth j :: prettyItems depth js

def prettyFields (depth : Nat) : List (String × Json) → List String
  | [] => []
  | (k, j) :: js => (quoted k ++ ": " ++ pretty depth j) :: prettyFields depth js
end

/-! ## Building values -/

def ofNat (n : Nat) : Json := .num n

def strings (ss : List String) : Json := .arr (ss.map .str)

/-- A field that is left out if there is no value for it. -/
def optionalField (key : String) (value : Option String) : List (String × Json) :=
  match value with
  | some s => [(key, .str s)]
  | none => []

end Json
end SqlLineage
