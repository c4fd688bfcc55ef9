import SqlLineage.Toml.Reader

/-!
# Scalars of the settings format

TOML texts, numbers and date-times, in the forms of version 1.0 of the format. Numbers are read for their
value only where settings can use it: the value of a float is not kept, only whether it is one; of a
date-time nothing is kept.

* `blank`, `lineEnd`, `gap`: what may stand between tokens.
* `text`: the four forms of quoted text.
* `integer`, `float`, `dateTime`: numbers and dates. Integers must fit into 64 bits, and a float must
  not be too large to be finite.
-/

namespace SqlLineage.Toml
open Reader
set_option autoImplicit false

/-! ## Blanks, comments and line ends -/

def isBlank (c : Char) : Bool := c == ' ' || c == '\t'

/-- Characters that a comment may hold. -/
def isPlain (c : Char) : Bool :=
  c == '\t' || (0x20 ≤ c.toNat && c.toNat != 0x7F)

def skipBlanks (s : List Char) : List Char := s.dropWhile isBlank

def blank : Reader Unit := fun s => some ((), skipBlanks s)

def lineBreak : Reader Unit
  | '\n' :: s => some ((), s)
  | '\r' :: '\n' :: s => some ((), s)
  | _ => none

/-- Reads the rest of a line on which nothing but a comment may follow. -/
def lineEnd : Reader Unit := fun s =>
  let s := match skipBlanks s with
    | '#' :: s => s.dropWhile isPlain
    | s => s
  if s.isEmpty then some ((), []) else lineBreak s

/-- The text behind blanks, line breaks and comments; `inComment` says where it begins. -/
def gapFrom (inComment : Bool) : List Char → List Char
  | [] => []
  | '\n' :: s => gapFrom false s
  | '\r' :: '\n' :: s => gapFrom false s
  | c :: s =>
    if inComment then if isPlain c then gapFrom true s else c :: s
    else if isBlank c then gapFrom false s
    else if c = '#' then gapFrom true s
    else c :: s

def gap : Reader Unit := fun s => some ((), gapFrom false s)

/-! ## Texts -/

def hexValue (c : Char) : Nat :=
  if c.isDigit then c.toNat - 48 else if c.toNat < 97 then c.toNat - 55 else c.toNat - 87

def isHexDigit (c : Char) : Bool :=
  c.isDigit || ('a' ≤ c && c ≤ 'f') || ('A' ≤ c && c ≤ 'F')

def numberIn (base : Nat) (digits : List Char) : Nat :=
  digits.foldl (fun n c => base * n + hexValue c) 0

def isCode (n : Nat) : Bool :=
  n < 0xD800 || (0xE000 ≤ n && n < 0x110000)

/-- A character given by its code in `n` hexadecimal digits. -/
def codeEscape (n : Nat) : Reader Char :=
  (((times (one isHexDigit) n).map (numberIn 16)).filter isCode).map Char.ofNat

def escapeChar : Reader Char
  | 'b' :: s => some ('\x08', s)
  | 't' :: s => some ('\t', s)
  | 'n' :: s => some ('\n', s)
  | 'f' :: s => some ('\x0c', s)
  | 'r' :: s => some ('\r', s)
  | '"' :: s => some ('"', s)
  | '\\' :: s => some ('\\', s)
  | 'u' :: s => codeEscape 4 s
  | 'U' :: s => codeEscape 8 s
  | _ => none

def escape : Reader Char := next (expect '\\') escapeChar

/-- A character as it stands between the quotes `q`. -/
def plainIn (q : Char) : Reader Char :=
  one fun c => isPlain c && c != q && (q == '\'' || c != '\\')

/-- A text on one line between double quotes. -/
def basicText : Reader String :=
  (next (expect '"') (before (star (orElse (plainIn '"') escape)) (expect '"'))).map String.ofList

/-- A text on one line between single quotes, in which nothing is escaped. -/
def literalText : Reader String :=
  (next (expect '\'') (before (star (plainIn '\'')) (expect '\''))).map String.ofList

/-- A backslash at the end of a line, with all blanks and line breaks up to the next character. -/
def foldedLine : Reader (List Char) :=
  ((next (expect '\\') (next blank (next lineBreak
    (star (orElse lineBreak ((one isBlank).map fun _ => ())))))).map fun _ => [])

/-- One or two quotes inside a text between three. -/
def shortQuotes (q : Char) : Reader (List Char) := fun s =>
  match s with
  | a :: b :: s' =>
    if a = q then
      if b ≠ q then some ([q], b :: s')
      else if s'.head? = some q then none else some ([q, q], s')
    else none
  | _ => none

/-- The three quotes at the end of a text, with up to two more that belong to it. -/
def closingQuotes (q : Char) : Reader (List Char) := fun s =>
  let run := (s.takeWhile (· == q)).length
  if run < 3 then none else some (List.replicate (min run 5 - 3) q, s.drop (min run 5))

/-- A text over several lines between three quotes, made of the pieces that `piece` reads. A line break
right behind the opening quotes does not belong to it, and every line break counts as a newline. -/
def longText (q : Char) (piece : Reader (List Char)) : Reader String :=
  let newline : Reader (List Char) := lineBreak.map fun _ => ['\n']
  let pieces := star (orElse piece (orElse newline (shortQuotes q)))
  (next (expectAll [q, q, q]) (next (optional lineBreak)
    (pieces.bind fun ps => (closingQuotes q).map fun extra =>
      String.ofList (ps.flatten ++ extra))))

def text : Reader String :=
  let single (r : Reader Char) : Reader (List Char) := r.map fun c => [c]
  orElse (longText '"' (orElse (single (plainIn '"')) (orElse foldedLine (single escape))))
    (orElse basicText (orElse (longText '\'' (single (plainIn '\''))) literalText))

/-! ## Numbers -/

/-- Digits of a class, where an underscore may stand between two of them. -/
def digits (isDigit : Char → Bool) : Reader (List Char) :=
  (one isDigit).bind fun d =>
    (star (orElse (one isDigit) (next (expect '_') (one isDigit)))).map fun ds => d :: ds

/-- A sign, which may be missing; `true` is minus. -/
def sign : Reader Bool :=
  (optional (one fun c => c == '+' || c == '-')).map fun c => c == some '-'

/-- The digits of a decimal integer, which has no leading zero. -/
def decimalDigits : Reader (List Char) :=
  orElse ((digits Char.isDigit).filter fun ds => ds.head? != some '0')
    ((expect '0').map fun _ => ['0'])

/-- An integer in the base that a letter behind a zero stands for. -/
def prefixed (letter : Char) (base : Nat) (isDigit : Char → Bool) : Reader Int :=
  (next (expectAll ['0', letter]) (digits isDigit)).map fun ds => numberIn base ds

/-- Whether a number fits into 64 bits with a sign. -/
def fits (n : Int) : Bool :=
  -0x8000000000000000 ≤ n && n < 0x8000000000000000

def integer : Reader Int :=
  let decimal : Reader Int := sign.bind fun negative => decimalDigits.map fun ds =>
    if negative then -(numberIn 10 ds : Int) else numberIn 10 ds
  let isOctal (c : Char) : Bool := '0' ≤ c && c ≤ '7'
  let isBinary (c : Char) : Bool := c == '0' || c == '1'
  (orElse (prefixed 'x' 16 isHexDigit) (orElse (prefixed 'o' 8 isOctal)
    (orElse (prefixed 'b' 2 isBinary) decimal))).filter fits

/-- The least number that double precision rounds to infinity: the middle between its largest number and
the next power of two. -/
def infinityFrom : Nat := Nat.pow 2 1024 - Nat.pow 2 970

/-- Whether the decimal number with the given digits, times a power of ten, is rounded to a finite
number of double precision. -/
def isFinite (ds : List Char) (exponent : Int) : Bool :=
  let m := numberIn 10 ds
  let size : Int := exponent + ds.length
  if m = 0 ∨ size < -400 then true
  else if exponent > 400 then false
  else if exponent < 0 then m < infinityFrom * Nat.pow 10 exponent.natAbs
  else m * Nat.pow 10 exponent.natAbs < infinityFrom

/-- The exponent of a float. -/
def floatExponent : Reader Int :=
  next (one fun c => c == 'e' || c == 'E') (sign.bind fun negative =>
    (digits Char.isDigit).map fun ds => if negative then -(numberIn 10 ds : Int) else numberIn 10 ds)

/-- The places of a float and its exponent, of which one may be missing. -/
def floatTail : Reader (List Char × Int) :=
  orElse (floatExponent.map fun e => ([], e))
    ((next (expect '.') (digits Char.isDigit)).bind fun places =>
      (optional floatExponent).map fun e => (places, e.getD 0))

/-- A float. A negative one may be as large as it likes. -/
def float : Reader Unit :=
  let decimal : Reader Unit :=
    ((sign.bind fun negative => decimalDigits.bind fun ds => floatTail.map fun t =>
      negative || isFinite (ds ++ t.1) (t.2 - t.1.length)).filter id).map fun _ => ()
  let special : Reader Unit :=
    next sign (orElse (expectAll ['i', 'n', 'f']) (expectAll ['n', 'a', 'n']))
  orElse decimal special

/-! ## Dates and times -/

/-- A number of exactly `n` digits between two bounds. -/
def field (n low high : Nat) : Reader Nat :=
  ((times (one Char.isDigit) n).map (numberIn 10)).filter fun v => low ≤ v && v ≤ high

def daysIn (year month : Nat) : Nat :=
  if month = 2 then if year % 4 = 0 ∧ (year % 100 ≠ 0 ∨ year % 400 = 0) then 29 else 28
  else if month = 4 ∨ month = 6 ∨ month = 9 ∨ month = 11 then 30 else 31

def date : Reader Unit :=
  (field 4 0 9999).bind fun year => next (expect '-') <| (field 2 1 12).bind fun month =>
    next (expect '-') ((field 2 1 (daysIn year month)).map fun _ => ())

/-- A time of day, maybe with a fraction of a second. -/
def time : Reader Unit :=
  next (field 2 0 23) <| next (expect ':') <| next (field 2 0 59) <| next (expect ':') <|
    next (field 2 0 60) <|
      (optional (next (expect '.') (plus (one Char.isDigit)))).map fun _ => ()

def offset : Reader Unit :=
  orElse ((one fun c => c == 'Z' || c == 'z').map fun _ => ())
    (next (one fun c => c == '+' || c == '-') <| next (field 2 0 23) <| next (expect ':') <|
      (field 2 0 59).map fun _ => ())

/-- A date, a time, or both, maybe with a time zone. -/
def dateTime : Reader Unit :=
  orElse
    (next date <| (optional (next (one fun c => c == 'T' || c == 't' || c == ' ')
      (next time (optional offset)))).map fun _ => ())
    time

end SqlLineage.Toml
