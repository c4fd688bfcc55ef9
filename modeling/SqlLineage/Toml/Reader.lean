/-!
# Readers

A reader takes something from the front of a text and hands back what follows, or refuses. The readers
of the settings format are built from a few general ones.

* `many`: repeats a reader as long as it makes progress, which is why it ends.
* `expect`, `orElse`, `optional`, `separated`: the usual ways to combine readers.
-/

namespace SqlLineage.Toml
set_option autoImplicit false

/-- A reader of an `α` from the front of a text. -/
abbrev Reader (α : Type) := List Char → Option (α × List Char)

namespace Reader
variable {α β : Type}

def expect (c : Char) : Reader Unit
  | [] => none
  | d :: s => if d = c then some ((), s) else none

def expectAll : List Char → Reader Unit
  | [], s => some ((), s)
  | c :: cs, s => match expect c s with
    | some (_, s) => expectAll cs s
    | none => none

def one (p : Char → Bool) : Reader Char
  | [] => none
  | c :: s => if p c then some (c, s) else none

def map (f : α → β) (r : Reader α) : Reader β := fun s =>
  (r s).map fun x => (f x.1, x.2)

def bind (r : Reader α) (f : α → Reader β) : Reader β := fun s =>
  match r s with
  | some (a, s) => f a s
  | none => none

def next (r : Reader α) (q : Reader β) : Reader β := r.bind fun _ => q

def before (r : Reader α) (q : Reader β) : Reader α := r.bind fun a => q.map fun _ => a

/-- Reads with the first reader, or if it refuses with the second. -/
def orElse (r q : Reader α) : Reader α := fun s =>
  match r s with
  | some x => some x
  | none => q s

def filter (p : α → Bool) (r : Reader α) : Reader α := r.bind fun a s =>
  if p a then some (a, s) else none

def optional (r : Reader α) : Reader (Option α) := fun s =>
  match r s with
  | some (a, s) => some (some a, s)
  | none => some (none, s)

/-- Reads the same kind of thing again and again, while there is progress. -/
def many (r : Reader α) (s : List Char) : List α × List Char :=
  match r s with
  | some (a, s') =>
    if s'.length < s.length then (many r s').map (List.cons a) id else ([], s)
  | none => ([], s)
termination_by s.length

def star (r : Reader α) : Reader (List α) := fun s => some (many r s)

def plus (r : Reader α) : Reader (List α) := r.bind fun a => (star r).map fun as => a :: as

def times (r : Reader α) : Nat → Reader (List α)
  | 0 => fun s => some ([], s)
  | n + 1 => r.bind fun a => (times r n).map fun as => a :: as

/-- Reads at least one thing, with a separator between neighbours. -/
def separated (r : Reader α) (separator : Reader β) : Reader (List α) :=
  r.bind fun a => (star (next separator r)).map fun as => a :: as

end Reader
end SqlLineage.Toml
