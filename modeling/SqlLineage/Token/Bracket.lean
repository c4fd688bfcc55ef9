import SqlLineage.Token

/-!
# Parentheses

How parentheses group the tokens of a statement. Depths may go below zero, since statements need not
be balanced, and have no bounds. They never go beyond the number of tokens on either side, so that
counters of 32 bits with a sign hold the same depths for every list of fewer than `2 ^ 31` tokens.

* `depths`: the depth in front of every token; a closing parenthesis counts as outside already.
* `closing?`: the parenthesis that closes the one at an index.
* `topLevelSpans`, `topLevel`: what stands between the commas at depth zero.
* `unwrapped`: a token list without one pair of parentheses around all of it.
-/

namespace SqlLineage.Token
set_option autoImplicit false

/-! ## Depths -/

def depthChange (t : Token) : Int :=
  match t.kind with
  | .leftParen => 1
  | .rightParen => -1
  | _ => 0

/-- The depths of tokens that begin at depth `d`. -/
def depthsFrom (d : Int) : List Token → List Int
  | [] => []
  | t :: ts =>
    (if t.kind = .rightParen then d - 1 else d) :: depthsFrom (d + t.depthChange) ts

def depths (ts : List Token) : List Int :=
  depthsFrom 0 ts

/-- The depth of the token at `i`, or zero if there is none. -/
def depthAt (ts : List Token) (i : Nat) : Int :=
  (depths ts).getD i 0

/-- A token with its index in a list and its depth there. -/
structure Placed where
  token : Token
  depth : Int
  index : Nat

def placed (ts : List Token) : List Placed :=
  (ts.zip (depths ts)).zipIdx.map fun p => ⟨p.1.1, p.1.2, p.2⟩

def before? (ts : List Token) (i : Nat) : Option Token :=
  if i = 0 then none else ts[i - 1]?

@[simp] theorem length_depthsFrom (d : Int) (ts : List Token) :
    (depthsFrom d ts).length = ts.length := by
  induction ts generalizing d with
  | nil => rfl
  | cons t ts ih => simp [depthsFrom, ih]

@[simp] theorem length_depths (ts : List Token) : (depths ts).length = ts.length :=
  length_depthsFrom 0 ts

/-! ## The closing parenthesis -/

/-- Looks for the closing parenthesis that brings the depth to zero; `i` is the index of the first
token and `d` the depth in front of it. -/
def closingFrom (i : Nat) (d : Int) : List Token → Option Nat
  | [] => none
  | t :: ts =>
    if t.kind = .rightParen ∧ d = 1 then some i
    else closingFrom (i + 1) (d + t.depthChange) ts

/-- The index of the parenthesis that closes the one at `start`, if it is closed at all. -/
def closing? (ts : List Token) (start : Nat) : Option Nat :=
  closingFrom start 0 (ts.drop start)

theorem closingFrom_bounds {i j : Nat} {d : Int} {ts : List Token}
    (h : closingFrom i d ts = some j) : i ≤ j ∧ j < i + ts.length := by
  induction ts generalizing i d with
  | nil => simp [closingFrom] at h
  | cons t ts ih =>
    unfold closingFrom at h
    split at h
    · cases h
      simp
    · have := ih h
      simp only [List.length_cons]
      omega

theorem closing?_bounds {ts : List Token} {i j : Nat} (h : closing? ts i = some j) :
    i < j ∧ j < ts.length := by
  unfold closing? at h
  have hb := closingFrom_bounds h
  rw [List.length_drop] at hb
  cases hd : ts.drop i with
  | nil => simp [hd, closingFrom] at h
  | cons t rest =>
    rw [hd] at h
    unfold closingFrom at h
    have h0 : ¬ (t.kind = .rightParen ∧ (0 : Int) = 1) := by omega
    rw [if_neg h0] at h
    have := closingFrom_bounds h
    omega

/-! ## Groups between commas -/

/-- A run of tokens, from the index `start` up to the index `stop`. -/
structure Span where
  start : Nat
  stop : Nat
deriving DecidableEq

/-- The elements of a list at the indices of a span. -/
def Span.of {α : Type} (s : Span) (xs : List α) : List α :=
  (xs.drop s.start).take (s.stop - s.start)

/-- The span as a list of none or one: empty groups are dropped. -/
def Span.nonempty (start stop : Nat) : List Span :=
  if start < stop then [⟨start, stop⟩] else []

/-- The spans of the groups of tokens that begin at the index `i` and at depth `d`, where the current
group began at `start`. -/
def spansFrom (i start : Nat) (d : Int) : List Token → List Span
  | [] => Span.nonempty start i
  | t :: ts =>
    if t.kind = .comma ∧ d = 0 then Span.nonempty start i ++ spansFrom (i + 1) (i + 1) d ts
    else spansFrom (i + 1) start (d + t.depthChange) ts

def topLevelSpans (ts : List Token) : List Span :=
  spansFrom 0 0 0 ts

/-- The non-empty groups between the commas at depth zero. -/
def topLevel (ts : List Token) : List (List Token) :=
  (topLevelSpans ts).map (·.of ts)

/-! ## Parentheses around everything -/

/-- `( query )` becomes `query` if the first parenthesis is closed by the last token. -/
def unwrapped (ts : List Token) : List Token :=
  match ts with
  | t :: rest =>
    if t.kind = .leftParen ∧ closing? ts 0 = some rest.length then rest.dropLast else ts
  | [] => []

/-- The names at the heads of the groups of a bracketed list; a group that begins with no name is left
out. -/
def headNames (ts : List Token) : List String :=
  (topLevel ts).filterMap fun group => group.head?.bind identifier?

/-- A list `( name, ... )`: its names and the index behind the closing parenthesis. -/
structure NameList where
  names : List String
  next : Nat
deriving DecidableEq

def nameList? (ts : List Token) (start : Nat) : Option NameList :=
  match ts[start]? with
  | some t =>
    if t.kind = .leftParen then
      (closing? ts start).map fun close =>
        ⟨headNames (Span.of ⟨start + 1, close⟩ ts), close + 1⟩
    else none
  | none => none

end SqlLineage.Token
