import SqlLineage.Proofs.Checked.ColumnBlock
import SqlLineage.Statement

/-! # Statements without faults

The reader of a statement keeps an index into its tokens and moves it over the words that it knows.

* `Checked.tableBody_eq`, `Checked.view?_eq`: the parts of a table and of a view are cut out without a fault.
* `Checked.statement?_eq`: every list of tokens is read without a fault. -/

namespace SqlLineage
open SqlLineage.Token
set_option autoImplicit false

namespace Checked

/-! ## The body of a table -/

section TableBody
variable (ts : List Token)

/-- The index of the first `AS` at depth zero. -/
def asWord? : Checked (Option Nat) :=
  find ts 0 fun i => do
    let depth ← get (depths ts) i
    if depth == 0 then (·.isWord "AS") <$> get ts i else .ok false

/-- The index of the first `AS` at depth zero that a query follows. -/
def asQuery? : Checked (Option Nat) :=
  find ts 0 fun i => do
    let depth ← get (depths ts) i
    if depth == 0 then do
      let t ← get ts i
      if t.isWord "AS" then TableBody.startsQuery <$> suffix ts (i + 1) else .ok false
    else .ok false

theorem asWord?_eq : asWord? ts =
    .ok (((placed ts).find? fun p => p.depth == 0 && p.token.isWord "AS").map Placed.index) := by
  refine find_eq 0 fun x hx => ?_
  obtain ⟨htoken, hdepth⟩ := get_placed hx
  rw [hdepth, ok_bind, htoken]
  cases x.depth == 0 <;> rfl

theorem asQuery?_eq : asQuery? ts = .ok (TableBody.asQuery? ts) := by
  refine find_eq 0 fun x hx => ?_
  obtain ⟨htoken, hdepth⟩ := get_placed hx
  rw [hdepth, ok_bind, htoken, ok_bind, suffix_eq (lt_length_of_mem_placed hx), map_ok]
  cases x.depth == 0 with
  | false => rfl
  | true => cases x.token.isWord "AS" <;> rfl

def queryBehind (i : Nat) : Checked (List Token) := do
  let behind ← suffix ts (i + 1)
  unwrapped behind

theorem queryBehind_eq {i : Nat} (h : i < ts.length) :
    queryBehind ts i = .ok (Token.unwrapped (ts.drop (i + 1))) := by
  rw [queryBehind, suffix_eq h, ok_bind, unwrapped_eq]

def closedBlock (start close : Nat) : Checked ColumnBlock := do
  let definitions ← slice ts (start + 1) close
  let before ← slice ts 0 start
  let after ← suffix ts (close + 1)
  .ok ⟨definitions, before, after, true⟩

def openBlock (start : Nat) : Checked ColumnBlock := do
  let definitions ← suffix ts (start + 1)
  let before ← slice ts 0 start
  .ok ⟨definitions, before, [], false⟩

theorem closedBlock_eq {start close : Nat} (h : closing? ts start = some close) :
    closedBlock ts start close = .ok (TableBody.closedBlock ts start close) := by
  obtain ⟨hlt, hle⟩ := closing?_bounds h
  rw [closedBlock, slice_eq hlt (Nat.le_of_lt hle), ok_bind, prefix_eq (by omega), ok_bind, suffix_eq hle]
  rfl

theorem openBlock_eq {start : Nat} (h : start < ts.length) :
    openBlock ts start = .ok (TableBody.openBlock ts start) := by
  rw [openBlock, suffix_eq h, ok_bind, prefix_eq (Nat.le_of_lt h)]
  rfl

def tableBody : Checked TableBody := do
  let as? ← asQuery? ts
  match ts.findIdx? (·.kind == .leftParen), as? with
  | none, none => .ok .empty
  | none, some i => .query <$> queryBehind ts i
  | some start, as? =>
    match closing? ts start, as? with
    | some close, some i =>
      if i < start ∨ close < i then .query <$> queryBehind ts i else .columns <$> closedBlock ts start close
    | some close, none => .columns <$> closedBlock ts start close
    | none, some i => if i < start then .query <$> queryBehind ts i else .columns <$> openBlock ts start
    | none, none => .columns <$> openBlock ts start

theorem tableBody_eq : tableBody ts = .ok (.ofTokens ts) := by
  have hquery : ∀ {i : Nat}, TableBody.asQuery? ts = some i →
      TableBody.query <$> queryBehind ts i = .ok (TableBody.queryAt ts i) := by
    intro i hi
    obtain ⟨x, hx, rfl⟩ := Option.map_eq_some_iff.mp hi
    rw [queryBehind_eq ts (lt_length_of_mem_placed (List.mem_of_find?_eq_some hx))]
    rfl
  unfold tableBody TableBody.ofTokens
  rw [asQuery?_eq, ok_bind]
  cases hstart : ts.findIdx? (·.kind == .leftParen) with
  | none =>
    cases has : TableBody.asQuery? ts with
    | none => rfl
    | some i => exact hquery has
  | some start =>
    obtain ⟨hlt, -⟩ := List.findIdx?_eq_some_iff_findIdx_eq.mp hstart
    dsimp only
    cases hclose : closing? ts start with
    | some close =>
      cases has : TableBody.asQuery? ts with
      | some i =>
        dsimp only
        split
        · exact hquery has
        · rw [closedBlock_eq ts hclose]
          rfl
      | none =>
        dsimp only
        rw [closedBlock_eq ts hclose]
        rfl
    | none =>
      cases has : TableBody.asQuery? ts with
      | some i =>
        dsimp only
        split
        · exact hquery has
        · rw [openBlock_eq ts hlt]
          rfl
      | none =>
        dsimp only
        rw [openBlock_eq ts hlt]
        rfl

end TableBody

/-! ## Words at an index -/

section Words
variable (ts : List Token) (i : Nat)

def behindOneOf (keywords : List String) : Nat :=
  if ts[i]?.any (·.isOneOf keywords) then i + 1 else i

def behindOrReplace : Nat :=
  if wordAt ts i "OR" then behindOneOf ts (i + 1) ["REPLACE", "ALTER"] else i

def behindIfNotExists : Nat :=
  if wordAt ts i "IF" then behindOneOf ts (behindOneOf ts (i + 1) ["NOT"]) ["EXISTS"] else i

theorem skipOneOf_drop (keywords : List String) :
    Statement.skipOneOf keywords (ts.drop i) = ts.drop (behindOneOf ts i keywords) := by
  rw [behindOneOf, ← List.head?_drop]
  cases hdrop : ts.drop i with
  | nil =>
    rw [List.head?_nil, Option.any_none]
    exact hdrop.symm
  | cons t rest =>
    rw [Statement.skipOneOf, List.head?_cons, Option.any_some]
    split
    · rw [← List.tail_drop, hdrop, List.tail_cons]
    · exact hdrop.symm

theorem expect?_drop (keyword : String) :
    Statement.expect? keyword (ts.drop i) = if wordAt ts i keyword then some (ts.drop (i + 1)) else none := by
  rw [wordAt, ← List.head?_drop]
  cases hdrop : ts.drop i with
  | nil => rfl
  | cons t rest =>
    rw [Statement.expect?, List.head?_cons, Option.any_some, ← List.tail_drop, hdrop, List.tail_cons]

theorem skipOrReplace_drop : Statement.skipOrReplace (ts.drop i) = ts.drop (behindOrReplace ts i) := by
  rw [Statement.skipOrReplace, expect?_drop, behindOrReplace]
  by_cases h : wordAt ts i "OR"
  · rw [if_pos h, if_pos h]
    dsimp only
    rw [skipOneOf_drop]
  · rw [if_neg h, if_neg h]

theorem skipIfNotExists_drop : Statement.skipIfNotExists (ts.drop i) = ts.drop (behindIfNotExists ts i) := by
  rw [Statement.skipIfNotExists, expect?_drop, behindIfNotExists]
  by_cases h : wordAt ts i "IF"
  · rw [if_pos h, if_pos h]
    dsimp only
    rw [skipOneOf_drop, skipOneOf_drop]
  · rw [if_neg h, if_neg h]

end Words

/-! ## Whole statements -/

section Statements
variable (ts : List Token)

/-- The view of a name whose column list or query begins at `i`. -/
def view? (name : String) (i : Nat) : Checked (Option Statement) := do
  match ← (if opensAt ts i then nameList? ts i else .ok (some ⟨[], i⟩)) with
  | none => .ok none
  | some columns => do
    let rest ← suffix ts (min columns.next ts.length)
    match ← asWord? rest with
    | none => .ok none
    | some as => do
      let query ← queryBehind rest as
      .ok (some (.createView name columns.names query))

theorem view?_eq (name : String) (i : Nat) : view? ts name i = .ok (Statement.viewOf? name (ts.drop i)) := by
  have hcolumns : (if opensAt ts i then nameList? ts i else .ok (some ⟨[], i⟩)) =
      .ok ((if opensAt (ts.drop i) 0 then Token.nameList? (ts.drop i) 0 else some ⟨[], 0⟩).map
        fun l => (⟨l.names, i + l.next⟩ : NameList)) := by
    have hlist := nameList?_drop i 0 ts
    rw [Nat.add_zero] at hlist
    rw [opensAt_drop, Nat.add_zero, nameList?_eq, hlist]
    split <;> rfl
  unfold view? Statement.viewOf?
  rw [hcolumns, ok_bind]
  cases (if opensAt (ts.drop i) 0 then Token.nameList? (ts.drop i) 0 else some ⟨[], 0⟩) with
  | none => rfl
  | some columns =>
    dsimp only [Option.map_some]
    rw [suffix_eq (Nat.min_le_right _ _), ok_bind, drop_min, ← List.drop_drop, asWord?_eq, ok_bind, Statement.behindAs?]
    cases hfind : (placed ((ts.drop i).drop columns.next)).find? (fun p => p.depth == 0 && p.token.isWord "AS") with
    | none => rfl
    | some x =>
      dsimp only [Option.map_some]
      rw [queryBehind_eq _ (lt_length_of_mem_placed (List.mem_of_find?_eq_some hfind))]
      rfl

/-- The table whose name begins at `i`. -/
def table? (i : Nat) : Checked (Option Statement) := do
  match ← readName? ts (behindIfNotExists ts i) with
  | none => .ok none
  | some name => do
    let rest ← suffix ts (min name.next ts.length)
    let body ← tableBody rest
    .ok (some (.createTable name.text body))

/-- The view whose name begins at `i`. -/
def namedView? (i : Nat) : Checked (Option Statement) := do
  match ← readName? ts (behindIfNotExists ts i) with
  | none => .ok none
  | some name => view? ts name.text name.next

/-- The statement whose `CREATE` stands in front of `i`. -/
def create? (i : Nat) : Checked (Option Statement) :=
  let i := behindOneOf ts (behindOneOf ts (behindOrReplace ts i) ["GLOBAL", "LOCAL"]) Statement.storageWords
  if wordAt ts i "TABLE" then table? ts (i + 1)
  else
    let i := behindOneOf ts (behindOneOf ts i ["SECURE", "RECURSIVE"]) ["MATERIALIZED"]
    if wordAt ts i "VIEW" then namedView? ts (i + 1) else .ok none

def statement? : Checked (Option Statement) :=
  match ts.head? with
  | none => .ok none
  | some t =>
    if t.isWord "CREATE" then create? ts 1
    else if t.isOneOf ["WITH", "SELECT"] then .ok (some (.query ts))
    else .ok none

theorem name?_drop (i : Nat) : Statement.name? (ts.drop i) =
    (QualifiedName.read? ts (behindIfNotExists ts i)).map fun n => (n.text, ts.drop n.next) := by
  have hname := QualifiedName.read?_drop (behindIfNotExists ts i) 0 ts
  rw [Nat.add_zero] at hname
  rw [Statement.name?, skipIfNotExists_drop, hname, Option.map_map]
  simp only [List.drop_drop, Function.comp_def]
  rfl

theorem table?_eq (i : Nat) : table? ts i =
    .ok ((Statement.name? (ts.drop i)).map fun n => .createTable n.1 (.ofTokens n.2)) := by
  rw [table?, readName?_eq, ok_bind, name?_drop]
  cases QualifiedName.read? ts (behindIfNotExists ts i) with
  | none => rfl
  | some name =>
    dsimp only
    rw [suffix_eq (Nat.min_le_right _ _), ok_bind, drop_min, tableBody_eq]
    rfl

theorem namedView?_eq (i : Nat) : namedView? ts i =
    .ok ((Statement.name? (ts.drop i)).bind fun n => Statement.viewOf? n.1 n.2) := by
  rw [namedView?, readName?_eq, ok_bind, name?_drop]
  cases QualifiedName.read? ts (behindIfNotExists ts i) with
  | none => rfl
  | some name => exact view?_eq ts name.text name.next

theorem create?_eq (i : Nat) : create? ts i = .ok (Statement.ofCreate? (ts.drop i)) := by
  unfold create? Statement.ofCreate?
  dsimp only
  rw [skipOrReplace_drop, skipOneOf_drop, skipOneOf_drop, expect?_drop, skipOneOf_drop, skipOneOf_drop, expect?_drop]
  generalize behindOneOf ts (behindOneOf ts (behindOrReplace ts i) ["GLOBAL", "LOCAL"]) Statement.storageWords = j
  by_cases htable : wordAt ts j "TABLE"
  · rw [if_pos htable, if_pos htable]
    exact table?_eq ts (j + 1)
  · rw [if_neg htable, if_neg htable]
    dsimp only
    split
    · exact namedView?_eq ts _
    · rfl

theorem statement?_eq : statement? ts = .ok (Statement.ofTokens? ts) := by
  unfold statement? Statement.ofTokens?
  cases ts with
  | nil => rfl
  | cons t rest =>
    dsimp only [List.head?_cons]
    split
    · exact create?_eq (t :: rest) 1
    · split <;> rfl

end Statements
end Checked
end SqlLineage
