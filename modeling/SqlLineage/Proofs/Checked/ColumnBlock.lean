import SqlLineage.ColumnBlock
import SqlLineage.Proofs.Checked.Token
import SqlLineage.Proofs.Select.Nesting

/-! # Column blocks without faults

* `Checked.definitionLines_eq`: the definitions of a block are cut out line by line without a fault.
* `Checked.addConstraint_eq`, `Checked.addColumn_eq`: each of them is read without a fault.
* `Checked.block_eq`: so is a whole block. -/

namespace SqlLineage
open SqlLineage.Token
set_option autoImplicit false

/-! ## Definitions line by line -/

theorem Token.getElem?_depths {ts : List Token} {i : Nat} {t : Token} (h : ts[i]? = some t) :
    (depths ts)[i]? = some (if t.kind = .rightParen then depthBehind 0 (ts.take i) - 1
      else depthBehind 0 (ts.take i)) := by
  have hall : ∀ (d : Int) (ts : List Token) (i : Nat), ts[i]? = some t →
      (depthsFrom d ts)[i]? = some (if t.kind = .rightParen then depthBehind d (ts.take i) - 1
        else depthBehind d (ts.take i)) := by
    intro d ts
    induction ts generalizing d with
    | nil =>
      intro i hi
      cases hi
    | cons s ts ih =>
      intro i hi
      cases i with
      | zero =>
        rw [List.getElem?_cons_zero] at hi
        obtain rfl := Option.some.inj hi
        rfl
      | succ i =>
        rw [List.getElem?_cons_succ] at hi
        exact ih _ i hi
  exact hall 0 ts i h

theorem Token.Span.of_succ {α : Type} {xs : List α} {start i : Nat} (h : start ≤ i) (hi : i < xs.length) :
    Span.of ⟨start, i + 1⟩ xs = Span.of ⟨start, i⟩ xs ++ [xs[i]] := by
  have hlength : i - start < (xs.drop start).length := by
    rw [List.length_drop]
    omega
  rw [Span.of, Span.of, Nat.succ_sub h, List.take_succ_eq_append_getElem hlength, List.getElem_drop]
  simp only [Nat.add_sub_cancel' h]

namespace ColumnBlock

/-- A list of groups with tokens in front of the first one. -/
def pushAll (ts : List Token) : List (List Token) → List (List Token)
  | [] => [ts]
  | g :: gs => (ts ++ g) :: gs

theorem pushAll_pushFirst (ts : List Token) (t : Token) (gs : List (List Token)) :
    pushAll ts (pushFirst t gs) = pushAll (ts ++ [t]) gs := by
  cases gs with
  | nil => rfl
  | cons g gs => simp [pushFirst, pushAll]

theorem pushAll_singleton (t : Token) (gs : List (List Token)) : pushAll [t] gs = pushFirst t gs := by
  cases gs <;> rfl

theorem nonempty_pushFirst {t : Token} {gs : List (List Token)} (h : ∀ g ∈ gs.tail, g ≠ []) :
    ∀ g ∈ pushFirst t gs, g ≠ [] := by
  cases gs with
  | nil => simp [pushFirst]
  | cons g gs => exact List.forall_mem_cons.mpr ⟨List.cons_ne_nil _ _, h⟩

theorem nonempty_splitLines (d : Int) (last : Token) (ts : List Token) : ∀ g ∈ (splitLines d last ts).tail, g ≠ [] := by
  induction ts generalizing d last with
  | nil => simp [splitLines]
  | cons t ts ih =>
    have hrest := nonempty_pushFirst (t := t) (ih (d + t.depthChange) t)
    rw [splitLines]
    split
    · exact hrest
    · exact fun g hg => hrest g (List.mem_of_mem_tail hg)

theorem nonempty_definitionLines (ts : List Token) : ∀ g ∈ definitionLines ts, g ≠ [] := by
  cases ts with
  | nil =>
    intro g hg
    cases hg
  | cons t ts => exact nonempty_pushFirst (nonempty_splitLines _ t ts)

theorem behindPair?_eq_find? (first second : String) (ts : List Token) :
    behindPair? first second ts = ((List.range (ts.length - 1)).find? fun i =>
      wordAt ts i first && wordAt ts (i + 1) second).map fun i => ts.drop (i + 2) := by
  induction ts with
  | nil => rfl
  | cons a ts ih =>
    cases ts with
    | nil => rfl
    | cons b ts =>
      rw [behindPair?, List.length_cons, List.length_cons, Nat.add_sub_cancel, List.range_succ_eq_map]
      split
      · next h =>
        rw [List.find?_cons_of_pos]
        · rfl
        · exact h
      · next h =>
        rw [ih, List.length_cons, Nat.add_sub_cancel, List.find?_cons_of_neg, List.find?_map, Option.map_map]
        · rfl
        · exact h

end ColumnBlock

namespace Checked
open ColumnBlock

/-- The definitions of a group, of which the current one begins at `start` and goes on at `i`. -/
def linesFrom (group : List Token) (start i : Nat) : Checked (List (List Token)) :=
  if i < group.length then do
    let t ← get group i
    let depth ← get (depths group) i
    let before ← sub i 1
    let last ← get group before
    if depth = 0 ∧ t.line ≠ last.line ∧ beginsDefinition t then do
      let definition ← slice group start i
      List.cons definition <$> linesFrom group i (i + 1)
    else linesFrom group start (i + 1)
  else if start < group.length then (fun definition => [definition]) <$> suffix group start
  else .ok []
termination_by group.length - i

def definitionLines (group : List Token) : Checked (List (List Token)) :=
  linesFrom group 0 1

theorem linesFrom_eq {group : List Token} {start i : Nat} (hstart : start < i) (hi : i ≤ group.length) {last : Token}
    (hlast : group[i - 1]? = some last) :
    linesFrom group start i = .ok (pushAll (Span.of ⟨start, i⟩ group)
      (splitLines (depthBehind 0 (group.take i)) last (group.drop i))) := by
  generalize hn : group.length - i = n
  induction n generalizing start i last with
  | zero =>
    have hend : i = group.length := by omega
    rw [linesFrom, if_neg (by omega), if_pos (by omega), suffix, slice_eq (by omega) (Nat.le_refl _), map_ok, hend,
      List.drop_length, splitLines, pushAll, List.append_nil]
  | succ n ih =>
    have hlt : i < group.length := by omega
    have hget : group[i]? = some group[i] := List.getElem?_eq_getElem hlt
    have hdepth := getElem?_depths hget
    have hnext : depthBehind 0 (group.take (i + 1)) = depthBehind 0 (group.take i) + group[i].depthChange := by
      rw [List.take_succ_eq_append_getElem hlt, depthBehind, List.foldl_append]
      rfl
    have hagain : group[i + 1 - 1]? = some group[i] := hget
    have hiff : ((if group[i].kind = .rightParen then depthBehind 0 (group.take i) - 1
          else depthBehind 0 (group.take i)) = 0 ∧ group[i].line ≠ last.line ∧ beginsDefinition group[i]) ↔
        depthBehind 0 (group.take i) = 0 ∧ group[i].line ≠ last.line ∧ beginsDefinition group[i] := by
      refine and_congr_left fun hrest => ?_
      have hbegins := hrest.2
      rw [if_neg]
      intro hparen
      simp [beginsDefinition, isQuoted, isIdentifier, identifier?, hparen] at hbegins
    rw [linesFrom, if_pos hlt, get_eq hget, ok_bind, get_eq hdepth, ok_bind, sub_eq (by omega), ok_bind, get_eq hlast,
      ok_bind, List.drop_eq_getElem_cons hlt, splitLines, ← hnext]
    by_cases hc : depthBehind 0 (group.take i) = 0 ∧ group[i].line ≠ last.line ∧ beginsDefinition group[i]
    · rw [if_pos (hiff.mpr hc), if_pos hc, slice_eq (Nat.le_of_lt hstart) hi, ok_bind,
        ih (Nat.lt_succ_self i) hlt hagain (by omega), map_ok, pushAll, List.append_nil]
      have hsingle : Span.of ⟨i, i + 1⟩ group = [group[i]] := by
        rw [Span.of_succ (Nat.le_refl i) hlt, Span.of, Nat.sub_self, List.take_zero, List.nil_append]
      rw [Nat.succ_eq_add_one, hsingle, pushAll_singleton]
    · rw [if_neg fun h => hc (hiff.mp h), if_neg hc, ih (Nat.lt_succ_of_lt hstart) hlt hagain (by omega),
        pushAll_pushFirst, Span.of_succ (Nat.le_of_lt hstart) hlt]

theorem definitionLines_eq (group : List Token) : definitionLines group = .ok (ColumnBlock.definitionLines group) := by
  cases group with
  | nil =>
    rw [definitionLines, linesFrom]
    rfl
  | cons t ts =>
    have hlast : (t :: ts)[1 - 1]? = some t := rfl
    have hdepth : depthBehind 0 ((t :: ts).take 1) = t.depthChange := Int.zero_add _
    rw [definitionLines, linesFrom_eq Nat.one_pos (Nat.le_add_left 1 _) hlast, hdepth]
    exact congrArg Except.ok (pushAll_singleton t _)

/-! ## Pairs of words -/

/-- The index of the first of two neighbours that are the words `first` and `second`. -/
def wordPair? (first second : String) (ts : List Token) : Checked (Option Nat) :=
  (List.range (ts.length - 1)).findM? fun i => do
    let a ← get ts i
    let b ← get ts (i + 1)
    .ok (a.isWord first && b.isWord second)

theorem wordPair?_eq (first second : String) (ts : List Token) :
    ∃ i?, wordPair? first second ts = .ok i? ∧
      behindPair? first second ts = i?.map (fun i => ts.drop (i + 2)) ∧ ∀ i ∈ i?, i + 2 ≤ ts.length := by
  refine ⟨_, findM?_eq (q := fun i => wordAt ts i first && wordAt ts (i + 1) second) fun i hi => ?_,
    behindPair?_eq_find? first second ts, fun i hi => ?_⟩
  · have hlt := List.mem_range.mp hi
    have hi : ts[i]? = some ts[i] := List.getElem?_eq_getElem (by omega)
    have hi' : ts[i + 1]? = some ts[i + 1] := List.getElem?_eq_getElem (by omega)
    rw [get_eq hi, ok_bind, get_eq hi', ok_bind, wordAt, wordAt, hi, hi']
    rfl
  · have hlt := List.mem_range.mp (List.mem_of_find?_eq_some hi)
    omega

/-! ## Constraints -/

def foreignKey? (ts : List Token) : Checked (Option (List Reference)) := do
  match ← nameList? ts 0 with
  | none => .ok none
  | some columns =>
    if wordAt ts columns.next "REFERENCES" then do
      match ← readName? ts (columns.next + 1) with
      | none => .ok none
      | some table => do
        let targets? ← nameList? ts table.next
        let targets := (targets?.map NameList.names).getD []
        .ok (some (columns.names.zipIdx.map fun c => ⟨c.1, table.text, targets.getD c.2 ""⟩))
    else .ok none

theorem foreignKey?_eq (ts : List Token) : foreignKey? ts = .ok (ColumnBlock.foreignKey? ts) := by
  unfold foreignKey? ColumnBlock.foreignKey?
  rw [nameList?_eq, ok_bind]
  cases Token.nameList? ts 0 with
  | none => rfl
  | some columns =>
    dsimp only
    split
    · rw [readName?_eq, ok_bind]
      cases QualifiedName.read? ts (columns.next + 1) with
      | none => rfl
      | some table =>
        dsimp only
        rw [nameList?_eq, ok_bind]
        rfl
    · rfl

def addConstraint (table : String) (d : Draft) (definition : List Token) : Checked Draft := do
  match ← wordPair? "FOREIGN" "KEY" definition with
  | some i => do
    let ts ← suffix definition (i + 2)
    match ← foreignKey? ts with
    | some references => .ok (references.foldl Draft.addKey d)
    | none => .ok (d.drop (.malformedKey table definition))
  | none => do
    match ← wordPair? "PRIMARY" "KEY" definition with
    | some i => do
      match ← nameList? definition (i + 2) with
      | some columns => .ok (d.mark (fun c => { c with isPrimaryKey := true }) columns.names)
      | none => .ok d
    | none => .ok d

theorem addConstraint_eq (table : String) (d : Draft) (definition : List Token) :
    addConstraint table d definition = .ok (d.addConstraint table definition) := by
  obtain ⟨foreign?, hforeign, hbehind, hle⟩ := wordPair?_eq "FOREIGN" "KEY" definition
  unfold addConstraint Draft.addConstraint
  rw [hforeign, ok_bind, hbehind]
  cases foreign? with
  | some i =>
    dsimp only [Option.map_some]
    rw [suffix_eq (hle i rfl), ok_bind, foreignKey?_eq, ok_bind]
    cases ColumnBlock.foreignKey? (definition.drop (i + 2)) <;> rfl
  | none =>
    obtain ⟨primary?, hprimary, hbehind', -⟩ := wordPair?_eq "PRIMARY" "KEY" definition
    dsimp only [Option.map_none]
    rw [hprimary, ok_bind, hbehind']
    cases primary? with
    | some i =>
      dsimp only [Option.map_some]
      rw [nameList?_eq, ok_bind, ← Nat.add_zero (i + 2), nameList?_drop]
      cases Token.nameList? (definition.drop (i + 2)) 0 <;> rfl
    | none => rfl

/-! ## Columns -/

def columnReference? (name : String) (definition : List Token) : Checked (Option Reference) :=
  match definition.findIdx? (·.isWord "REFERENCES") with
  | none => .ok none
  | some i => do
    match ← readName? definition (i + 1) with
    | none => .ok none
    | some table => do
      let targets? ← nameList? definition table.next
      .ok (some ⟨name, table.text, (targets?.bind (·.names.head?)).getD ""⟩)

theorem columnReference?_eq (name : String) (definition : List Token) :
    columnReference? name definition = .ok (ColumnBlock.columnReference? name definition) := by
  have hfound : ∀ ts : List Token, ts.dropWhile (!·.isWord "REFERENCES") =
      ((ts.findIdx? (·.isWord "REFERENCES")).map ts.drop).getD [] := by
    intro ts
    induction ts with
    | nil => rfl
    | cons t ts ih =>
      rw [List.dropWhile_cons, List.findIdx?_cons]
      cases t.isWord "REFERENCES" with
      | true => rfl
      | false => simp [ih, Option.map_map, Function.comp_def]
  unfold columnReference? ColumnBlock.columnReference?
  rw [hfound]
  cases hindex : definition.findIdx? (·.isWord "REFERENCES") with
  | none => rfl
  | some i =>
    obtain ⟨hlt, -⟩ := List.findIdx?_eq_some_iff_findIdx_eq.mp hindex
    have hname := QualifiedName.read?_drop (i + 1) 0 definition
    rw [Nat.add_zero] at hname
    dsimp only [Option.map_some, Option.getD_some]
    rw [readName?_eq, ok_bind, List.drop_eq_getElem_cons hlt, hname]
    dsimp only
    cases QualifiedName.read? (definition.drop (i + 1)) 0 with
    | none => rfl
    | some table =>
      dsimp only [Option.map_some]
      rw [nameList?_eq, ok_bind, nameList?_drop]
      cases Token.nameList? (definition.drop (i + 1)) table.next <;> rfl

def withPrimaryKey (key : Bool) (c : Column) : Column :=
  { c with isPrimaryKey := key }

def addColumn (table : String) (d : Draft) (definition : List Token) : Checked Draft :=
  match definition.head? with
  | none => .ok d
  | some first => do
    let behind ← suffix definition 1
    match columnName? first, declaredType? behind with
    | some name, some type => do
      let key? ← wordPair? "PRIMARY" "KEY" definition
      let reference ← columnReference? name definition
      let d := match reference with
        | some r => d.addReference r
        | none => d
      let column := Draft.columnOf name type reference definition
      .ok { d with columns := d.columns ++ [withPrimaryKey key?.isSome column] }
    | _, _ => .ok (d.drop (.noColumn table definition))

theorem addColumn_eq (table : String) (d : Draft) {definition : List Token} (h : definition ≠ []) :
    addColumn table d definition = .ok (d.addColumn table definition) := by
  obtain ⟨first, rest, rfl⟩ := List.exists_cons_of_ne_nil h
  obtain ⟨key?, hkey, hbehind, -⟩ := wordPair?_eq "PRIMARY" "KEY" (first :: rest)
  have hcolumn : ∀ name type reference, withPrimaryKey key?.isSome
      (Draft.columnOf name type reference (first :: rest)) = Draft.columnOf name type reference (first :: rest) := by
    intro name type reference
    rw [Draft.columnOf, hbehind, Option.isSome_map]
    rfl
  unfold addColumn Draft.addColumn
  dsimp only [List.head?_cons, List.tail_cons, Option.bind_some]
  rw [suffix_eq (Nat.le_add_left 1 _), ok_bind, List.drop_succ_cons, List.drop_zero]
  cases columnName? first with
  | none => rfl
  | some name =>
    cases declaredType? rest with
    | none => rfl
    | some type =>
      dsimp only
      rw [hkey, ok_bind, columnReference?_eq, ok_bind]
      cases ColumnBlock.columnReference? name (first :: rest) <;> simp only [hcolumn]

def add (table : String) (d : Draft) (definition : List Token) : Checked Draft :=
  if Draft.isConstraint definition then addConstraint table d definition else addColumn table d definition

theorem add_eq (table : String) (d : Draft) {definition : List Token} (h : definition ≠ []) :
    add table d definition = .ok (d.add table definition) := by
  unfold add Draft.add
  split
  · exact addConstraint_eq table d definition
  · exact addColumn_eq table d h

/-! ## Whole blocks -/

def optionIn? (keyword : String) (ts : List Token) : Checked (Option (List String)) :=
  match ts.findIdx? (·.isWord keyword) with
  | none => .ok none
  | some i => Option.map NameList.names <$> nameList? ts (i + 1)

theorem optionIn?_eq (keyword : String) (ts : List Token) :
    optionIn? keyword ts = .ok (ColumnBlock.optionIn? keyword ts) := by
  unfold optionIn? ColumnBlock.optionIn?
  cases ts.findIdx? (·.isWord keyword) with
  | none => rfl
  | some i =>
    dsimp only
    rw [nameList?_eq]
    rfl

def option (b : ColumnBlock) (keyword : String) : Checked (List String) := do
  let before? ← optionIn? keyword b.before
  let after? ← optionIn? keyword b.after
  .ok ((before? <|> after?).getD [])

theorem option_eq (b : ColumnBlock) (keyword : String) : option b keyword = .ok (b.option keyword) := by
  rw [option, optionIn?_eq, ok_bind, optionIn?_eq]
  rfl

def addGroup (table : String) (d : Draft) (group : List Token) : Checked Draft := do
  let definitions ← definitionLines group
  definitions.foldlM (add table) d

def draft (b : ColumnBlock) (table : String) : Checked Draft := do
  let groups ← topLevel b.definitions
  let d ← groups.foldlM (addGroup table) .empty
  let sortKeys ← option b "SORTKEY"
  let distKeys ← option b "DISTKEY"
  .ok ((d.mark (fun c => { c with isSortKey := true }) sortKeys).mark (fun c => { c with isDistKey := true }) distKeys)

theorem draft_eq (b : ColumnBlock) (table : String) : draft b table = .ok (b.draft table) := by
  have hgroup : ∀ (d : Draft) (group : List Token), addGroup table d group =
      .ok ((ColumnBlock.definitionLines group).foldl (Draft.add table) d) := by
    intro d group
    rw [addGroup, definitionLines_eq, ok_bind]
    exact foldlM_eq (fun d definition hd => add_eq table d (nonempty_definitionLines group definition hd)) d
  have hgroups := foldlM_eq (g := fun d group => (ColumnBlock.definitionLines group).foldl (Draft.add table) d)
    (l := Token.topLevel b.definitions) (fun d group _ => hgroup d group) Draft.empty
  rw [draft, topLevel_eq, ok_bind, hgroups, ok_bind, option_eq, ok_bind, option_eq, ok_bind, ← List.foldl_flatMap]
  rfl

def block (b : ColumnBlock) (table : String) : Checked Reading :=
  (fun d => ⟨⟨table, .table, d.columns, d.references, []⟩, d.observed, d.notices⟩) <$> draft b table

theorem block_eq (b : ColumnBlock) (table : String) : block b table = .ok (b.read table) := by
  rw [block, draft_eq]
  rfl

end Checked
end SqlLineage
