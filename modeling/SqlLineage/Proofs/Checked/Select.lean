import SqlLineage.Proofs.Checked.Scope
import SqlLineage.Select.Body

/-! # Query bodies without faults

* `Checked.columnRefs_eq`: the loop over the names in an expression gets on with every step and reads no token that is
  not there.
* `Checked.splitAlias_eq`, `Checked.addItem_eq`: one item is cut into expression and alias without a fault.
* `Checked.projectionSpan_bounds`, `Checked.readItems_eq`: the items are cut out of the body without a fault.
* `Checked.markKeys_eq`: the grouping keys are found without a fault.
* `Checked.readBody_eq`: every body is read without a fault. -/

namespace SqlLineage
open SqlLineage.Token SqlLineage.Select
set_option autoImplicit false

namespace Checked

/-! ## Columns in an expression -/

/-- The columns named at `i`, and the index to go on at. -/
def columnStep (scope : Scope) (ts : List Token) (i : Nat) : Checked (List ColumnRef × Nat) := do
  let t ← get ts i
  let previous ← previous? ts i
  match ← readName? ts i with
  | none => .ok ([], i + 1)
  | some n =>
    if previous.any (·.kind == .dot) then .ok ([], i + 1)
    else .ok (if ColumnRef.isExcluded previous ts[n.next]? then [] else (ColumnRef.ofName? scope i t n).toList, n.next)

def columnRefs (scope : Scope) (ts : List Token) : Checked (List ColumnRef) :=
  iterate ts.length (columnStep scope ts) 0

theorem columnStep_eq (scope : Scope) {ts : List Token} {i : Nat} (h : i < ts.length) :
    ∃ out next, columnStep scope ts i = .ok (out, next) ∧ i < next ∧
      ColumnRef.collectFrom scope i (before? ts i) (ts.drop i) =
        out ++ ColumnRef.collectFrom scope next (before? ts next) (ts.drop next) := by
  have hget : ts[i]? = some ts[i] := List.getElem?_eq_getElem h
  have hdrop := List.drop_eq_getElem_cons h
  have hnext : before? ts (i + 1) = some ts[i] := hget
  unfold columnStep
  rw [get_eq hget, ok_bind, previous?_eq (Nat.le_of_lt h), ok_bind, readName?_eq, ok_bind, QualifiedName.read?, hdrop,
    ColumnRef.collectFrom]
  cases hname : QualifiedName.ofTokens? i (ts[i] :: ts.drop (i + 1)) with
  | none => exact ⟨[], i + 1, rfl, Nat.lt_succ_self i, by rw [hnext, List.nil_append, ite_self]⟩
  | some n =>
    dsimp only
    split
    · exact ⟨[], i + 1, rfl, Nat.lt_succ_self i, by rw [hnext, List.nil_append]⟩
    · have hread : QualifiedName.read? ts i = some n := by rw [QualifiedName.read?, hdrop, hname]
      have hlt := QualifiedName.start_lt_next hread
      have hle := QualifiedName.next_le hread
      have hrest : (ts.drop (i + 1)).drop (n.next - (i + 1)) = ts.drop n.next := by
        rw [List.drop_drop]
        congr 1
        omega
      have hlast : (ts[i] :: (ts.drop (i + 1)).take (n.next - (i + 1))).getLast? = before? ts n.next := by
        have hcut : ts[i] :: (ts.drop (i + 1)).take (n.next - (i + 1)) = (ts.take n.next).drop i := by
          have hsucc : n.next - i = n.next - (i + 1) + 1 := by omega
          rw [List.drop_take, hdrop, hsucc, List.take_succ_cons]
        have hlong : ¬ (ts.take n.next).length ≤ i := by
          rw [List.length_take]
          omega
        rw [hcut, List.getLast?_drop, if_neg hlong, before?_eq_getLast? hle]
      refine ⟨_, n.next, rfl, hlt, ?_⟩
      rw [hrest, hlast, List.head?_drop]

theorem columnRefs_eq (scope : Scope) (ts : List Token) : columnRefs scope ts = .ok (ColumnRef.collect scope ts) := by
  refine iterate_eq (f := fun i => ColumnRef.collectFrom scope i (before? ts i) (ts.drop i)) (fun i hi => ?_)
    (fun i hi => columnStep_eq scope hi) 0
  rw [List.drop_eq_nil_of_le hi, ColumnRef.collectFrom]

/-! ## One item -/

def starOf? (item : List Token) : Checked (Option (Option String)) :=
  match item.reverse with
  | [star] => .ok (if star.kind == .star then some none else none)
  | star :: dot :: _ =>
    if star.kind == .star && dot.kind == .dot then do
      match ← readName? item 0 with
      | some n => do
        let head ← sub item.length 2
        .ok (if n.next = head then some (some n.text) else none)
      | none => .ok none
    else .ok none
  | [] => .ok none

def splitAlias (scope : Scope) (item : List Token) : Checked Aliased :=
  if item.length < 2 then .ok ⟨none, item⟩
  else do
    let behind ← sub item.length 1
    let last ← get item behind
    match last.identifier? with
    | none => .ok ⟨none, item⟩
    | some name => do
      let i ← sub item.length 2
      let previous ← get item i
      if previous.isWord "AS" then (⟨some name, ·⟩) <$> slice item 0 i
      else if endsExpression previous && (last.isQuoted || !scope.isIgnored name) then
        (⟨some name, ·⟩) <$> slice item 0 behind
      else .ok ⟨none, item⟩

theorem starOf?_eq (item : List Token) : starOf? item = .ok (Select.starOf? item) := by
  unfold starOf? Select.starOf?
  rcases hrev : item.reverse with _ | ⟨star, _ | ⟨dot, front⟩⟩
  · rfl
  · rfl
  · have hlength : 2 ≤ item.length := by
      rw [← List.length_reverse, hrev]
      exact Nat.le_add_left 2 _
    dsimp only
    split
    · rw [readName?_eq, ok_bind]
      cases QualifiedName.read? item 0 with
      | none => rfl
      | some n =>
        have hiff : n.next = item.length - 2 ↔ n.next + 2 = item.length := by omega
        dsimp only
        rw [sub_eq hlength, ok_bind]
        simp only [hiff]
    · rfl

theorem splitAlias_eq (scope : Scope) (item : List Token) : splitAlias scope item = .ok (Select.splitAlias scope item) := by
  unfold splitAlias Select.splitAlias
  rcases hrev : item.reverse with _ | ⟨last, _ | ⟨previous, front⟩⟩
  · rw [List.reverse_eq_nil_iff.mp hrev]
    rfl
  · rw [List.reverse_eq_cons_iff.mp hrev]
    rfl
  · obtain ⟨body, rfl⟩ : ∃ body, item = body ++ [previous] ++ [last] :=
      ⟨front.reverse, by rw [← List.reverse_reverse item, hrev, List.reverse_cons, List.reverse_cons]⟩
    have hlength : (body ++ [previous] ++ [last]).length = body.length + 2 := by simp
    have hlong : ¬ (body ++ [previous] ++ [last]).length < 2 := by omega
    have hbehind : sub (body ++ [previous] ++ [last]).length 1 = .ok (body.length + 1) := by
      rw [hlength]
      exact sub_eq (Nat.le_add_left 1 _)
    have hfront : sub (body ++ [previous] ++ [last]).length 2 = .ok body.length := by
      rw [hlength]
      exact sub_eq (Nat.le_add_left 2 _)
    have hlast : get (body ++ [previous] ++ [last]) (body.length + 1) = .ok last := get_eq (by simp)
    have hprevious : get (body ++ [previous] ++ [last]) body.length = .ok previous := get_eq (by simp)
    have hwithout : slice (body ++ [previous] ++ [last]) 0 (body.length + 1) = .ok (body ++ [previous]) := by
      rw [prefix_eq (by omega)]
      exact congrArg Except.ok (List.take_left' (by simp))
    have hbody : slice (body ++ [previous] ++ [last]) 0 body.length = .ok body := by
      rw [prefix_eq (by omega), List.append_assoc]
      exact congrArg Except.ok (List.take_left' rfl)
    rw [if_neg hlong, hbehind, ok_bind, hlast, ok_bind]
    dsimp only
    cases last.identifier? with
    | none => rfl
    | some name =>
      dsimp only
      rw [hfront, ok_bind, hprevious, ok_bind, hwithout, hbody, List.dropLast_concat, List.dropLast_concat]
      split
      · rfl
      · split
        · rfl
        · rfl

/-! ## The items -/

def addTable (env : Environment) (p : Projection) (table : String) : Checked Projection := do
  let d? ← lookup env.registry table
  .ok <| match d?.filter Definition.hasKnownSchema with
    | some d =>
      { p with
        columns := p.columns ++ d.columns.map fun c => Column.mapped c.name
        lineage := p.lineage ++ d.columns.map fun c => ⟨table, c.name, c.name, false⟩ }
    | none =>
      let p := p.addStarColumn
      { p with
        lineage := p.lineage ++ [⟨table, Column.starName, Column.starName, false⟩]
        observed := p.observed ++ env.observed table Column.starName }

def addStar (env : Environment) (scope : Scope) (p : Projection) (qualifier : Option String) : Checked Projection :=
  let tables := Projection.starTables scope qualifier
  if tables.isEmpty then .ok p.addStarColumn else tables.foldlM (addTable env) p

def countingRefs (scope : Scope) (body : List Token) : Checked (List ColumnRef) := do
  let refs ← columnRefs scope body
  .ok <| if isCalculation body then refs
    else match refs with
      | [r] => if r.start = 0 ∧ r.stop = body.length then [r] else []
      | _ => []

def addExpr (env : Environment) (scope : Scope) (p : Projection) (alias? : Option String) (body : List Token) :
    Checked Projection := do
  let calculated := isCalculation body
  let refs ← countingRefs scope body
  let sources := (refs.filterMap (sourceOf? scope calculated)).foldl appendNew []
  let ownName := if calculated then sources.head?.map TableColumn.column else refs.head?.map ColumnRef.column
  let p := { p with observed := p.observed ++ refs.flatMap (observe env scope) }
  .ok <| match alias? <|> ownName <|> lastName? body with
    | none => p
    | some name =>
      { p with
        columns := p.columns ++ [if calculated then Column.calculated name else Column.mapped name]
        lineage := p.lineage ++ sources.map fun s => ⟨s.table, s.column, name, calculated⟩ }

/-- Adds an item of which the last token has the index `last` in the body. -/
def addItem (env : Environment) (scope : Scope) (p : Projection) (last : Nat) (item : List Token) :
    Checked Projection := do
  match ← starOf? item with
  | some qualifier => addStar env scope p qualifier
  | none => do
    let a ← splitAlias scope item
    let p := if a.alias?.isSome then { p with aliases := p.aliases ++ [last] } else p
    addExpr env scope p a.alias? a.body

def readItems (env : Environment) (scope : Scope) (ts : List Token) (select : Nat) : Checked Projection := do
  let span := projectionSpan ts select
  let items ← slice ts span.start span.stop
  (topLevelSpans items).foldlM (fun p s => do
    let item ← slice items s.start s.stop
    let last ← sub (span.start + s.stop) 1
    addItem env scope p last item) .empty

theorem projectionEnd_bounds (i : Nat) (d : Int) (ts : List Token) :
    i ≤ projectionEnd i d ts ∧ projectionEnd i d ts ≤ i + ts.length := by
  fun_induction projectionEnd i d ts with
  | case1 i d => exact ⟨Nat.le_refl i, Nat.le_refl i⟩
  | case2 i d t ts _ ih | case4 i d t ts _ _ ih | case6 i d t ts _ _ _ ih =>
    rw [List.length_cons]
    omega
  | case3 i d t ts | case5 i d t ts => exact ⟨Nat.le_refl i, Nat.le_add_right i _⟩

theorem projectionSpan_bounds (ts : List Token) (select : Nat) :
    (projectionSpan ts select).start ≤ (projectionSpan ts select).stop ∧ (projectionSpan ts select).stop ≤ ts.length := by
  unfold projectionSpan
  dsimp only
  generalize behindTop ts (behindQuantifier ts (select + 1)) = first
  obtain ⟨hle, hle'⟩ := projectionEnd_bounds (min first ts.length) 0 (ts.drop (min first ts.length))
  rw [List.length_drop] at hle'
  exact ⟨hle, by omega⟩

theorem countingRefs_eq (scope : Scope) (body : List Token) :
    countingRefs scope body = .ok (Select.countingRefs scope body) := by
  rw [countingRefs, columnRefs_eq, ok_bind]
  rfl

theorem addExpr_eq (env : Environment) (scope : Scope) (p : Projection) (alias? : Option String) (body : List Token) :
    addExpr env scope p alias? body = .ok (p.addExpr env scope alias? body) := by
  rw [addExpr, countingRefs_eq, ok_bind]
  rfl

section Items
variable {env : Environment} (h : env.registry.Coherent)
include h

theorem addTable_eq (p : Projection) (table : String) : addTable env p table = .ok (p.addTable env table) := by
  rw [addTable, lookup_eq h, ok_bind]
  rfl

theorem addStar_eq (scope : Scope) (p : Projection) (qualifier : Option String) :
    addStar env scope p qualifier = .ok (p.addStar env scope qualifier) := by
  unfold addStar Projection.addStar
  dsimp only
  split
  · rfl
  · exact foldlM_eq (fun p table _ => addTable_eq h p table) p

theorem addItem_eq (scope : Scope) (p : Projection) (last : Nat) (item : List Token) :
    addItem env scope p last item = .ok (p.addItem env scope last item) := by
  unfold addItem Projection.addItem
  rw [starOf?_eq, ok_bind]
  cases Select.starOf? item with
  | some qualifier => exact addStar_eq h scope p qualifier
  | none =>
    dsimp only
    rw [splitAlias_eq, ok_bind]
    exact addExpr_eq env scope _ _ _

theorem readItems_eq (scope : Scope) (ts : List Token) (select : Nat) :
    readItems env scope ts select = .ok (Projection.read env scope ts select) := by
  obtain ⟨hle, hle'⟩ := projectionSpan_bounds ts select
  rw [readItems, slice_eq hle hle', ok_bind]
  refine foldlM_eq (fun p s hs => ?_) _
  obtain ⟨hlt, hstop⟩ := topLevelSpans_bounds s hs
  rw [slice_eq (Nat.le_of_lt hlt) hstop, ok_bind, sub_eq (by omega), ok_bind]
  exact addItem_eq h scope p _ _

end Items

/-! ## Grouping keys -/

/-- The first `GROUP BY` behind the `SELECT` at `select`. It is looked for up to the last token but one. -/
def groupBy? (ts : List Token) (select : Nat) : Checked (Option Nat) := do
  let depth ← get (depths ts) select
  (List.range' (select + 1) (ts.length - 1 - (select + 1))).findM? fun i => do
    let d ← get (depths ts) i
    if d == depth then do
      let t ← get ts i
      if t.isWord "GROUP" then (·.isWord "BY") <$> get ts (i + 1) else .ok false
    else .ok false

def groupItems (ts : List Token) (select : Nat) : Checked (List (List Token)) := do
  match ← groupBy? ts select with
  | none => .ok []
  | some i => do
    let depth ← get (depths ts) select
    let stop ← clauseEnd ts (i + 2) depth groupByEnds
    let keys ← slice ts (i + 2) stop
    topLevel keys

def markKeys (ts : List Token) (select : Nat) (columns : List Column) : Checked (List Column) :=
  (fun items => (items.map GroupKey.ofItem).foldl markKey columns) <$> groupItems ts select

theorem groupBy?_eq {ts : List Token} {select : Nat} (h : select < ts.length) :
    groupBy? ts select = .ok (Select.groupBy? ts select) := by
  generalize hlast : ts.length - 1 - (select + 1) = n
  generalize hq : (fun p : Placed => p.depth == depthAt ts select && p.token.isWord "GROUP" &&
    wordAt ts (p.index + 1) "BY") = q
  have hrange : (((placed ts).drop (select + 1)).take n).map Placed.index = List.range' (select + 1) n := by
    rw [List.map_take, List.map_drop, map_index_placed, List.drop_range', Nat.zero_add, Nat.mul_one,
      List.take_range'_of_length_ge]
    omega
  -- behind the last token but one no `BY` can follow
  have hrest : (((placed ts).drop (select + 1)).drop n).find? q = none := by
    refine List.find?_eq_none.mpr fun x hx => ?_
    rw [List.drop_drop] at hx
    obtain ⟨hle, hlt⟩ := index_of_mem_drop_placed hx
    have hby : ¬ wordAt ts (x.index + 1) "BY" = true := fun hby => by
      have := wordAt_lt hby
      omega
    rw [← hq, Bool.and_eq_true]
    exact fun hfound => hby hfound.2
  have hfind : (((placed ts).drop (select + 1)).take n).find? q = ((placed ts).drop (select + 1)).find? q := by
    conv => rhs; rw [← List.take_append_drop n ((placed ts).drop (select + 1)), List.find?_append, hrest, Option.or_none]
  rw [groupBy?, get_depths h, ok_bind, hlast, ← hrange, Select.groupBy?, hq, ← hfind]
  refine findM?_map_eq fun x hx => ?_
  obtain ⟨htoken, hdepth⟩ := get_placed (List.mem_of_mem_drop (List.mem_of_mem_take hx))
  have hindex := List.mem_map_of_mem (f := Placed.index) hx
  rw [hrange] at hindex
  have hlt : x.index + 1 < ts.length := by
    have := List.mem_range'_1.mp hindex
    omega
  have hnext := List.getElem?_eq_getElem hlt
  rw [hdepth, ok_bind, htoken, ok_bind, get_eq hnext, map_ok, ← hq]
  dsimp only
  rw [wordAt, hnext]
  cases x.depth == depthAt ts select <;> cases x.token.isWord "GROUP" <;> rfl

theorem groupItems_eq {ts : List Token} {select : Nat} (h : select < ts.length) :
    groupItems ts select = .ok (Select.groupItems ts select) := by
  unfold groupItems Select.groupItems
  rw [groupBy?_eq h, ok_bind]
  cases hgroup : Select.groupBy? ts select with
  | none => rfl
  | some i =>
    obtain ⟨x, hx, rfl⟩ := Option.map_eq_some_iff.mp hgroup
    have hfound := List.find?_some hx
    rw [Bool.and_eq_true] at hfound
    obtain ⟨hle, hle'⟩ := clauseEnd_bounds (wordAt_lt hfound.2) (depthAt ts select) groupByEnds
    dsimp only
    rw [get_depths h, ok_bind, clauseEnd_eq, ok_bind, slice_eq hle hle', ok_bind, topLevel_eq]

theorem markKeys_eq {ts : List Token} {select : Nat} (h : select < ts.length) (columns : List Column) :
    markKeys ts select columns = .ok (Select.markKeys ts select columns) := by
  rw [markKeys, groupItems_eq h, map_ok]
  rfl

/-! ## The body -/

def bodyUsage (env : Environment) (scope : Scope) (ts : List Token) (aliases : List Nat) : Checked (List TableColumn) :=
  (fun refs => (refs.filter fun r => !aliases.contains r.start).flatMap (observe env scope)) <$> columnRefs scope ts

def readBody (env : Environment) (ts : List Token) (name : String) (kind : Definition.Kind) : Checked Reading := do
  let scope ← scopeOf env ts
  let references := scope.referenced.map Reference.uses
  match select? ts with
  | some select => do
    let p ← readItems env scope ts select
    let used ← bodyUsage env scope ts p.aliases
    let columns ← markKeys ts select p.columns
    .ok ⟨⟨name, kind, columns, references, p.lineage⟩, p.observed ++ used, []⟩
  | none => .ok ⟨⟨name, kind, [Column.unparsed], references, []⟩, [], [Notice.noSelect name]⟩

theorem bodyUsage_eq (env : Environment) (scope : Scope) (ts : List Token) (aliases : List Nat) :
    bodyUsage env scope ts aliases = .ok (Select.bodyUsage env scope ts aliases) := by
  rw [bodyUsage, columnRefs_eq, map_ok]
  rfl

theorem readBody_eq {env : Environment} (h : env.registry.Coherent) (ts : List Token) (name : String)
    (kind : Definition.Kind) : readBody env ts name kind = .ok (Select.read env ts name kind) := by
  unfold readBody Select.read
  rw [scopeOf_eq h, ok_bind]
  cases hselect : select? ts with
  | none => rfl
  | some select =>
    dsimp only
    rw [readItems_eq h, ok_bind, bodyUsage_eq, ok_bind, markKeys_eq (select?_lt hselect), ok_bind]

end Checked
end SqlLineage
