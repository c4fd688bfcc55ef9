import Mathlib.Data.Nat.Find
import SqlLineage.Proofs.Checked.Scope
import SqlLineage.Proofs.Select.Sources
import SqlLineage.Proofs.Token.Depth
import SqlLineage.Token.Scan

/-! # Grouping keys

Which columns of a query are marked as grouping keys. Every item of a `GROUP BY` marks columns on its own, and a mark
changes nothing that another item looks at, so neither the order of the items nor repeated names matter.

* `Select.Names`: the items that mean a column.
* `Select.getElem?_foldl_markKey`: what a list of keys marks, column by column.
* `Select.GroupList`: where the items of a query's `GROUP BY` stand.
* `Select.read_groupingKeys`: the grouping keys of a query, and nothing else, are marked. -/

namespace SqlLineage.Select
open SqlLineage.Text SqlLineage.Token
set_option autoImplicit false

/-! ## Items and the columns that they mean -/

/-- The item means the column at position `k`, counted from one, which is called `name`: it is the number `k`, or the
last identifier in it is the name. -/
inductive Names (item : List Token) (k : Nat) (name : String) : Prop where
  | position {t : Token} {text : String} (hitem : item = [t]) (hkind : t.kind = .number text)
    (hk : ordinal? text = some k)
  | called {front behind : List Token} {t : Token} {n : String} (hnumber : ∀ u text, item = [u] → u.kind ≠ .number text)
    (hitem : item = front ++ t :: behind) (hidentifier : t.identifier? = some n)
    (hlast : ∀ u ∈ behind, u.identifier? = none) (hname : sameFold name n = true)

/-- Whether the key means the column at position `k`, counted from one, which is called `name`. -/
def GroupKey.means (k : Nat) (name : String) : GroupKey → Bool
  | .position text => ordinal? text == some k
  | .called n => sameFold name n
  | .unnamed => false

theorem findSome?_reverse_eq_some_iff {item : List Token} {n : String} :
    item.reverse.findSome? identifier? = some n ↔
      ∃ front t behind, item = front ++ t :: behind ∧ t.identifier? = some n ∧ ∀ u ∈ behind, u.identifier? = none := by
  rw [List.findSome?_eq_some_iff]
  constructor
  · rintro ⟨behind, t, front, hitem, ht, hlast⟩
    refine ⟨front.reverse, t, behind.reverse, ?_, ht, fun u hu => hlast u (List.mem_reverse.mp hu)⟩
    rw [← List.reverse_reverse item, hitem, List.reverse_append, List.reverse_cons, List.append_assoc,
      List.singleton_append]
  · rintro ⟨front, t, behind, rfl, ht, hlast⟩
    refine ⟨behind.reverse, t, front.reverse, ?_, ht, fun u hu => hlast u (List.mem_reverse.mp hu)⟩
    rw [List.reverse_append, List.reverse_cons, List.append_assoc, List.singleton_append]

theorem GroupKey.ofItem_cases (item : List Token) :
    (∃ t text, item = [t] ∧ t.kind = .number text ∧ ofItem item = .position text) ∨
    (∀ t text, item = [t] → t.kind ≠ .number text) ∧
      ofItem item = match item.reverse.findSome? identifier? with
        | some name => .called name
        | none => .unnamed := by
  unfold ofItem
  split
  · next text lexeme line col => exact .inl ⟨⟨.number text, lexeme, line, col⟩, text, rfl, rfl, rfl⟩
  · next hno =>
    refine .inr ⟨?_, rfl⟩
    rintro ⟨kind, lexeme, line, col⟩ text rfl rfl
    exact hno text lexeme line col rfl

theorem means_ofItem_iff {item : List Token} {k : Nat} {name : String} :
    (GroupKey.ofItem item).means k name = true ↔ Names item k name := by
  rcases GroupKey.ofItem_cases item with ⟨t, text, rfl, ht, hkey⟩ | ⟨hnumber, hkey⟩
  · rw [hkey, GroupKey.means, beq_iff_eq]
    constructor
    · exact .position rfl ht
    · rintro (⟨hitem, hkind, hk⟩ | ⟨hnumber, -, -, -, -⟩)
      · obtain rfl := List.singleton_inj.mp hitem
        rw [ht] at hkind
        cases hkind
        exact hk
      · exact absurd ht (hnumber t text rfl)
  · constructor
    · intro hmeans
      rw [hkey] at hmeans
      cases hfound : item.reverse.findSome? identifier? with
      | none =>
        rw [hfound] at hmeans
        cases hmeans
      | some n =>
        rw [hfound] at hmeans
        obtain ⟨front, t, behind, hitem, ht, hlast⟩ := findSome?_reverse_eq_some_iff.mp hfound
        exact .called hnumber hitem ht hlast hmeans
    · rintro (⟨hitem, hkind, -⟩ | ⟨-, hitem, ht, hlast, hname⟩)
      · exact absurd hkind (hnumber _ _ hitem)
      · rw [hkey, findSome?_reverse_eq_some_iff.mpr ⟨_, _, _, hitem, ht, hlast⟩]
        exact hname

instance (item : List Token) (k : Nat) (name : String) : Decidable (Names item k name) :=
  decidable_of_iff _ means_ofItem_iff

/-! ## Marks -/

theorem getElem?_markKey (columns : List Column) (key : GroupKey) (i : Nat) :
    (markKey columns key)[i]? = columns[i]?.map fun c => if key.means (i + 1) c.name then asKey c else c := by
  cases key with
  | position text =>
    rw [markKey]
    split
    · next n hn =>
      have hmeans : ∀ name, (GroupKey.position text).means (i + 1) name = decide (n = i) := by
        intro name
        rw [GroupKey.means, hn, Bool.eq_iff_iff]
        simp
      simp only [List.getElem?_modify, hmeans, decide_eq_true_eq, Option.map_eq_map]
    · next hno =>
      have hmeans : ∀ name, (GroupKey.position text).means (i + 1) name = false :=
        fun name => beq_eq_false_iff_ne.mpr fun h => hno i h
      simp [hmeans]
  | called name => exact List.getElem?_map
  | unnamed => simp [markKey, GroupKey.means]

/-- A column is marked just when some key means it. -/
theorem getElem?_foldl_markKey (keys : List GroupKey) (columns : List Column) (i : Nat) :
    (keys.foldl markKey columns)[i]? =
      columns[i]?.map fun c => if keys.any (·.means (i + 1) c.name) then asKey c else c := by
  induction keys generalizing columns with
  | nil => simp
  | cons key keys ih =>
    rw [List.foldl_cons, ih, getElem?_markKey, Option.map_map]
    refine Option.map_congr fun c _ => ?_
    rw [Function.comp_apply, List.any_cons]
    cases hkey : key.means (i + 1) c.name with
    | false => rfl
    | true => simp [asKey]

/-- What a mark does not touch stays. -/
theorem map_markKeys {α : Type} {f : Column → α} (hf : ∀ c, f (asKey c) = f c) (ts : List Token) (select : Nat)
    (columns : List Column) : (markKeys ts select columns).map f = columns.map f := by
  apply List.ext_getElem?
  intro i
  rw [List.getElem?_map, markKeys, getElem?_foldl_markKey, List.getElem?_map, Option.map_map]
  refine Option.map_congr fun c _ => ?_
  rw [Function.comp_apply]
  split
  · exact hf c
  · rfl

/-! ## The items of a query -/

/-- The words `GROUP BY` stand at `i`, at the depth `d`. -/
def GroupByAt (ts : List Token) (d : Int) (i : Nat) : Prop :=
  depthAt ts i = d ∧ wordAt ts i "GROUP" = true ∧ wordAt ts (i + 1) "BY" = true

instance (ts : List Token) (d : Int) (i : Nat) : Decidable (GroupByAt ts d i) :=
  inferInstanceAs (Decidable (_ ∧ _ ∧ _))

/-- The first `GROUP BY` behind the `SELECT` at `select` that stands at its depth is at `i`, and its items go up to
`stop`: to the first token below that depth, to the next clause at that depth, or to the end. -/
structure GroupList (ts : List Token) (select i stop : Nat) : Prop where
  behind : select < i
  here : GroupByAt ts (depthAt ts select) i
  first : ∀ j, select < j → j < i → ¬ GroupByAt ts (depthAt ts select) j
  start_le : i + 2 ≤ stop
  inside : ∀ j, i + 2 ≤ j → j < stop → ¬ EndsClause ts (depthAt ts select) groupByEnds j
  stops : stop = ts.length ∨ stop < ts.length ∧ EndsClause ts (depthAt ts select) groupByEnds stop

theorem exists_first {p : Nat → Prop} {start j : Nat} (hj : start ≤ j) (h : p j) :
    ∃ i ≤ j, start ≤ i ∧ p i ∧ ∀ k, start ≤ k → k < i → ¬ p k := by
  classical
  have hex : ∃ i, start ≤ i ∧ p i := ⟨j, hj, h⟩
  obtain ⟨hstart, hp⟩ := Nat.find_spec hex
  exact ⟨Nat.find hex, Nat.find_min' hex ⟨hj, h⟩, hstart, hp, fun k hk hlt hpk => Nat.find_min hex hlt ⟨hk, hpk⟩⟩

theorem GroupByAt.le_length {ts : List Token} {d : Int} {i : Nat} (h : GroupByAt ts d i) : i + 2 ≤ ts.length :=
  wordAt_lt h.2.2

theorem groupBy?_eq_some_iff {ts : List Token} {select i : Nat} :
    groupBy? ts select = some i ↔ select < i ∧ GroupByAt ts (depthAt ts select) i ∧
      ∀ j, select < j → j < i → ¬ GroupByAt ts (depthAt ts select) j := by
  have hplace : ∀ j t, ts[j]? = some t → ((depthAt ts j == depthAt ts select && t.isWord "GROUP" &&
      wordAt ts (j + 1) "BY") = true ↔ GroupByAt ts (depthAt ts select) j) := by
    intro j t ht
    simp [GroupByAt, wordAt, ht, and_assoc]
  unfold groupBy?
  rw [index_find?_placed]
  refine and_congr_right fun hlt => and_congr ?_ ?_
  · constructor
    · rintro ⟨t, ht, hq⟩
      exact (hplace i t ht).mp hq
    · intro h
      have hget := List.getElem?_eq_getElem (Nat.lt_of_succ_lt h.le_length)
      exact ⟨_, hget, (hplace i _ hget).mpr h⟩
  · constructor
    · intro h j hj hji hby
      have hget := List.getElem?_eq_getElem (Nat.lt_of_succ_lt hby.le_length)
      have hno := h j _ hj hji hget
      rw [(hplace j _ hget).mpr hby] at hno
      cases hno
    · intro h j t hj hji ht
      exact Bool.eq_false_iff.mpr fun hq => h j hj hji ((hplace j t ht).mp hq)

theorem groupBy?_eq_none_iff {ts : List Token} {select : Nat} :
    groupBy? ts select = none ↔ ∀ i, select < i → ¬ GroupByAt ts (depthAt ts select) i := by
  constructor
  · intro hnone i hi hby
    obtain ⟨j, -, hfirst⟩ := exists_first (Nat.succ_le_of_lt hi) hby
    rw [groupBy?_eq_some_iff.mpr hfirst] at hnone
    cases hnone
  · intro hno
    refine Option.eq_none_iff_forall_ne_some.mpr fun i hi => ?_
    obtain ⟨hlt, hby, -⟩ := groupBy?_eq_some_iff.mp hi
    exact hno i hlt hby

/-- A clause goes up to the first token that ends it, or to the end. -/
theorem clauseEnd_eq_iff_stops {ts : List Token} {start stop : Nat} {d : Int} {ends : List String}
    (h : start ≤ ts.length) :
    clauseEnd ts start d ends = stop ↔ start ≤ stop ∧ (∀ j, start ≤ j → j < stop → ¬ EndsClause ts d ends j) ∧
      (stop = ts.length ∨ stop < ts.length ∧ EndsClause ts d ends stop) := by
  obtain ⟨hstart, hle⟩ := Checked.clauseEnd_bounds h d ends
  constructor
  · rintro rfl
    rcases Nat.lt_or_eq_of_le hle with hlt | heq
    · obtain ⟨-, hend, hinside⟩ := (clauseEnd_eq_iff hlt).mp rfl
      exact ⟨hstart, hinside, .inr ⟨hlt, hend⟩⟩
    · refine ⟨hstart, fun j hj hlt hend => ?_, .inl heq⟩
      obtain ⟨i, hi, hfirst⟩ := exists_first hj hend
      have hstop := (clauseEnd_eq_iff (show i < ts.length by omega)).mpr hfirst
      omega
  · rintro ⟨hstop, hinside, rfl | ⟨hlt, hend⟩⟩
    · refine Nat.le_antisymm hle (Nat.le_of_not_lt fun hlt => ?_)
      exact hinside _ hstart hlt ((clauseEnd_eq_iff hlt).mp rfl).2.1
    · exact (clauseEnd_eq_iff hlt).mpr ⟨hstop, hend, hinside⟩

theorem groupList_iff {ts : List Token} {select i stop : Nat} :
    GroupList ts select i stop ↔
      groupBy? ts select = some i ∧ clauseEnd ts (i + 2) (depthAt ts select) groupByEnds = stop := by
  constructor
  · rintro ⟨hbehind, hhere, hfirst, hstart, hinside, hstops⟩
    exact ⟨groupBy?_eq_some_iff.mpr ⟨hbehind, hhere, hfirst⟩,
      (clauseEnd_eq_iff_stops hhere.le_length).mpr ⟨hstart, hinside, hstops⟩⟩
  · rintro ⟨hgroup, hstop⟩
    obtain ⟨hbehind, hhere, hfirst⟩ := groupBy?_eq_some_iff.mp hgroup
    obtain ⟨hstart, hinside, hstops⟩ := (clauseEnd_eq_iff_stops hhere.le_length).mp hstop
    exact ⟨hbehind, hhere, hfirst, hstart, hinside, hstops⟩

instance (ts : List Token) (select i stop : Nat) : Decidable (GroupList ts select i stop) :=
  decidable_of_iff _ groupList_iff.symm

theorem GroupList.items {ts : List Token} {select i stop : Nat} (h : GroupList ts select i stop) :
    groupItems ts select = topLevel (Span.of ⟨i + 2, stop⟩ ts) := by
  obtain ⟨hgroup, hstop⟩ := groupList_iff.mp h
  rw [groupItems, hgroup, ← hstop]

theorem groupItems_of_none {ts : List Token} {select : Nat}
    (h : ∀ i, select < i → ¬ GroupByAt ts (depthAt ts select) i) : groupItems ts select = [] := by
  rw [groupItems, groupBy?_eq_none_iff.mpr h]

theorem GroupList.exists_of {ts : List Token} {select j : Nat} (hj : select < j)
    (h : GroupByAt ts (depthAt ts select) j) : ∃ i stop, GroupList ts select i stop := by
  cases hgroup : groupBy? ts select with
  | none => exact absurd h (groupBy?_eq_none_iff.mp hgroup j hj)
  | some i => exact ⟨i, _, groupList_iff.mpr ⟨hgroup, rfl⟩⟩

/-! ## Queries -/

theorem definition_read {ts : List Token} {select : Nat} (hselect : select? ts = some select) (env : Environment)
    (name : String) (kind : Definition.Kind) :
    (read env ts name kind).definition =
      ⟨name, kind, markKeys ts select (Projection.read env (scopeOf env ts) ts select).columns,
        (scopeOf env ts).referenced.map Reference.uses, (Projection.read env (scopeOf env ts) ts select).lineage⟩ := by
  rw [read, hselect]

theorem isGroupingKey_projection (env : Environment) (scope : Scope) (ts : List Token) (select : Nat) :
    ∀ c ∈ (Projection.read env scope ts select).columns, c.isGroupingKey = false :=
  Projection.forall_columns_read (fun _ => rfl) (fun _ => rfl) ts select

/-- A column of a query is a grouping key just when an item means it. -/
theorem isGroupingKey_markKeys_iff {env : Environment} {scope : Scope} {ts : List Token} {select k : Nat} {c : Column}
    (hc : (markKeys ts select (Projection.read env scope ts select).columns)[k]? = some c) :
    c.isGroupingKey = true ↔ ∃ item ∈ groupItems ts select, Names item (k + 1) c.name := by
  rw [markKeys, getElem?_foldl_markKey] at hc
  obtain ⟨plain, hplain, hmarked⟩ := Option.map_eq_some_iff.mp hc
  have hoff : plain.isGroupingKey = false :=
    isGroupingKey_projection env scope ts select plain (List.mem_of_getElem? hplain)
  have hname : c.name = plain.name := by
    rw [← hmarked]
    split <;> rfl
  have hany : (((groupItems ts select).map GroupKey.ofItem).any (·.means (k + 1) plain.name)) = true ↔
      ∃ item ∈ groupItems ts select, Names item (k + 1) c.name := by
    rw [List.any_map, List.any_eq_true, hname]
    exact exists_congr fun item => and_congr_right fun _ => means_ofItem_iff
  rw [← hany, ← hmarked]
  split
  · next hmeans => exact iff_of_true rfl hmeans
  · next hmeans => exact iff_of_false (hoff ▸ Bool.false_ne_true) hmeans

/-- The marks of a query are those of its `GROUP BY`, the first one behind its `SELECT` and at the depth of that. A
column is marked just when one of the items means it; without such a `GROUP BY` no column is. Apart from the marks, the
definition of the query is what its items and its tables make it. -/
theorem read_groupingKeys (env : Environment) {ts : List Token} {select : Nat} (hselect : select? ts = some select)
    (name : String) (kind : Definition.Kind) :
    let d := (read env ts name kind).definition
    let plain := Projection.read env (scopeOf env ts) ts select
    (∀ i stop, GroupList ts select i stop → ∀ k c, d.columns[k]? = some c →
      (c.isGroupingKey = true ↔ ∃ item ∈ topLevel (Span.of ⟨i + 2, stop⟩ ts), Names item (k + 1) c.name)) ∧
    ((∃ i, select < i ∧ GroupByAt ts (depthAt ts select) i) → ∃ i stop, GroupList ts select i stop) ∧
    ((¬ ∃ i, select < i ∧ GroupByAt ts (depthAt ts select) i) → ∀ c ∈ d.columns, c.isGroupingKey = false) ∧
    d.columns.map (fun c => { c with isGroupingKey := false }) = plain.columns ∧
    d = ⟨name, kind, d.columns, (scopeOf env ts).referenced.map Reference.uses, plain.lineage⟩ := by
  intro d plain
  have hd : d = ⟨name, kind, markKeys ts select plain.columns, (scopeOf env ts).referenced.map Reference.uses,
      plain.lineage⟩ := definition_read hselect env name kind
  have hcolumns : d.columns = markKeys ts select plain.columns := congrArg Definition.columns hd
  refine ⟨fun i stop hlist k c hc => ?_, ?_, fun hno c hc => ?_, ?_, hcolumns.symm ▸ hd⟩
  · rw [hcolumns] at hc
    rw [isGroupingKey_markKeys_iff hc, hlist.items]
  · rintro ⟨i, hi, hby⟩
    exact GroupList.exists_of hi hby
  · rw [hcolumns, markKeys, groupItems_of_none fun i hi hby => hno ⟨i, hi, hby⟩] at hc
    exact isGroupingKey_projection env (scopeOf env ts) ts select c hc
  · have hsame : ∀ c ∈ plain.columns, { c with isGroupingKey := false } = id c := by
      intro c hc
      rw [id, ← isGroupingKey_projection env (scopeOf env ts) ts select c hc]
    rw [hcolumns, map_markKeys fun _ => rfl, List.map_congr_left hsame, List.map_id]

/-- The number `3` and the name `t.A` stand in the list; the name `b` stands in the list of the nested query only. -/
theorem read_groupingKeys_nested :
    let ts := scan "SELECT a, (SELECT b FROM u GROUP BY b) AS b, d FROM t GROUP BY 3, t.A HAVING d > 1"
    let columns := (read ⟨.empty, .empty⟩ ts "v" .view).definition.columns
    select? ts = some 0 ∧ GroupList ts 0 18 25 ∧
      columns.map (fun c => (c.name, c.isGroupingKey)) = [("a", true), ("b", false), ("d", true)] ∧
      ∀ k c, columns[k]? = some c →
        (c.isGroupingKey = true ↔ ∃ item ∈ topLevel (Span.of ⟨20, 25⟩ ts), Names item (k + 1) c.name) := by
  have hselect : select? (scan
      "SELECT a, (SELECT b FROM u GROUP BY b) AS b, d FROM t GROUP BY 3, t.A HAVING d > 1") = some 0 := by decide +kernel
  refine ⟨hselect, by decide +kernel, by decide +kernel, ?_⟩
  exact (read_groupingKeys ⟨.empty, .empty⟩ hselect "v" .view).1 18 25 (by decide +kernel)

/-- A `GROUP BY` in front of the `SELECT` is not looked at, even where it is the first one at that depth. -/
theorem groupBy_in_front_of_select :
    let ts := scan "FROM t |> AGGREGATE COUNT(*) GROUP BY x |> SELECT x"
    let columns := (read ⟨.empty, .empty⟩ ts "v" .view).definition.columns
    select? ts = some 12 ∧
      (GroupByAt ts (depthAt ts 12) 8 ∧ ∀ j < 8, ¬ GroupByAt ts (depthAt ts 12) j) ∧
      clauseEnd ts 10 (depthAt ts 12) groupByEnds = 14 ∧
      topLevel (Span.of ⟨10, 14⟩ ts) = [ts.drop 10] ∧ Names (ts.drop 10) 1 "x" ∧
      columns.map (fun c => (c.name, c.isGroupingKey)) = [("x", false)] := by
  decide +kernel

end SqlLineage.Select
