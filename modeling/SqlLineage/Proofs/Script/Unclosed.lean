import SqlLineage.Proofs.Script.Declarations
import SqlLineage.Proofs.Script.SelfReference
import SqlLineage.Proofs.Script.TableBody

/-! # Parentheses that nothing closes

Six readers look up the parenthesis that closes an opening. Where there is none, the column block of a table and the
body of a common table expression go on to the end of the tokens, and a notice says so. The other four say nothing: a
column list makes its reader give up, and `DISTINCT ON` and `TOP` take all that follows.

* `Opening`: a parenthesis whose end is looked up, and `Statement.Seeks`: those of a statement.
* `Query.exists_unclosed_head_iff`: a common table expression without an end is such an opening.
* `Turn.unbalanced`: the notices of unbalanced parentheses that come with a text.
* `Script.unbalanced_ne_nil_iff`: there are some just when an opening of the two kinds is not closed. -/

namespace SqlLineage
open SqlLineage.Token
set_option autoImplicit false

/-! ## Openings -/

/-- What a parenthesis opens. -/
inductive Opening.Role where
  | columnBlock
  | viewColumns
  | cteColumns
  | cteBody
  | distinctOn
  | top

/-- A parenthesis whose end is looked up, by its index among the tokens that are read. -/
structure Opening where
  role : Opening.Role
  tokens : List Token
  index : Nat

namespace Opening

/-- Whether a notice is given where the end is missing. -/
def Role.reported : Role → Bool
  | .columnBlock | .cteBody => true
  | .viewColumns | .cteColumns | .distinctOn | .top => false

def Unclosed (o : Opening) : Prop :=
  closing? o.tokens o.index = none

/-- An opening that is not closed, and of which a notice is given. -/
def Reported (o : Opening) : Prop :=
  o.Unclosed ∧ o.role.reported = true

end Opening

/-! ## What is looked up -/

/-- The openings between the outermost `SELECT` of a body and its items. -/
inductive Select.Seeks (ts : List Token) : Opening → Prop where
  | distinctOn {s : Nat} (hs : Select.select? ts = some s) (hdistinct : wordAt ts (s + 1) "DISTINCT" = true)
      (hon : wordAt ts (s + 2) "ON" = true) (hopen : opensAt ts (s + 3) = true) : Seeks ts ⟨.distinctOn, ts, s + 3⟩
  | top {s : Nat} (hs : Select.select? ts = some s)
      (htop : wordAt ts (Select.behindQuantifier ts (s + 1)) "TOP" = true)
      (hopen : opensAt ts (Select.behindQuantifier ts (s + 1) + 1) = true) :
      Seeks ts ⟨.top, ts, Select.behindQuantifier ts (s + 1) + 1⟩

namespace Query

mutual
/-- The openings of a query, those of its `WITH` list and of the bodies inside included. -/
inductive Seeks : List Token → Opening → Prop where
  | body {ts : List Token} {o : Opening} (hwith : wordAt ts 0 "WITH" = false) (ho : Select.Seeks ts o) : Seeks ts o
  | recursive {w r : Token} {ts : List Token} {o : Opening} (hwith : w.isWord "WITH" = true)
      (hrec : r.isWord "RECURSIVE" = true) (ho : ListSeeks true ts o) : Seeks (w :: r :: ts) o
  | list {w : Token} {ts : List Token} {o : Opening} (hwith : w.isWord "WITH" = true)
      (hrec : wordAt ts 0 "RECURSIVE" = false) (ho : ListSeeks false ts o) : Seeks (w :: ts) o

/-- The openings of a query whose `WITH` list goes on with the tokens. The body of a common table expression is only
looked for behind a column list that is closed, if there is one. -/
inductive ListSeeks : Bool → List Token → Opening → Prop where
  | columns {recursive : Bool} {ts : List Token} {name : QualifiedName}
      (hname : QualifiedName.read? ts 0 = some name) (hopen : opensAt ts name.next = true) :
      ListSeeks recursive ts ⟨.cteColumns, ts, name.next⟩
  | definition {recursive : Bool} {ts : List Token} {name : QualifiedName} {columns : NameList} {start : Nat}
      (hname : QualifiedName.read? ts 0 = some name) (hcolumns : Cte.columnList? ts name.next = some columns)
      (hstart : Cte.bodyStart? ts columns.next = some start) : ListSeeks recursive ts ⟨.cteBody, ts, start⟩
  | inside {recursive : Bool} {ts : List Token} {c : CteReading} {o : Opening}
      (hc : Cte.read? recursive ts = some c) (ho : Seeks c.body o) : ListSeeks recursive ts o
  | further {recursive : Bool} {ts : List Token} {c : CteReading} {comma : Token} {rest : List Token} {o : Opening}
      (hc : Cte.read? recursive ts = some c) (hrest : c.rest = comma :: rest) (hcomma : comma.kind = .comma)
      (ho : ListSeeks recursive rest o) : ListSeeks recursive ts o
  | main {recursive : Bool} {ts : List Token} {c : CteReading} {o : Opening}
      (hc : Cte.read? recursive ts = some c) (hrest : ∀ t ∈ c.rest.head?, t.kind ≠ .comma)
      (ho : Select.Seeks c.rest o) : ListSeeks recursive ts o
  | noCte {recursive : Bool} {ts : List Token} {o : Opening} (hc : Cte.read? recursive ts = none)
      (ho : Select.Seeks ts o) : ListSeeks recursive ts o
end

end Query

theorem Select.Seeks.not_reported {ts : List Token} {o : Opening} (h : Select.Seeks ts o) : ¬ o.Reported := by
  rintro ⟨-, hrole⟩
  cases h <;> cases hrole

/-! ## Common table expressions without an end -/

theorem Cte.read?_of_parts {recursive : Bool} {ts : List Token} {name : QualifiedName} {columns : NameList}
    {start : Nat} (hname : QualifiedName.read? ts 0 = some name) (hcolumns : columnList? ts name.next = some columns)
    (hstart : bodyStart? ts columns.next = some start) :
    read? recursive ts = some ⟨⟨name.text, columns.names, recursive, (bodyAt ts start).1⟩, (bodyAt ts start).2.1,
      (bodyAt ts start).2.2⟩ := by
  rw [read?, hname]
  dsimp only
  rw [hcolumns]
  dsimp only
  rw [hstart]

theorem Cte.parts_of_read? {recursive : Bool} {ts : List Token} {c : CteReading} (h : read? recursive ts = some c) :
    ∃ name columns start, QualifiedName.read? ts 0 = some name ∧ columnList? ts name.next = some columns ∧
      bodyStart? ts columns.next = some start ∧ c.cte.closed = (bodyAt ts start).1 := by
  unfold read? at h
  split at h
  · cases h
  · next name hname =>
    split at h
    · cases h
    · next columns hcolumns =>
      split at h
      · cases h
      · next start hstart =>
        obtain rfl := Option.some.inj h
        exact ⟨name, columns, start, hname, hcolumns, hstart, rfl⟩

theorem Cte.closed_bodyAt_eq_false_iff {ts : List Token} {start : Nat} :
    (bodyAt ts start).1 = false ↔ closing? ts start = none := by
  unfold bodyAt
  cases closing? ts start <;> simp

namespace Query

/-- What is left open by a list: the body of its first common table expression, or something further on. -/
theorem listSeeks_iff {recursive : Bool} {ts : List Token} {c : CteReading} (hc : Cte.read? recursive ts = some c) :
    (∃ o, ListSeeks recursive ts o ∧ o.Reported) ↔
      (∃ o, Seeks c.body o ∧ o.Reported) ∨ c.cte.closed = false ∨
        ∃ comma rest o, c.rest = comma :: rest ∧ comma.kind = .comma ∧ ListSeeks recursive rest o ∧ o.Reported := by
  constructor
  · rintro ⟨o, ho, hreported⟩
    cases ho with
    | columns => cases hreported.2
    | definition hname hcolumns hstart =>
      rw [Cte.read?_of_parts hname hcolumns hstart] at hc
      obtain rfl := Option.some.inj hc
      exact .inr (.inl (Cte.closed_bodyAt_eq_false_iff.mpr hreported.1))
    | inside hc' ho =>
      obtain rfl := Option.some.inj (hc.symm.trans hc')
      exact .inl ⟨o, ho, hreported⟩
    | further hc' hrest hcomma ho =>
      obtain rfl := Option.some.inj (hc.symm.trans hc')
      exact .inr (.inr ⟨_, _, o, hrest, hcomma, ho, hreported⟩)
    | main hc' hrest ho => exact absurd hreported ho.not_reported
    | noCte hc' ho => exact absurd hreported ho.not_reported
  · rintro (⟨o, ho, hreported⟩ | hopen | ⟨comma, rest, o, hrest, hcomma, ho, hreported⟩)
    · exact ⟨o, .inside hc ho, hreported⟩
    · obtain ⟨name, columns, start, hname, hcolumns, hstart, hclosed⟩ := Cte.parts_of_read? hc
      rw [hclosed] at hopen
      exact ⟨_, .definition hname hcolumns hstart, Cte.closed_bodyAt_eq_false_iff.mp hopen, rfl⟩
    · exact ⟨o, .further hc hrest hcomma ho, hreported⟩

theorem not_listSeeks_of_none {recursive : Bool} {ts : List Token} (hc : Cte.read? recursive ts = none) :
    ¬ ∃ o, ListSeeks recursive ts o ∧ o.Reported := by
  rintro ⟨o, ho, hreported⟩
  cases ho with
  | columns => cases hreported.2
  | definition hname hcolumns hstart =>
    rw [Cte.read?_of_parts hname hcolumns hstart] at hc
    cases hc
  | inside hc' => exact absurd (hc.symm.trans hc') nofun
  | further hc' => exact absurd (hc.symm.trans hc') nofun
  | main hc' => exact absurd (hc.symm.trans hc') nofun
  | noCte hc' ho => exact absurd hreported ho.not_reported

/-- A common table expression of a query has no end just when something that the query looks up is left open, apart
from column lists and what stands between `SELECT` and the items. -/
theorem exists_unclosed_head_iff (ts : List Token) :
    (∃ head ∈ (ofTokens ts).heads, head.closed = false) ↔ ∃ o, Seeks ts o ∧ o.Reported := by
  refine ofTokens_induction
    (P := fun ts => (∃ head ∈ (ofTokens ts).heads, head.closed = false) ↔ ∃ o, Seeks ts o ∧ o.Reported)
    (L := fun b ts => (∃ head ∈ (ofList b ts).heads, head.closed = false) ↔ ∃ o, ListSeeks b ts o ∧ o.Reported)
    (R := fun b ts => (∃ head ∈ (ofRest b ts).heads, head.closed = false) ↔
      ∃ comma rest o, ts = comma :: rest ∧ comma.kind = .comma ∧ ListSeeks b rest o ∧ o.Reported)
    ?body ?recursive ?list ?noCte ?cte ?further ?main ts
  case body =>
    intro ts hwith
    rw [ofTokens_of_no_with hwith]
    refine iff_of_false (by simp [heads]) ?_
    rintro ⟨o, ho, hreported⟩
    cases ho with
    | body _ ho => exact ho.not_reported hreported
    | recursive hw => exact Bool.eq_false_iff.mp hwith hw
    | list hw => exact Bool.eq_false_iff.mp hwith hw
  case recursive =>
    intro w r ts hw hr ih
    rw [ofTokens_with_recursive hw hr, ih]
    refine exists_congr fun o => and_congr_left fun hreported => ⟨.recursive hw hr, fun ho => ?_⟩
    cases ho with
    | body _ ho => exact absurd hreported ho.not_reported
    | recursive _ _ ho => exact ho
    | list _ hno => exact absurd hr (Bool.eq_false_iff.mp hno)
  case list =>
    intro w ts hw hr ih
    rw [ofTokens_with hw hr, ih]
    refine exists_congr fun o => and_congr_left fun hreported => ⟨.list hw hr, fun ho => ?_⟩
    cases ho with
    | body _ ho => exact absurd hreported ho.not_reported
    | recursive _ hrec => exact absurd hrec (Bool.eq_false_iff.mp hr)
    | list _ _ ho => exact ho
  case noCte =>
    intro b ts hc
    rw [ofList_of_none hc]
    exact iff_of_false (by simp [heads]) (not_listSeeks_of_none hc)
  case cte =>
    intro b ts c hc ihbody ihrest
    rw [ofList_of_some hc, heads, listSeeks_iff hc, ← ihbody, ← ihrest]
    simp only [List.mem_append, List.mem_cons, or_and_right, exists_or, exists_eq_left]
  case further =>
    intro b comma ts hcomma ih
    rw [ofRest_of_comma b hcomma, ih]
    constructor
    · rintro ⟨o, ho⟩
      exact ⟨comma, ts, o, rfl, hcomma, ho⟩
    · rintro ⟨_, _, o, heq, -, ho⟩
      obtain ⟨rfl, rfl⟩ := List.cons.inj heq
      exact ⟨o, ho⟩
  case main =>
    intro b ts hmain
    rw [ofRest_of_no_comma b hmain]
    refine iff_of_false (by simp [heads]) ?_
    rintro ⟨comma, rest, _, rfl, hcomma, -⟩
    exact hmain comma rfl hcomma

end Query

/-! ## Notices of unbalanced parentheses -/

namespace Inventory

theorem unbalanced_define (inv : Inventory) (d : Definition) :
    (inv.define d).noticesOf .unbalancedParentheses = inv.noticesOf .unbalancedParentheses := by
  unfold noticesOf define
  rw [List.filter_append]
  cases (inv.registry.define d).replaced <;> simp [Notice.replaced]

/-- A common table expression without an end is reported when its definition begins. -/
theorem unbalanced_enter (inv : Inventory) (owner : String) (head : Cte) :
    ∃ ns, (inv.enter owner head).noticesOf .unbalancedParentheses = inv.noticesOf .unbalancedParentheses ++ ns ∧
      (ns ≠ [] ↔ head.closed = false) := by
  unfold enter
  cases head.closed with
  | true => exact ⟨[], by simp⟩
  | false => exact ⟨[.unclosedCte owner head.name], by simp [noticesOf, report, Notice.unclosedCte]⟩

end Inventory

theorem Query.exists_unbalanced_unwind (q : Query) (name : String) (kind : Definition.Kind) (inv : Inventory)
    (ctes : CteBindings) :
    ∃ ns, (q.unwind name kind inv ctes).inventory.noticesOf .unbalancedParentheses =
        inv.noticesOf .unbalancedParentheses ++ ns ∧
      (ns ≠ [] ↔ ∃ head ∈ q.heads, head.closed = false) := by
  induction q generalizing name kind inv ctes with
  | body ts =>
    refine ⟨[], ?_, by simp [heads]⟩
    rw [unwind, List.append_nil]
    refine Inventory.noticesOf_absorb fun n hn => ?_
    rw [Select.kind_of_mem_notices_read hn]
    decide
  | cte head definition rest ihd ihr =>
    rw [unwind_cte]
    obtain ⟨inside, hinside, hd⟩ := ihd (inv.registry.unusedName head.name) .cte (inv.enter name head)
      (Environment.within ⟨inv.registry, ctes⟩ head).ctes
    obtain ⟨behind, hbehind, hr⟩ := ihr name kind
      ((unwindDefinition name inv ctes head definition).inventory.define
        ((unwindDefinition name inv ctes head definition).definition.renameColumns head.columns))
      ((unwindDefinition name inv ctes head definition).ctes.bind head.name (inv.registry.unusedName head.name))
    obtain ⟨own, hown, hh⟩ := inv.unbalanced_enter name head
    refine ⟨own ++ inside ++ behind, ?_, ?_⟩
    · rw [hbehind, Inventory.unbalanced_define, unwindDefinition, hinside, hown, List.append_assoc, List.append_assoc,
        List.append_assoc]
    · have hall : own ++ inside ++ behind ≠ [] ↔ inside ≠ [] ∨ own ≠ [] ∨ behind ≠ [] := by
        simp only [ne_eq, List.append_eq_nil_iff]
        tauto
      rw [hall, hd, hh, hr, heads]
      simp only [List.mem_append, List.mem_cons, or_and_right, exists_or, exists_eq_left]

/-! ## Statements -/

namespace Statement

/-- The name of a `CREATE VIEW`, and the tokens behind it, whether they are a view or not. -/
def viewName? (ts : List Token) : Option (String × List Token) :=
  match expect? "CREATE" ts with
  | none => none
  | some ts =>
    let ts := skipOneOf storageWords (skipOneOf ["GLOBAL", "LOCAL"] (skipOrReplace ts))
    match expect? "TABLE" ts with
    | some _ => none
    | none => (expect? "VIEW" (skipOneOf ["MATERIALIZED"] (skipOneOf ["SECURE", "RECURSIVE"] ts))).bind name?

/-- The openings of a statement. The end of a column block is looked up unless a query begins in front of it. -/
inductive Seeks (ts : List Token) : Opening → Prop where
  | columnBlock {name : String} {body : TableBody} {rest : List Token} {p : Nat}
      (hs : ofTokens? ts = some (.createTable name body)) (hrest : name? (behindTable ts) = some (name, rest))
      (hp : IsLeast {i | opensAt rest i = true} p) (has : ∀ a, IsLeast {i | TableBody.QueryAs rest i} a → p ≤ a) :
      Seeks ts ⟨.columnBlock, rest, p⟩
  | viewColumns {name : String} {rest : List Token} (hname : viewName? ts = some (name, rest))
      (hopen : opensAt rest 0 = true) : Seeks ts ⟨.viewColumns, rest, 0⟩
  | query {s : Statement} {o : Opening} (hs : ofTokens? ts = some s) (ho : Query.Seeks s.queryTokens o) : Seeks ts o

theorem ofTokens?_of_select {ts : List Token} (h : wordAt ts 0 "SELECT" = true) : ofTokens? ts = some (.query ts) := by
  cases ts with
  | nil => cases h
  | cons t ts =>
    have ht : t.isWord "SELECT" = true := h
    have hone : t.isOneOf ["WITH", "SELECT"] = true := by
      obtain ⟨w, hw, hfold⟩ := exists_kind_of_isWord ht
      rw [isOneOf, hw]
      simp [hfold]
    rw [ofTokens?, if_neg (by simp [isWord_of_isWord ht]), if_pos hone]

theorem ofTokens?_of_viewName? {ts : List Token} {n : String × List Token} (h : viewName? ts = some n) :
    ofTokens? ts = viewOf? n.1 n.2 := by
  cases ts with
  | nil => cases h
  | cons t ts =>
    unfold viewName? at h
    split at h
    · cases h
    · next us hus =>
      obtain ⟨hcreate, rfl⟩ : t.isWord "CREATE" = true ∧ ts = us := by
        simpa [expect?, Option.ite_none_right_eq_some] using hus
      dsimp only at h
      split at h
      · cases h
      · next htable =>
        obtain ⟨vs, hvs, hn⟩ := Option.bind_eq_some_iff.mp h
        rw [ofTokens?, if_pos hcreate, ofCreate?, htable, hvs]
        dsimp only
        rw [hn, Option.bind_some]

/-- A view whose column list has no end is skipped. -/
theorem ofTokens?_eq_none_of_unclosed {ts : List Token} {name : String} {rest : List Token}
    (hname : viewName? ts = some (name, rest)) (hopen : opensAt rest 0 = true) (h : closing? rest 0 = none) :
    ofTokens? ts = none := by
  obtain ⟨t, ht, hk⟩ := exists_of_opensAt hopen
  have hlist : nameList? rest 0 = none := by
    rw [nameList?, ht]
    dsimp only
    rw [if_pos hk, h, Option.map_none]
  rw [ofTokens?_of_viewName? hname, viewOf?, if_pos hopen, hlist]

/-- A column block or the body of a common table expression has no end. -/
def LeavesOpen (s : Statement) : Prop :=
  (∃ name block, s = .createTable name (.columns block) ∧ block.closed = false) ∨
    ∃ head ∈ (Query.ofTokens s.queryTokens).heads, head.closed = false

theorem exists_seeks_iff {ts : List Token} {s : Statement} (hs : ofTokens? ts = some s) :
    (∃ o, Seeks ts o ∧ o.Reported) ↔ s.LeavesOpen := by
  constructor
  · rintro ⟨o, ho, hreported⟩
    cases ho with
    | @columnBlock name body rest p hs' hrest hp has =>
      obtain ⟨rest', hrest', hbody⟩ := exists_of_createTable hs'
      obtain rfl := (Prod.mk.inj (Option.some.inj (hrest'.symm.trans hrest))).2
      have hopen : ∀ c, ¬ Encloses rest' p c := (closing?_eq_none_iff hp.1).mp hreported.1
      have hno : ∀ a, ¬ TableBody.QueryCut rest' a := by
        rintro a ⟨ha, hout⟩
        cases hout with
        | noBlock hnone => exact absurd hp.1 (by simp [hnone])
        | inFront hp' hap =>
          rw [hp'.unique hp] at hap
          exact Nat.not_le_of_lt hap (has a ha)
        | behind hp' hc => exact hopen _ (hp'.unique hp ▸ hc)
      rw [TableBody.ofTokens_eq_body (.unclosed hno hp hopen)] at hbody
      obtain rfl := Option.some.inj (hs'.symm.trans hs)
      exact .inl ⟨name, _, congrArg _ hbody.symm, rfl⟩
    | viewColumns => cases hreported.2
    | query hs' ho =>
      obtain rfl := Option.some.inj (hs'.symm.trans hs)
      exact .inr ((Query.exists_unclosed_head_iff _).mpr ⟨o, ho, hreported⟩)
  · rintro (⟨name, block, rfl, hblock⟩ | hheads)
    · obtain ⟨rest, hrest, hbody⟩ := exists_of_createTable hs
      obtain ⟨hno, p, hp, hat⟩ := TableBody.ofTokens_eq_columns_iff.mp hbody
      cases hat with
      | closed => cases hblock
      | unclosed _ _ _ hopen =>
        refine ⟨_, .columnBlock hs hrest hp fun a ha => Nat.le_of_not_lt fun hap => hno a ⟨ha, .inFront hp hap⟩,
          (closing?_eq_none_iff hp.1).mpr hopen, rfl⟩
    · obtain ⟨o, ho, hreported⟩ := (Query.exists_unclosed_head_iff _).mp hheads
      exact ⟨o, .query hs ho, hreported⟩

theorem not_seeks_of_none {ts : List Token} (hs : ofTokens? ts = none) : ¬ ∃ o, Seeks ts o ∧ o.Reported := by
  rintro ⟨o, ho, hreported⟩
  cases ho with
  | columnBlock hs' => exact absurd (hs.symm.trans hs') nofun
  | viewColumns => cases hreported.2
  | query hs' => exact absurd (hs.symm.trans hs') nofun

theorem exists_unbalanced_addQuery (inv : Inventory) (ts : List Token) (name : String) (kind : Definition.Kind)
    (f : Definition → Definition) :
    ∃ ns, (addQuery inv ts name kind f).noticesOf .unbalancedParentheses =
        inv.noticesOf .unbalancedParentheses ++ ns ∧
      (ns ≠ [] ↔ ∃ head ∈ (Query.ofTokens ts).heads, head.closed = false) := by
  obtain ⟨ns, hns, hiff⟩ := (Query.ofTokens ts).exists_unbalanced_unwind name kind inv .empty
  exact ⟨ns, (Inventory.unbalanced_define ..).trans hns, hiff⟩

theorem leavesOpen_iff_of_query {s : Statement} (hs : ∀ name block, s ≠ .createTable name (.columns block)) :
    s.LeavesOpen ↔ ∃ head ∈ (Query.ofTokens s.queryTokens).heads, head.closed = false := by
  refine or_iff_right ?_
  rintro ⟨name, block, hblock, -⟩
  exact hs name block hblock

theorem leavesOpen_columns_iff {name : String} {block : ColumnBlock} :
    (createTable name (.columns block)).LeavesOpen ↔ block.closed = false := by
  constructor
  · rintro (⟨_, _, heq, hclosed⟩ | ⟨head, hh, -⟩)
    · obtain ⟨-, hbody⟩ := createTable.inj heq
      obtain rfl := TableBody.columns.inj hbody
      exact hclosed
    · simp [queryTokens, TableBody.queryTokens, Query.ofTokens, Query.heads] at hh
  · intro hclosed
    exact .inl ⟨name, block, rfl, hclosed⟩

theorem exists_unbalanced_addTo (resultName : String) (inv : Inventory) (s : Statement) :
    ∃ ns, (s.addTo resultName inv).noticesOf .unbalancedParentheses = inv.noticesOf .unbalancedParentheses ++ ns ∧
      (ns ≠ [] ↔ s.LeavesOpen) := by
  cases s with
  | createTable name body =>
    cases body with
    | columns block =>
      have hread : ∀ n ∈ (block.read name).notices, n.kind ≠ .unbalancedParentheses := by
        intro n hn
        rw [(ColumnBlock.mem_notices_read hn).1]
        decide
      rw [addTo, Inventory.unbalanced_define, Inventory.noticesOf_absorb hread, leavesOpen_columns_iff]
      cases block.closed with
      | true => exact ⟨[], by simp⟩
      | false => exact ⟨[.unclosedBlock name], by simp [Inventory.noticesOf, Inventory.report, Notice.unclosedBlock]⟩
    | query ts =>
      rw [addTo, leavesOpen_iff_of_query (by rintro _ _ ⟨⟩)]
      exact exists_unbalanced_addQuery inv ts name .table id
    | empty =>
      rw [addTo, Inventory.unbalanced_define, leavesOpen_iff_of_query (by rintro _ _ ⟨⟩)]
      exact ⟨[], (List.append_nil _).symm, by simp [queryTokens, TableBody.queryTokens, Query.ofTokens, Query.heads]⟩
  | createView name columns ts =>
    rw [addTo, leavesOpen_iff_of_query (by rintro _ _ ⟨⟩)]
    exact exists_unbalanced_addQuery inv ts name .view (·.renameColumns columns)
  | query ts =>
    rw [addTo, leavesOpen_iff_of_query (by rintro _ _ ⟨⟩)]
    exact exists_unbalanced_addQuery inv ts _ .view id

end Statement

/-! ## Scripts -/

namespace Turn

/-- The notices of unbalanced parentheses that the text adds. -/
def unbalanced (resultName : String) (t : Turn) : List Notice :=
  ((t.after resultName).noticesOf .unbalancedParentheses).drop (t.before.noticesOf .unbalancedParentheses).length

theorem unbalanced_after (resultName : String) (t : Turn) :
    (t.after resultName).noticesOf .unbalancedParentheses =
        t.before.noticesOf .unbalancedParentheses ++ t.unbalanced resultName ∧
      (t.unbalanced resultName ≠ [] ↔ ∃ o, Statement.Seeks (Token.scan t.text) o ∧ o.Reported) := by
  have hadds : ∃ ns, (t.after resultName).noticesOf .unbalancedParentheses =
        t.before.noticesOf .unbalancedParentheses ++ ns ∧
      (ns ≠ [] ↔ ∃ o, Statement.Seeks (Token.scan t.text) o ∧ o.Reported) := by
    unfold after Statement.addText
    cases hs : Statement.ofTokens? (Token.scan t.text) with
    | none =>
      refine ⟨[], ?_, iff_of_false (fun h => h rfl) (Statement.not_seeks_of_none hs)⟩
      rw [List.append_nil]
      exact Inventory.noticesOf_report_of_ne (by rintro ⟨⟩)
    | some s =>
      obtain ⟨ns, hns, hiff⟩ := s.exists_unbalanced_addTo resultName t.before
      exact ⟨ns, hns, hiff.trans (Statement.exists_seeks_iff hs).symm⟩
  obtain ⟨ns, hns, hiff⟩ := hadds
  have hown : t.unbalanced resultName = ns := by rw [unbalanced, hns, List.drop_left]
  rw [hown]
  exact ⟨hns, hiff⟩

end Turn

namespace Script

theorem unbalanced_turns (resultName : String) (inv : Inventory) (texts : List String) :
    (texts.foldl (Statement.addText resultName) inv).noticesOf .unbalancedParentheses =
      inv.noticesOf .unbalancedParentheses ++ (turns resultName inv texts).flatMap (·.unbalanced resultName) := by
  induction texts generalizing inv with
  | nil => exact (List.append_nil _).symm
  | cons text texts ih =>
    have hstep := (Turn.unbalanced_after resultName ⟨inv, text⟩).1
    rw [Turn.after] at hstep
    rw [List.foldl_cons, ih, hstep, turns, List.flatMap_cons, List.append_assoc]

/-- The notices of unbalanced parentheses in the result are those that come with the texts. A text comes with some just
when an opening of its statement that starts a column block or the body of a common table expression has no end; no
other opening without an end is reported. -/
theorem unbalanced_ne_nil_iff (script resultName : String) :
    let runs : List Turn := turns resultName .empty (statements (Comment.strip script))
    runs.map Turn.text = statements (Comment.strip script) ∧
    (Extraction.ofScript script resultName).notices.filter (·.kind = .unbalancedParentheses) =
      runs.flatMap (·.unbalanced resultName) ∧
    ∀ t ∈ runs, t.unbalanced resultName ≠ [] ↔
      ∃ o, Statement.Seeks (Token.scan t.text) o ∧ o.Unclosed ∧ o.role.reported = true := by
  intro runs
  refine ⟨map_text_turns resultName .empty _, ?_, fun t _ => (t.unbalanced_after resultName).2⟩
  have hrun := unbalanced_turns resultName .empty (statements (Comment.strip script))
  rw [← Inventory.ofStatements, show Inventory.empty.noticesOf .unbalancedParentheses = [] from rfl,
    List.nil_append, ← Inventory.noticesOf_finish (Inventory.coherent_ofStatements resultName _) (by decide)] at hrun
  exact hrun

/-- A `DISTINCT ON` without an end takes the items and the tables with it, and nothing says so. -/
theorem unclosed_distinctOn_silent :
    let script := "SELECT DISTINCT ON (a, b FROM t"
    statements (Comment.strip script) = [script] ∧
      (∃ o, Statement.Seeks (Token.scan script) o ∧ o.Unclosed) ∧
      (Extraction.ofScript script "Query Result").notices = [] := by
  intro script
  have hseeks : Select.Seeks (Token.scan script) ⟨.distinctOn, Token.scan script, 3⟩ :=
    .distinctOn (s := 0) (by decide +kernel) (by decide +kernel) (by decide +kernel) (by decide +kernel)
  have hunclosed : closing? (Token.scan script) 3 = none := by decide +kernel
  have hquery := Statement.ofTokens?_of_select (show wordAt (Token.scan script) 0 "SELECT" = true by decide +kernel)
  exact ⟨by decide +kernel, ⟨_, .query hquery (.body (by decide +kernel) hseeks), hunclosed⟩, by decide +kernel⟩

end Script
end SqlLineage
