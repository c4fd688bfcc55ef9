import Mathlib.Data.List.Infix
import SqlLineage.Proofs.Select.Collect
import SqlLineage.Proofs.Select.Observed
import SqlLineage.Proofs.Token.Depth
import SqlLineage.Token.Scan

/-! # Table names among the column references

The columns that a body uses are looked for among all its tokens, also those that name its tables. The names in scope
are passed by, but only where they stand unquoted and alone.

* `Select.TableToken`: a token that names a table of the body or is its alias.
* `Select.UsedAt`: a token that names a column whose use is noted; `Select.mem_bodyUsage_iff`: there are no others.
* `Select.usedAt_iff`: when a token does so.
* `Select.usedAt_tableToken_iff`: a table or an alias is taken for a column just when it is quoted, or stands
  behind a qualifier in scope. -/

namespace SqlLineage
open SqlLineage.Text
set_option autoImplicit false

theorem QualifiedName.length_parts {ts : List Token} {start : Nat} {n : QualifiedName} (h : read? ts start = some n) :
    n.next + 1 = start + 2 * n.parts.length := by
  obtain ⟨t, part, -, -, rfl⟩ := read?_eq_some_iff.mp h
  simp only [List.length_cons]
  omega

namespace Select

/-! ## Tokens of tables -/

/-- The tokens behind the `FROM` at `f` that make up the comma list. -/
def listSpan (ts : List Token) (select f : Nat) : Token.Span :=
  ⟨f + 1, clauseEnd ts (f + 1) (Token.depthAt ts select) fromListEnds⟩

/-- Where tables are read: behind a keyword, with all tokens in view, or at the head of a group of the comma list,
with nothing but the group in view. The view begins at `offset`, and the table at `start` inside of it. -/
inductive ReadsTable (ts : List Token) : (offset : Nat) → (view : List Token) → (start : Nat) → Prop where
  | keyword {select k : Nat} {t : Token} (hs : select? ts = some select) (ht : ts[k]? = some t)
      (hm : (mentionAt? ts (Token.depthAt ts select) ⟨t, Token.depthAt ts k, k⟩).isSome = true) :
      ReadsTable ts 0 ts (k + 1)
  | listed {select f : Nat} {s : Token.Span} (hs : select? ts = some select) (hf : tableFrom? ts select = some f)
      (hg : 2 ≤ (fromGroups ts select).length) (hmem : s ∈ Token.topLevelSpans ((listSpan ts select f).of ts)) :
      ReadsTable ts (f + 1 + s.start) (s.of ((listSpan ts select f).of ts)) 0

/-- The token at `i` belongs to the name of the table at `start`, or is its alias. -/
def TableRef.Consumes (ts : List Token) (start i : Nat) : Prop :=
  (TableRef.read? ts start).isSome = true ∧ ∃ n, QualifiedName.read? ts start = some n ∧
    (start ≤ i ∧ i < n.next ∨ (aliasAt? ts n.next).isSome = true ∧ i = Token.behindWord ts n.next "AS")

/-- The token at `i` names a table that the scope of the body takes, or is its alias. -/
def TableToken (ts : List Token) (i : Nat) : Prop :=
  ∃ offset view start j, ReadsTable ts offset view start ∧ TableRef.Consumes view start j ∧ i = offset + j

/-! ## Tokens of columns -/

/-- The places of the output aliases of a body. -/
def outputAliases (env : Environment) (ts : List Token) : List Nat :=
  match select? ts with
  | some select => (Projection.read env (scopeOf env ts) ts select).aliases
  | none => []

/-- The token at `i` is read as the name of a column, and `o` is noted for it. An empty name says nothing. -/
def UsedAt (env : Environment) (ts : List Token) (i : Nat) (o : TableColumn) : Prop :=
  o.column ≠ "" ∧ ∃ r ∈ ColumnRef.collect (scopeOf env ts) ts, r.start ∉ outputAliases env ts ∧ r.stop = i + 1 ∧
    o ∈ observe env (scopeOf env ts) r

/-- The name from `start` on, which ends at `i`, is one for whose last part something may be noted as `o`. -/
structure Notes (env : Environment) (ts : List Token) (i : Nat) (o : TableColumn) (start : Nat) (t : Token)
    (n : QualifiedName) : Prop where
  name : ColumnRef.NameAt ts start t n
  stop : n.next = i + 1
  unaliased : start ∉ outputAliases env ts
  column : n.parts.getLast? = some o.column
  named : o.column ≠ ""
  unfiled : env.ctes.files o.table = false

/-- A name of several parts is noted for the table of its qualifier. -/
def QualifierLeads (env : Environment) (ts : List Token) (n : QualifiedName) (table : String) : Prop :=
  2 ≤ n.parts.length ∧ (scopeOf env ts).resolve? (".".intercalate n.parts.dropLast) = some table

theorem mem_observe_iff {env : Environment} {scope : Scope} {r : ColumnRef} {o : TableColumn} :
    o ∈ observe env scope r ↔ o.table ∈ usedTables scope r ∧ o.column = r.column ∧ env.ctes.files o.table = false := by
  unfold observe
  rw [List.mem_flatMap]
  constructor
  · rintro ⟨table, htable, ho⟩
    obtain ⟨rfl, hfiles⟩ := Environment.mem_observed ho
    exact ⟨htable, rfl, hfiles⟩
  · rintro ⟨htable, hcolumn, hfiles⟩
    refine ⟨o.table, htable, ?_⟩
    rw [Environment.observed, hfiles, if_neg Bool.false_ne_true, ← hcolumn]
    exact List.mem_singleton_self o

/-- What a body uses outside of its output aliases is what its tokens name. -/
theorem mem_bodyUsage_iff {env : Environment} {ts : List Token} {o : TableColumn} (ho : o.column ≠ "") :
    o ∈ bodyUsage env (scopeOf env ts) ts (outputAliases env ts) ↔ ∃ i, UsedAt env ts i o := by
  unfold bodyUsage
  rw [List.mem_flatMap]
  constructor
  · rintro ⟨r, hr, hobserve⟩
    obtain ⟨hr, haliases⟩ := List.mem_filter.mp hr
    obtain ⟨t, n, hname, hof⟩ := ColumnRef.mem_collect_iff.mp hr
    have hlt := QualifiedName.start_lt_next hname.name
    have hstop := (ColumnRef.start_ofName? hof).2
    exact ⟨r.stop - 1, ho, r, hr, by simpa using haliases, by omega, hobserve⟩
  · rintro ⟨i, -, r, hr, haliases, -, hobserve⟩
    exact ⟨r, List.mem_filter.mpr ⟨hr, by simpa using haliases⟩, hobserve⟩

/-- A name that stands alone is a column unless it is passed by, and a qualified name always is one. -/
theorem ofName?_eq_some_iff {scope : Scope} {ts : List Token} {start : Nat} {t : Token} {n : QualifiedName}
    (hn : QualifiedName.read? ts start = some n) {r : ColumnRef} :
    ColumnRef.ofName? scope start t n = some r ↔ ∃ column, n.parts.getLast? = some column ∧
      (n.parts.length = 1 ∧ (t.isQuoted || !scope.isIgnored column) = true ∧ ⟨start, n.next, none, column⟩ = r ∨
        2 ≤ n.parts.length ∧ ⟨start, n.next, some (".".intercalate n.parts.dropLast), column⟩ = r) := by
  obtain ⟨qs, column, hparts⟩ : ∃ qs column, n.parts = qs ++ [column] := by
    obtain ⟨u, part, -, -, rfl⟩ := QualifiedName.read?_eq_some_iff.mp hn
    have hne := List.cons_ne_nil part (QualifiedName.furtherParts (ts.drop (start + 1)))
    exact ⟨_, _, (List.dropLast_concat_getLast hne).symm⟩
  unfold ColumnRef.ofName?
  rw [hparts]
  simp only [List.getLast?_concat, Option.getD_some, List.dropLast_concat, Option.some.injEq, exists_eq_left',
    List.length_append, List.length_singleton]
  cases qs with
  | nil => simp
  | cons q qs => simp

/-- What is noted for a token: a name that stands alone is noted for all tables unless it is passed by, and a qualified
one for the table of its qualifier. -/
theorem usedAt_iff {env : Environment} {ts : List Token} {i : Nat} {o : TableColumn} :
    UsedAt env ts i o ↔ ∃ start t n, Notes env ts i o start t n ∧
      (n.parts.length = 1 ∧ (t.isQuoted || !(scopeOf env ts).isIgnored o.column) = true ∧
          o.table ∈ (scopeOf env ts).referenced ∨
        QualifierLeads env ts n o.table) := by
  constructor
  · rintro ⟨hnamed, r, hr, haliases, hstop, hobserve⟩
    obtain ⟨htable, hcolumn, hfiles⟩ := mem_observe_iff.mp hobserve
    obtain ⟨t, n, hname, hof⟩ := ColumnRef.mem_collect_iff.mp hr
    have hnext := (ColumnRef.start_ofName? hof).2.symm.trans hstop
    obtain ⟨column, hlast, hcase⟩ := (ofName?_eq_some_iff hname.name).mp hof
    refine ⟨r.start, t, n, ⟨hname, hnext, haliases, ?_, hnamed, hfiles⟩, ?_⟩
    · rw [hlast, hcolumn]
      rcases hcase with ⟨-, -, hr⟩ | ⟨-, hr⟩ <;> rw [← hr]
    · rcases hcase with ⟨hlength, hbare, hr⟩ | ⟨hlength, hr⟩
      · rw [← hr] at htable hcolumn
        exact .inl ⟨hlength, hcolumn ▸ hbare, htable⟩
      · rw [← hr] at htable
        exact .inr ⟨hlength, Option.mem_toList.mp htable⟩
  · rintro ⟨start, t, n, h, hcase⟩
    have hcollect : ∀ r, ColumnRef.ofName? (scopeOf env ts) start t n = some r → r.start = start →
        o.table ∈ usedTables (scopeOf env ts) r → o.column = r.column → UsedAt env ts i o := by
      rintro r hof rfl htable hcolumn
      exact ⟨h.named, r, ColumnRef.mem_collect_iff.mpr ⟨t, n, h.name, hof⟩, h.unaliased,
        (ColumnRef.start_ofName? hof).2.trans h.stop, mem_observe_iff.mpr ⟨htable, hcolumn, h.unfiled⟩⟩
    rcases hcase with ⟨hlength, hbare, htable⟩ | ⟨hlength, hresolve⟩
    · exact hcollect _ ((ofName?_eq_some_iff h.name.name).mpr ⟨_, h.column, .inl ⟨hlength, hbare, rfl⟩⟩) rfl htable rfl
    · exact hcollect _ ((ofName?_eq_some_iff h.name.name).mpr ⟨_, h.column, .inr ⟨hlength, rfl⟩⟩) rfl
        (Option.mem_toList.mpr hresolve) rfl

/-! ## Tables are in scope -/

namespace Scope

theorem isSome_resolve?_add {s : Scope} {table : String} {m : Mention} {q : String}
    (h : (s.resolve? q).isSome = true ∨ q ∈ namesOf table m.table) : ((s.add table m).resolve? q).isSome = true := by
  rw [resolve?_add]
  split
  · rfl
  · next hno =>
    rcases h with h | h
    · exact h
    · exact absurd (List.mem_map_of_mem h) hno

/-- All names of a mentioned table lead somewhere. -/
theorem isSome_resolve?_ofMentions {env : Environment} {ms : List Mention} {m : Mention} (hm : m ∈ ms) {q : String}
    (hq : q ∈ namesOf (env.resolve m.table.text) m.table) : ((ofMentions env ms).resolve? q).isSome = true := by
  have hall : ∀ s : Scope, (s.resolve? q).isSome = true ∨ m ∈ ms →
      ((ms.foldl (fun s m => s.add (env.resolve m.table.text) m) s).resolve? q).isSome = true := by
    clear hm
    induction ms with
    | nil =>
      rintro s (h | h)
      · exact h
      · cases h
    | cons m' ms ih =>
      rintro s (h | h)
      · exact ih _ (.inl (isSome_resolve?_add (.inl h)))
      · rcases List.mem_cons.mp h with rfl | h
        · exact ih _ (.inl (isSome_resolve?_add (.inr hq)))
        · exact ih _ (.inr h)
  exact hall empty (.inr hm)

end Scope

section Tables
variable {ts view : List Token} {offset start : Nat}

theorem ReadsTable.isPrefix (h : ReadsTable ts offset view start) : view <+: ts.drop offset := by
  cases h with
  | keyword => exact List.prefix_rfl
  | @listed select f s _ _ _ _ =>
    unfold Token.Span.of
    rw [← List.drop_drop]
    exact (List.take_prefix ..).trans (List.IsPrefix.drop (List.take_prefix ..) s.start)

/-- The scope takes every table that is read. -/
theorem ReadsTable.exists_mention (h : ReadsTable ts offset view start) {table : TableRef}
    (ht : TableRef.read? view start = some table) : ∃ m ∈ mentions ts, m.table = table := by
  cases h with
  | @keyword select k t hs hk hm =>
    obtain ⟨m, hm⟩ := Option.isSome_iff_exists.mp hm
    have hplace : (Token.placed ts)[k]? = some ⟨t, Token.depthAt ts k, k⟩ := by
      rw [Token.getElem?_placed, hk, Option.map_some]
    refine ⟨m, ?_, ?_⟩
    · rw [mentions, hs]
      exact List.mem_append_left _ (List.mem_filterMap.mpr ⟨_, List.mem_of_getElem? hplace, hm⟩)
    · unfold mentionAt? at hm
      split at hm
      · cases hm
      · split at hm
        · cases hm
        · rw [ht] at hm
          exact (Option.some.inj hm) ▸ rfl
  | @listed select f s hs hf hg hmem =>
    have hgroups : fromGroups ts select = Token.topLevel ((listSpan ts select f).of ts) := by
      rw [fromGroups, hf]
      rfl
    refine ⟨⟨table, true⟩, ?_, rfl⟩
    rw [mentions, hs]
    refine List.mem_append_right _ ?_
    rw [listMentions, if_neg (Nat.not_lt_of_le hg), hgroups]
    exact List.mem_filterMap.mpr ⟨_, List.mem_map_of_mem hmem, by rw [ht]; rfl⟩

theorem TableRef.read?_name {n : QualifiedName} {table : TableRef} (h : TableRef.read? ts start = some table)
    (hn : QualifiedName.read? ts start = some n) : table = ⟨n.parts, aliasAt? ts n.next⟩ := by
  unfold TableRef.read? at h
  rw [hn] at h
  dsimp only at h
  split at h
  · cases h
  · split at h
    · cases h
    · exact (Option.some.inj h).symm

/-- A token of a table that is a name by itself is the name of the table or its alias. -/
theorem TableRef.Consumes.name_or_alias {j : Nat} (h : TableRef.Consumes view start j) (hview : view <+: ts.drop offset)
    {t : Token} {n : QualifiedName} (hn : ColumnRef.NameAt ts (offset + j) t n) (hnext : n.next = offset + j + 1) :
    ∃ table part, TableRef.read? view start = some table ∧ n.parts = [part] ∧
      (table.text = part ∨ table.alias? = some part) := by
  obtain ⟨hsome, m, hm, hj⟩ := h
  obtain ⟨table, htable⟩ := Option.isSome_iff_exists.mp hsome
  obtain rfl := TableRef.read?_name htable hm
  obtain ⟨u, part, hu, hpart, hparts, hfurther⟩ := QualifiedName.parts_of_next hn.name hnext
  have hget : ∀ k v, view[k]? = some v → ts[offset + k]? = some v := by
    intro k v hk
    obtain ⟨hlt, rfl⟩ := List.getElem?_eq_some_iff.mp hk
    rw [← List.getElem?_drop]
    exact List.prefix_iff_getElem?.mp hview k hlt
  refine ⟨_, part, htable, hparts, ?_⟩
  rcases hj with ⟨hstart, hlt⟩ | ⟨halias, rfl⟩
  · rcases Nat.lt_or_eq_of_le hstart with hstart | rfl
    · -- inside the name of the table no column begins
      exfalso
      rcases QualifiedName.inside hm hstart hlt with ⟨d, hd, hdot⟩ | hdot
      · obtain rfl : d = u := Option.some.inj ((hget j d hd).symm.trans hu)
        simp [Token.identifier?, hdot] at hpart
      · obtain ⟨k, rfl⟩ : ∃ k, j = k + 1 := ⟨j - 1, by omega⟩
        have hundotted := hn.undotted
        rw [Token.before?, if_neg (by omega), Nat.add_sub_cancel] at hdot
        rw [Token.before?, if_neg (by omega), ← Nat.add_assoc, Nat.add_sub_cancel] at hundotted
        cases hk : view[k]? with
        | none => simp [hk] at hdot
        | some d =>
          rw [hk] at hdot
          rw [hget k d hk, hdot] at hundotted
          cases hundotted
    · obtain ⟨v, first, hv, hfirst, rfl⟩ := QualifiedName.read?_eq_some_iff.mp hm
      obtain rfl : v = u := Option.some.inj ((hget start v hv).symm.trans hu)
      obtain rfl := Option.some.inj (hfirst.symm.trans hpart)
      have hprefix := List.IsPrefix.drop hview (start + 1)
      rw [List.drop_drop, ← Nat.add_assoc] at hprefix
      refine .inl ?_
      rw [TableRef.text, QualifiedName.furtherParts_of_prefix hprefix hfurther]
      exact String.intercalate_singleton
  · obtain ⟨label, hlabel⟩ := Option.isSome_iff_exists.mp halias
    obtain ⟨v, hv, hfree⟩ := Option.bind_eq_some_iff.mp hlabel
    obtain rfl : v = u := Option.some.inj ((hget _ v hv).symm.trans hu)
    obtain ⟨hname, -⟩ := Option.filter_eq_some_iff.mp hfree
    exact .inr (hlabel.trans (hname.symm.trans hpart))

theorem TableToken.isIgnored {env : Environment} {i : Nat} (h : TableToken ts i) {t : Token} {n : QualifiedName}
    (hn : ColumnRef.NameAt ts i t n) (hnext : n.next = i + 1) {part : String} (hpart : n.parts.getLast? = some part) :
    (scopeOf env ts).isIgnored part = true := by
  obtain ⟨offset, view, start, j, hreads, hconsumes, rfl⟩ := h
  obtain ⟨table, name, htable, hparts, hname⟩ := hconsumes.name_or_alias hreads.isPrefix hn hnext
  rw [hparts, List.getLast?_singleton, Option.some.injEq] at hpart
  subst hpart
  obtain ⟨m, hm, rfl⟩ := hreads.exists_mention htable
  have hmem : name ∈ Scope.namesOf (env.resolve m.table.text) m.table := by
    unfold Scope.namesOf
    rcases hname with rfl | halias
    · simp
    · rw [halias]
      simp
  rw [Scope.isIgnored, scopeOf_eq, Scope.isSome_resolve?_ofMentions hm hmem, Bool.or_true]

end Tables

/-! ## Tables taken for columns -/

/-- A token that names a table or is an alias is taken for a column just when it is a quoted name by itself, which is
noted for all tables in scope, or the last part of a name whose qualifier leads to a table; nothing around the name
may say otherwise. -/
theorem usedAt_tableToken_iff {env : Environment} {ts : List Token} {i : Nat} (h : TableToken ts i) (o : TableColumn) :
    UsedAt env ts i o ↔ ∃ start t n, Notes env ts i o start t n ∧
      (n.parts.length = 1 ∧ t.isQuoted = true ∧ o.table ∈ (scopeOf env ts).referenced ∨
        QualifierLeads env ts n o.table) := by
  rw [usedAt_iff]
  refine exists_congr fun start => exists_congr fun t => exists_congr fun n => and_congr_right fun hnotes => ?_
  refine or_congr_left (and_congr_right fun hlength => and_congr_left fun _ => ?_)
  have hnext := QualifiedName.length_parts hnotes.name.name
  have hstop := hnotes.stop
  obtain rfl : start = i := by omega
  rw [h.isIgnored hnotes.name hstop hnotes.column, Bool.not_true, Bool.or_false]

/-- The table `u.v` is noted as the column `v` of `t`, since `u` is an alias of `t`. -/
theorem usedAt_tableToken_iff_qualified :
    let ts := Token.scan "SELECT u.x FROM t AS u JOIN u.v"
    TableToken ts 11 ∧ UsedAt ⟨.empty, .empty⟩ ts 11 ⟨"t", "v"⟩ := by
  intro ts
  have hselect : select? ts = some 0 := by decide +kernel
  have hjoin : ts[8]? = some ⟨.word "JOIN", "JOIN", 1, 28⟩ := by decide +kernel
  have htoken : TableToken ts 11 := by
    refine ⟨0, ts, 9, 11, .keyword hselect hjoin (by decide +kernel), ⟨by decide +kernel, ?_⟩, rfl⟩
    exact ⟨⟨["u", "v"], 12⟩, by decide +kernel, .inl (by decide)⟩
  refine ⟨htoken, (usedAt_tableToken_iff htoken _).mpr ?_⟩
  have hname : ColumnRef.NameAt ts 9 ⟨.word "u", "u", 1, 30⟩ ⟨["u", "v"], 12⟩ := by
    constructor <;> decide +kernel
  exact ⟨9, _, _, ⟨hname, rfl, by decide +kernel, rfl, by decide, rfl⟩, .inr ⟨by decide, by decide +kernel⟩⟩

/-- The quoted table is noted as a column of itself. -/
theorem quoted_table_used :
    let ts := Token.scan "SELECT COUNT(*) AS n FROM [events]"
    TableToken ts 8 ∧ UsedAt ⟨.empty, .empty⟩ ts 8 ⟨"events", "events"⟩ := by
  intro ts
  have hselect : select? ts = some 0 := by decide +kernel
  have hfrom : ts[7]? = some ⟨.word "FROM", "FROM", 1, 26⟩ := by decide +kernel
  refine ⟨?_, by decide, ⟨8, 9, none, "events"⟩, by decide +kernel, by decide +kernel, rfl, by decide +kernel⟩
  refine ⟨0, ts, 8, 8, .keyword hselect hfrom (by decide +kernel), ⟨by decide +kernel, ?_⟩, rfl⟩
  exact ⟨⟨["events"], 9⟩, by decide +kernel, .inl (by decide)⟩

end Select
end SqlLineage
