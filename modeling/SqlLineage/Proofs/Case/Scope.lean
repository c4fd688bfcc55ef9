import SqlLineage.Proofs.Case.Registry
import SqlLineage.Proofs.Select.Sources

/-! # Scopes in capitals

* `Keyword.isIgnored_foldCase`: a keyword is one in any case.
* `Select.mentions_fold`: the tables that a body mentions, in capitals.
* `Select.scopeOf_fold`: its scope in capitals, if no two of the tables differ in case only.
* `Select.ColumnRef.collect_fold`: the columns that it names. -/

namespace SqlLineage
open SqlLineage.Text SqlLineage.Token
set_option autoImplicit false

theorem Keyword.isIgnored_foldCase (word : String) : isIgnored (foldCase word) = isIgnored word := by
  have hnumeral : (fun c : Char => c.isDigit || c == '.') ∘ Char.toUpper = fun c => c.isDigit || c == '.' := by
    funext c
    rw [Function.comp_apply, isDigit_toUpper, toUpper_beq (by decide)]
  rw [isIgnored, isEmpty_foldCase, foldCase_foldCase, toList_foldCase, List.all_map, hnumeral, isIgnored]

theorem Keyword.isReservedForColumns_foldCase (word : String) :
    isReservedForColumns (foldCase word) = isReservedForColumns word := by
  rw [isReservedForColumns, foldCase_foldCase, isReservedForColumns]

namespace Select

/-! ## Table names -/

def TableRef.fold (t : TableRef) : TableRef :=
  ⟨t.parts.map foldCase, t.alias?.map foldCase⟩

def Mention.fold (m : Mention) : Mention :=
  ⟨m.table.fold, m.topLevel⟩

theorem TableRef.text_fold (t : TableRef) : t.fold.text = foldCase t.text :=
  (foldCase_intercalate "." t.parts).symm

theorem filter_map_foldCase {p q : String → Bool} (h : ∀ name, q (foldCase name) = p name) (name? : Option String) :
    (name?.map foldCase).filter q = (name?.filter p).map foldCase := by
  cases name? with
  | none => rfl
  | some name =>
    rw [Option.map_some, Option.filter_some, Option.filter_some, h]
    split <;> rfl

theorem freeName?_fold (t : Token) : freeName? t.fold = (freeName? t).map foldCase := by
  rw [freeName?, identifier?_fold, freeName?]
  apply filter_map_foldCase
  intro name
  rw [isQuoted_fold, Keyword.isIgnored_foldCase]

section Tables
variable (ts : List Token)

theorem aliasAt?_fold (i : Nat) : aliasAt? (ts.map Token.fold) i = (aliasAt? ts i).map foldCase := by
  rw [aliasAt?, behindWord_fold, List.getElem?_map, aliasAt?]
  cases ts[behindWord ts i "AS"]? with
  | none => rfl
  | some t => exact freeName?_fold t

theorem TableRef.read?_fold (start : Nat) :
    TableRef.read? (ts.map Token.fold) start = (TableRef.read? ts start).map TableRef.fold := by
  rw [TableRef.read?, QualifiedName.read?_fold, TableRef.read?]
  cases QualifiedName.read? ts start with
  | none => rfl
  | some n =>
    have hfree : ((ts.map Token.fold)[start]?.bind freeName?).isNone = (ts[start]?.bind freeName?).isNone := by
      rw [List.getElem?_map]
      cases ts[start]? with
      | none => rfl
      | some t =>
        simp only [Option.map_some, Option.bind_some, freeName?_fold, Option.isNone_map]
    simp only [Option.map_some, QualifiedName.next_fold, opensAt_fold, hfree, aliasAt?_fold]
    simp only [QualifiedName.fold, List.length_map]
    split
    · rfl
    · split <;> rfl

theorem opensFromFunction_fold (depth : Nat) :
    opensFromFunction depth (ts.map Token.fold) = opensFromFunction depth ts := by
  induction ts generalizing depth with
  | nil => rfl
  | cons t ts ih =>
    rw [List.map_cons, opensFromFunction, opensFromFunction, kind_fold, List.head?_map,
      any_map_fold fun t => t.isOneOf_fold _]
    cases t.kind <;> simp only [Kind.fold, ih]

theorem isNonTableFrom_fold (i : Nat) : isNonTableFrom (ts.map Token.fold) i = isNonTableFrom ts i := by
  rw [isNonTableFrom, before?_fold, any_map_fold fun t => t.isWord_fold _, ← List.map_take, ← List.map_reverse,
    opensFromFunction_fold, isNonTableFrom]

theorem mentionAt?_fold (depth : Int) (p : Placed) :
    mentionAt? (ts.map Token.fold) depth p.fold = (mentionAt? ts depth p).map Mention.fold := by
  simp only [mentionAt?, Placed.fold, isOneOf_fold, isWord_fold, isNonTableFrom_fold, TableRef.read?_fold]
  split
  · rfl
  · split
    · rfl
    · rw [Option.map_map, Option.map_map]
      rfl

theorem keywordMentions_fold (depth : Int) :
    keywordMentions (ts.map Token.fold) depth = (keywordMentions ts depth).map Mention.fold := by
  rw [keywordMentions, placed_fold, List.filterMap_map, keywordMentions, List.map_filterMap]
  exact List.filterMap_congr fun p _ => mentionAt?_fold ts depth p

theorem clauseEnd_fold (start : Nat) (depth : Int) (ends : List String) :
    clauseEnd (ts.map Token.fold) start depth ends = clauseEnd ts start depth ends := by
  have hends : ∀ p : Placed, (p.fold.depth < depth || p.fold.depth == depth && p.fold.token.isOneOf ends) =
      (p.depth < depth || p.depth == depth && p.token.isOneOf ends) := by
    intro p
    simp only [Placed.fold, isOneOf_fold]
    rfl
  rw [clauseEnd, placed_fold, ← List.map_drop, find?_placed_fold hends, List.length_map, clauseEnd]
  cases ((placed ts).drop start).find? _ <;> rfl

theorem tableFrom?_fold (select : Nat) : tableFrom? (ts.map Token.fold) select = tableFrom? ts select := by
  have hfrom : ∀ p : Placed, (p.fold.depth == depthAt ts select && p.fold.token.isWord "FROM" &&
      !isNonTableFrom (ts.map Token.fold) p.fold.index) =
      (p.depth == depthAt ts select && p.token.isWord "FROM" && !isNonTableFrom ts p.index) := by
    intro p
    simp only [Placed.fold, isWord_fold, isNonTableFrom_fold]
  simp only [tableFrom?, depthAt_fold, placed_fold, ← List.map_drop]
  rw [find?_placed_fold hfrom, Option.map_map]
  rfl

theorem fromGroups_fold (select : Nat) :
    fromGroups (ts.map Token.fold) select = (fromGroups ts select).map (List.map Token.fold) := by
  rw [fromGroups, tableFrom?_fold, fromGroups]
  cases tableFrom? ts select with
  | none => rfl
  | some i => simp only [clauseEnd_fold, depthAt_fold, spanOf_fold, topLevel_fold]

theorem listMentions_fold (select : Nat) :
    listMentions (ts.map Token.fold) select = (listMentions ts select).map Mention.fold := by
  simp only [listMentions, fromGroups_fold, List.length_map]
  split
  · rfl
  · rw [List.filterMap_map, List.map_filterMap]
    refine List.filterMap_congr fun group _ => ?_
    rw [Function.comp_apply, TableRef.read?_fold, Option.map_map, Option.map_map]
    rfl

theorem select?_fold : select? (ts.map Token.fold) = select? ts :=
  findIdx?_fold ts fun t => t.isWord_fold "SELECT"

theorem mentions_fold : mentions (ts.map Token.fold) = (mentions ts).map Mention.fold := by
  rw [mentions, select?_fold, mentions]
  cases select? ts with
  | none => exact keywordMentions_fold ts 0
  | some select => simp only [depthAt_fold, keywordMentions_fold, listMentions_fold, List.map_append]

end Tables

/-! ## Scopes -/

def Scope.fold (s : Scope) : Scope :=
  ⟨⟨s.aliases.entries.map fun e => (e.1, foldCase e.2)⟩, s.referenced.map foldCase, s.topLevel.map foldCase⟩

namespace Scope

theorem call_fold (s : Scope) (table name : String) :
    s.fold.call (foldCase table) (foldCase name) = (s.call table name).fold := by
  simp only [call, fold, OrderedMap.insert, upper_foldCase, OrderedMap.set_map_value]

theorem namesOf_fold (table : String) (t : TableRef) :
    namesOf (foldCase table) t.fold = (namesOf table t).map foldCase := by
  have hlast : t.fold.parts.getLast?.toList = t.parts.getLast?.toList.map foldCase := by
    rw [TableRef.fold, List.getLast?_map]
    cases t.parts.getLast? <;> rfl
  have halias : t.fold.alias?.toList = t.alias?.toList.map foldCase := by
    rw [TableRef.fold]
    cases t.alias? <;> rfl
  have hlength : t.fold.parts.length = t.parts.length := List.length_map ..
  rw [namesOf, hlast, halias, TableRef.text_fold, hlength, namesOf]
  split <;> simp

theorem foldl_call_fold (table : String) (names : List String) (s : Scope) :
    (names.map foldCase).foldl (fun s name => s.call (foldCase table) name) s.fold =
      (names.foldl (fun s name => s.call table name) s).fold := by
  induction names generalizing s with
  | nil => rfl
  | cons name names ih =>
    rw [List.map_cons, List.foldl_cons, List.foldl_cons, call_fold]
    exact ih _

/-- A table that no table of the scope differs from in case only. -/
theorem add_fold {s : Scope} {table : String} (hr : ∀ t ∈ s.referenced, foldCase t = foldCase table → t = table)
    (htop : ∀ t ∈ s.topLevel, foldCase t = foldCase table → t = table) (m : Mention) :
    s.fold.add (foldCase table) m.fold = (s.add table m).fold := by
  rw [add, Mention.fold, namesOf_fold, add, ← foldl_call_fold]
  congr 1
  simp only [fold, appendNew_map foldCase hr, appendNew_map foldCase htop]
  split <;> rfl

/-- A scope in capitals, if no two of its tables differ in case only. -/
theorem ofMentions_fold {env : Environment} {ms : List Mention}
    (h : Uniform (ms.map fun m => env.resolve m.table.text)) :
    ofMentions env.fold (ms.map Mention.fold) = (ofMentions env ms).fold := by
  have hall : ∀ (ms : List Mention) (s : Scope),
      (∀ t ∈ s.topLevel, t ∈ s.referenced) → Uniform (s.referenced ++ ms.map fun m => env.resolve m.table.text) →
      (ms.map Mention.fold).foldl (fun s m => s.add (env.fold.resolve m.table.text) m) s.fold =
        (ms.foldl (fun s m => s.add (env.resolve m.table.text) m) s).fold := by
    intro ms
    induction ms with
    | nil => exact fun s _ _ => rfl
    | cons m ms ih =>
      intro s htop hs
      have hsame : ∀ t ∈ s.referenced, foldCase t = foldCase (env.resolve m.table.text) →
          t = env.resolve m.table.text := fun t ht heq =>
        hs.eq (List.mem_append_left _ ht) (List.mem_append_right _ (List.mem_cons_self ..)) heq
      have hresolve : env.fold.resolve m.fold.table.text = foldCase (env.resolve m.table.text) := by
        rw [← env.resolve_fold, ← TableRef.text_fold]
        rfl
      rw [List.map_cons, List.foldl_cons, List.foldl_cons, hresolve,
        add_fold hsame fun t ht => hsame t (htop t ht)]
      refine ih _ ?_ ?_
      · intro t ht
        rw [topLevel_add] at ht
        rw [referenced_add, mem_appendNew]
        split at ht
        · exact (mem_appendNew.mp ht).imp_left (htop t)
        · exact .inl (htop t ht)
      · have hsub : ∀ t ∈ (s.add (env.resolve m.table.text) m).referenced ++ ms.map (fun m => env.resolve m.table.text),
            t ∈ s.referenced ++ (m :: ms).map fun m => env.resolve m.table.text := by
          intro t ht
          rw [List.mem_append, referenced_add, mem_appendNew] at ht
          simp only [List.map_cons, List.mem_append, List.mem_cons]
          tauto
        exact fun a ha b hb => hs a (hsub a ha) b (hsub b hb)
  exact hall ms empty (fun t ht => ht) h

section Fold
variable (s : Scope)

theorem resolve?_fold (qualifier : String) :
    s.fold.resolve? (foldCase qualifier) = (s.resolve? qualifier).map foldCase := by
  rw [resolve?, upper_foldCase]
  exact OrderedMap.lookup_map_value ..

theorem sources_fold : s.fold.sources = s.sources.map foldCase := by
  rw [sources, fold, List.isEmpty_map, sources]
  split <;> rfl

theorem isIgnored_fold (word : String) : s.fold.isIgnored (foldCase word) = s.isIgnored word := by
  rw [isIgnored, Keyword.isIgnored_foldCase, resolve?_fold, Option.isSome_map, isIgnored]

end Fold
end Scope

/-- No two of the tables that a body reads differ in case only. -/
theorem scopeOf_fold {env : Environment} {ts : List Token}
    (h : Uniform ((mentions ts).map fun m => env.resolve m.table.text)) :
    scopeOf env.fold (ts.map Token.fold) = (scopeOf env ts).fold := by
  rw [scopeOf_eq, mentions_fold, Scope.ofMentions_fold h, scopeOf_eq]

/-! ## Column names -/

def ColumnRef.fold (r : ColumnRef) : ColumnRef :=
  { r with qualifier := r.qualifier.map foldCase, column := foldCase r.column }

namespace ColumnRef

theorem isExcluded_fold (previous next : Option Token) :
    isExcluded (previous.map Token.fold) (next.map Token.fold) = isExcluded previous next := by
  have hnext : ∀ t : Token, (t.fold.kind == .leftParen || t.fold.kind == .dot) =
      (t.kind == .leftParen || t.kind == .dot) := by
    intro t
    rw [kind_fold_beq t .leftParen rfl, kind_fold_beq t .dot rfl]
  have hprevious : ∀ t : Token,
      (t.fold.isWord "AS" || t.fold.lexeme == "::") = (t.isWord "AS" || t.lexeme == "::") := by
    intro t
    rw [isWord_fold, lexeme_fold]
    congr 1
    rw [Bool.eq_iff_iff, beq_iff_eq, beq_iff_eq, ← String.toList_inj, toList_foldCase, ← String.toList_inj]
    exact map_toUpper_eq_iff (by simp [isSign])
  rw [isExcluded, any_map_fold hnext, any_map_fold hprevious, isExcluded]

theorem ofName?_fold (scope : Scope) (start : Nat) (first : Token) (n : QualifiedName) :
    ofName? scope.fold start first.fold n.fold = (ofName? scope start first n).map fold := by
  have hlast : (n.parts.map foldCase).getLast?.getD "" = foldCase (n.parts.getLast?.getD "") := by
    rw [List.getLast?_map]
    cases n.parts.getLast? <;> rfl
  simp only [ofName?, QualifiedName.fold, hlast, ← List.map_dropLast, List.isEmpty_map, isQuoted_fold,
    Scope.isIgnored_fold]
  split
  · split <;> rfl
  · rw [Option.map_some, fold, Option.map_some, foldCase_intercalate]
    rfl

theorem collectFrom_fold (scope : Scope) (i : Nat) (previous : Option Token) (ts : List Token) :
    collectFrom scope.fold i (previous.map Token.fold) (ts.map Token.fold) =
      (collectFrom scope i previous ts).map fold := by
  have hdot : ∀ t? : Option Token, (t?.map Token.fold).any (·.kind == .dot) = t?.any (·.kind == .dot) :=
    any_map_fold fun t => t.kind_fold_beq .dot rfl
  fun_induction collectFrom scope i previous ts with
  | case1 i previous => simp [collectFrom]
  | case2 i previous t ts hprevious ih =>
    rw [List.map_cons, collectFrom, hdot, if_pos hprevious]
    exact ih
  | case3 i previous t ts hprevious hname ih =>
    rw [List.map_cons, collectFrom, hdot, if_neg hprevious, ← List.map_cons, QualifiedName.ofTokens?_fold, hname]
    exact ih
  | case4 i previous t ts hprevious n hname further rest ih =>
    rw [List.map_cons, collectFrom, hdot, if_neg hprevious, ← List.map_cons, QualifiedName.ofTokens?_fold, hname]
    simp only [Option.map_some, QualifiedName.next_fold, ← List.map_drop, List.head?_map, isExcluded_fold, ofName?_fold,
      ← List.map_take, ← List.map_cons, List.getLast?_map, List.map_append]
    congr 1
    split
    · rfl
    · cases ofName? scope i t n <;> rfl

theorem collect_fold (scope : Scope) (ts : List Token) :
    collect scope.fold (ts.map Token.fold) = (collect scope ts).map fold :=
  collectFrom_fold scope 0 none ts

end ColumnRef
end Select
end SqlLineage
