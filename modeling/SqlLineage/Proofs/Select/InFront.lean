import Mathlib.Data.List.Find
import SqlLineage.Proofs.Checked.Query
import SqlLineage.Proofs.Select.Collect
import SqlLineage.Proofs.Token.Balanced

/-! # Tokens in front of a body

A body is read from its `SELECT` on, and at the depth of that word. What stands in front of it moves all indices and
depths, and it matters where a reader looks for a word on its left.

* `Token.placed_drop`: behind tokens all places are moved alike.
* `Select.Idle`: a token that is none of the words that are looked for.
* `Select.definition_read_drop`: behind idle tokens a body gives the same definition.
* `Select.read_drop`: behind parentheses it gives the same in all, also what it observes. -/

namespace SqlLineage
set_option autoImplicit false

/-! ## Places behind tokens -/

namespace Token

theorem beq_add_left (c d e : Int) : (c + d == c + e) = (d == e) := by
  rw [Bool.eq_iff_iff, beq_iff_eq, beq_iff_eq, Int.add_right_inj]

def Placed.shift (k : Nat) (c : Int) (p : Placed) : Placed := ⟨p.token, c + p.depth, k + p.index⟩

theorem placedFrom_shift (k : Nat) (c : Int) (i : Nat) (d : Int) (ts : List Token) :
    placedFrom (k + i) (c + d) ts = (placedFrom i d ts).map (Placed.shift k c) := by
  induction ts generalizing i d with
  | nil => rfl
  | cons t ts ih =>
    have hdepth : (if t.kind = .rightParen then c + d - 1 else c + d) =
        c + (if t.kind = .rightParen then d - 1 else d) := by
      split <;> omega
    rw [placedFrom, placedFrom, List.map_cons, Nat.add_assoc, Int.add_assoc, ih, hdepth]
    rfl

theorem map_token_placed (ts : List Token) : (placed ts).map Placed.token = ts := by
  refine List.ext_getElem? fun i => ?_
  rw [List.getElem?_map, getElem?_placed, Option.map_map]
  exact Option.map_id'

theorem placed_drop {ts : List Token} {k : Nat} (h : k ≤ ts.length) :
    (placed ts).drop k = (placed (ts.drop k)).map (Placed.shift k (depthBefore ts k)) := by
  rw [drop_placed h, placed_eq, ← placedFrom_shift, Nat.add_zero, Int.add_zero]

theorem depthBefore_add (ts : List Token) (k i : Nat) :
    depthBefore ts (k + i) = depthBefore ts k + depthBefore (ts.drop k) i := by
  rw [depthBefore, List.take_add, depthBehind_append, depthBehind_eq]
  rfl

theorem depthAt_drop {ts : List Token} {k i : Nat} (h : k + i < ts.length) :
    depthAt ts (k + i) = depthBefore ts k + depthAt (ts.drop k) i := by
  have hget := List.getElem?_eq_getElem h
  have hget' : (ts.drop k)[i]? = some ts[k + i] := by rw [List.getElem?_drop, hget]
  rw [depthAt_eq hget, depthAt_eq hget', depthBefore_add]
  split <;> omega

theorem index_find?_drop {ts : List Token} {k : Nat} (h : k ≤ ts.length) (start : Nat) (q : Placed → Bool) :
    (((placed ts).drop (k + start)).find? q).map Placed.index =
      ((((placed (ts.drop k)).drop start).find? fun p => q (p.shift k (depthBefore ts k))).map Placed.index).map
        (k + ·) := by
  rw [← List.drop_drop, placed_drop h, ← List.map_drop, List.find?_map, Option.map_map, Option.map_map]
  rfl

end Token

theorem QualifiedName.ofTokens?_add (k start : Nat) (ts : List Token) :
    ofTokens? (k + start) ts = (ofTokens? start ts).map fun n => ⟨n.parts, k + n.next⟩ := by
  cases ts with
  | nil => rfl
  | cons t ts =>
    rw [ofTokens?, ofTokens?, Option.map_map]
    refine congrArg (fun f => Option.map f t.identifier?) (funext fun part => ?_)
    simp [Nat.add_assoc]

namespace Select

/-! ## Tables named behind an index -/

theorem aliasAt?_drop (k i : Nat) (ts : List Token) : aliasAt? ts (k + i) = aliasAt? (ts.drop k) i := by
  rw [aliasAt?, aliasAt?, Token.behindWord_drop, List.getElem?_drop]

theorem TableRef.read?_drop (k i : Nat) (ts : List Token) :
    TableRef.read? ts (k + i) = TableRef.read? (ts.drop k) i := by
  rw [TableRef.read?, TableRef.read?, QualifiedName.read?_drop]
  cases QualifiedName.read? (ts.drop k) i with
  | none => rfl
  | some n =>
    rw [Option.map_some]
    dsimp only
    rw [Token.opensAt_drop, aliasAt?_drop, List.getElem?_drop]

/-! ## Idle tokens -/

/-- The words that readers of a body look for on the left of what they read. -/
def soughtWords : List String := "SELECT" :: "DISTINCT" :: (tableKeywords ++ fromFunctions)

/-- A token that changes nothing where it stands in front of a body. -/
def Idle (t : Token) : Prop := t.isOneOf soughtWords = false

theorem Idle.isOneOf {t : Token} (h : Idle t) {keywords : List String} (hsub : keywords ⊆ soughtWords) :
    t.isOneOf keywords = false := by
  unfold Idle Token.isOneOf at h
  unfold Token.isOneOf
  split at h
  · next w _ =>
    rw [Bool.eq_false_iff, ne_eq, List.contains_iff_mem] at h ⊢
    exact fun hmem => h (hsub hmem)
  · rfl

theorem Idle.isWord {t : Token} (h : Idle t) {keyword : String} (hk : keyword ∈ soughtWords) :
    t.isWord keyword = false := by
  rw [← Token.isOneOf_singleton]
  exact h.isOneOf (by simpa using hk)

theorem idle_of_isWord {t : Token} {keyword : String} (h : t.isWord keyword = true) (hk : keyword ∉ soughtWords) :
    Idle t := by
  unfold Token.isWord at h
  split at h
  · next w hw =>
    rw [Idle, Token.isOneOf, hw]
    simpa [eq_of_beq h] using hk
  · cases h

theorem opensFromFunction_idle {ts : List Token} (h : ∀ t ∈ ts, Idle t) (depth : Nat) :
    opensFromFunction depth ts = false := by
  induction ts generalizing depth with
  | nil => rfl
  | cons t ts ih =>
    obtain ⟨-, hts⟩ := List.forall_mem_cons.mp h
    rw [opensFromFunction]
    split
    · exact ih hts _
    · split
      · cases ts with
        | nil => rfl
        | cons u ts => exact (hts u (List.mem_cons_self ..)).isOneOf (by decide)
      · exact ih hts _
    · exact ih hts _

theorem opensFromFunction_append {us : List Token} (h : ∀ t ∈ us, Idle t) (depth : Nat) (ts : List Token) :
    opensFromFunction depth (ts ++ us) = opensFromFunction depth ts := by
  induction ts generalizing depth with
  | nil => exact opensFromFunction_idle h depth
  | cons t ts ih =>
    have hhead : (ts ++ us).head?.any (·.isOneOf fromFunctions) = ts.head?.any (·.isOneOf fromFunctions) := by
      cases ts with
      | nil =>
        cases us with
        | nil => rfl
        | cons u us => exact (h u (List.mem_cons_self ..)).isOneOf (by decide)
      | cons u ts => rfl
    rw [List.cons_append, opensFromFunction, opensFromFunction]
    simp only [ih, hhead]

theorem clauseEnd_eq_getD (ts : List Token) (start : Nat) (d : Int) (ends : List String) :
    clauseEnd ts start d ends = ((((Token.placed ts).drop start).find? fun p =>
      p.depth < d || p.depth == d && p.token.isOneOf ends).map Token.Placed.index).getD ts.length := by
  unfold clauseEnd
  cases ((Token.placed ts).drop start).find? fun p => p.depth < d || p.depth == d && p.token.isOneOf ends <;> rfl

theorem clauseEnd_drop {ts : List Token} {k : Nat} (hk : k ≤ ts.length) (start : Nat) (d : Int) (ends : List String) :
    clauseEnd ts (k + start) (Token.depthBefore ts k + d) ends = k + clauseEnd (ts.drop k) start d ends := by
  have hlength : ts.length = k + (ts.drop k).length := by rw [List.length_drop, Nat.add_sub_cancel' hk]
  rw [clauseEnd_eq_getD, Token.index_find?_drop hk, hlength, Option.getD_map, clauseEnd_eq_getD]
  congr 5
  funext p
  simp only [Token.Placed.shift, Token.beq_add_left, Int.add_lt_add_iff_left]

section Idle
variable {ts : List Token} {k : Nat} (hk : k ≤ ts.length) (h : ∀ t ∈ ts.take k, Idle t)
include hk h

theorem select?_drop : select? ts = (select? (ts.drop k)).map (k + ·) := by
  have hnone : (ts.take k).findIdx? (·.isWord "SELECT") = none := by
    rw [List.findIdx?_eq_none_iff]
    exact fun t ht => (h t ht).isWord (by decide)
  have happend : (ts.take k ++ ts.drop k).findIdx? (·.isWord "SELECT") = _ := List.findIdx?_append
  rw [List.take_append_drop, hnone, Option.none_or, List.length_take_of_le hk] at happend
  rw [select?, happend, select?]
  exact congrArg (fun f => Option.map f _) (funext fun i => Nat.add_comm i k)

theorem isNonTableFrom_drop {i : Nat} (hi : i ≤ (ts.drop k).length) :
    isNonTableFrom ts (k + i) = isNonTableFrom (ts.drop k) i := by
  have hlength : k + i ≤ ts.length := by
    rw [List.length_drop] at hi
    omega
  have hidle : (ts.take k).getLast?.any (·.isWord "DISTINCT") = false := by
    cases hlast : (ts.take k).getLast? with
    | none => rfl
    | some t => exact (h t (List.mem_of_getLast? hlast)).isWord (by decide)
  have hbefore : (Token.before? ts (k + i)).any (·.isWord "DISTINCT") =
      (Token.before? (ts.drop k) i).any (·.isWord "DISTINCT") := by
    rw [Checked.before?_eq_getLast? hlength, Checked.before?_eq_getLast? hi, List.take_add, List.getLast?_append]
    cases ((ts.drop k).take i).getLast? with
    | none => exact hidle
    | some t => rfl
  rw [isNonTableFrom, isNonTableFrom, hbefore, List.take_add, List.reverse_append,
    opensFromFunction_append (by simpa using h)]

theorem mentionAt?_shift (d c : Int) {p : Token.Placed} (hp : p ∈ Token.placed (ts.drop k)) :
    mentionAt? ts (c + d) (p.shift k c) = mentionAt? (ts.drop k) d p := by
  have hindex := Nat.le_of_lt (Token.lt_length_of_mem_placed hp)
  simp only [mentionAt?, Token.Placed.shift, isNonTableFrom_drop hk h hindex, Nat.add_assoc, TableRef.read?_drop,
    Token.beq_add_left]

theorem keywordMentions_drop (d : Int) :
    keywordMentions ts (Token.depthBefore ts k + d) = keywordMentions (ts.drop k) d := by
  have hfront : ((Token.placed ts).take k).filterMap (mentionAt? ts (Token.depthBefore ts k + d)) = [] := by
    rw [List.filterMap_eq_nil_iff]
    intro p hp
    have hidle : Idle p.token := by
      have htoken := List.mem_map_of_mem (f := Token.Placed.token) hp
      rw [List.map_take, Token.map_token_placed] at htoken
      exact h _ htoken
    rw [mentionAt?, hidle.isOneOf (by decide)]
    rfl
  rw [keywordMentions, ← List.take_append_drop k (Token.placed ts), List.filterMap_append, hfront, List.nil_append,
    Token.placed_drop hk, List.filterMap_map]
  exact List.filterMap_congr fun p hp => mentionAt?_shift hk h d _ hp

theorem tableFrom?_drop {select : Nat} (hs : k + select < ts.length) :
    tableFrom? ts (k + select) = (tableFrom? (ts.drop k) select).map (k + ·) := by
  unfold tableFrom?
  rw [Nat.add_assoc, Token.index_find?_drop hk, Token.depthAt_drop hs]
  congr 2
  refine List.find?_congr fun p hp => ?_
  have hindex := Nat.le_of_lt (Token.lt_length_of_mem_placed (List.mem_of_mem_drop hp))
  simp only [Token.Placed.shift, isNonTableFrom_drop hk h hindex, Token.beq_add_left]

theorem fromGroups_drop {select : Nat} (hs : k + select < ts.length) :
    fromGroups ts (k + select) = fromGroups (ts.drop k) select := by
  unfold fromGroups
  rw [tableFrom?_drop hk h hs]
  cases tableFrom? (ts.drop k) select with
  | none => rfl
  | some i =>
    rw [Option.map_some]
    dsimp only
    rw [Token.depthAt_drop hs, Nat.add_assoc, clauseEnd_drop hk, Token.Span.of_drop]

theorem listMentions_drop {select : Nat} (hs : k + select < ts.length) :
    listMentions ts (k + select) = listMentions (ts.drop k) select := by
  rw [listMentions, listMentions, fromGroups_drop hk h hs]

end Idle

/-! ## Items and keys -/

section Parts
variable {ts : List Token} {k : Nat} (hk : k ≤ ts.length)
include hk

theorem behindGroup_drop (i : Nat) : behindGroup ts (k + i) = k + behindGroup (ts.drop k) i := by
  rw [behindGroup, behindGroup, Token.closing?_drop]
  cases Token.closing? (ts.drop k) i with
  | none => rw [List.length_drop]; exact (Nat.add_sub_cancel' hk).symm
  | some close => rfl

theorem behindQuantifier_drop (i : Nat) : behindQuantifier ts (k + i) = k + behindQuantifier (ts.drop k) i := by
  simp only [behindQuantifier, Nat.add_assoc, ← Token.wordAt_drop, ← Token.opensAt_drop, behindGroup_drop hk]
  split
  · split <;> rfl
  · split <;> rfl

theorem behindCount_drop (i : Nat) : behindCount ts (k + i) = k + behindCount (ts.drop k) i := by
  rw [behindCount, behindCount, List.getElem?_drop, behindGroup_drop hk]
  split <;> rfl

theorem behindTop_drop (i : Nat) : behindTop ts (k + i) = k + behindTop (ts.drop k) i := by
  simp only [behindTop, Nat.add_assoc, behindCount_drop hk, ← Token.wordAt_drop]
  split
  · split <;> rfl
  · rfl

omit hk in
theorem projectionEnd_add (k i : Nat) (d : Int) (us : List Token) :
    projectionEnd (k + i) d us = k + projectionEnd i d us := by
  induction us generalizing i d with
  | nil => rfl
  | cons t us ih =>
    rw [projectionEnd, projectionEnd]
    split
    · exact ih (i + 1) _
    · split
      · rfl
      · exact ih (i + 1) _
    · split
      · rfl
      · exact ih (i + 1) _

theorem projectionSpan_drop (select : Nat) : projectionSpan ts (k + select) =
    ⟨k + (projectionSpan (ts.drop k) select).start, k + (projectionSpan (ts.drop k) select).stop⟩ := by
  have hlength : ts.length = k + (ts.drop k).length := by rw [List.length_drop, Nat.add_sub_cancel' hk]
  have hstart : min (behindTop ts (behindQuantifier ts (k + select + 1))) ts.length =
      k + (projectionSpan (ts.drop k) select).start := by
    rw [Nat.add_assoc, behindQuantifier_drop hk, behindTop_drop hk, hlength, Nat.add_min_add_left]
    rfl
  rw [projectionSpan, hstart, projectionEnd_add, ← List.drop_drop]
  rfl

theorem groupBy?_drop {select : Nat} (hs : k + select < ts.length) :
    groupBy? ts (k + select) = (groupBy? (ts.drop k) select).map (k + ·) := by
  unfold groupBy?
  rw [Nat.add_assoc, Token.index_find?_drop hk, Token.depthAt_drop hs]
  simp only [Token.Placed.shift, Nat.add_assoc, ← Token.wordAt_drop, Token.beq_add_left]

theorem groupItems_drop {select : Nat} (hs : k + select < ts.length) :
    groupItems ts (k + select) = groupItems (ts.drop k) select := by
  unfold groupItems
  rw [groupBy?_drop hk hs]
  cases groupBy? (ts.drop k) select with
  | none => rfl
  | some i =>
    rw [Option.map_some]
    dsimp only
    rw [Token.depthAt_drop hs, Nat.add_assoc, clauseEnd_drop hk, Token.Span.of_drop]

theorem markKeys_drop {select : Nat} (hs : k + select < ts.length) (columns : List Column) :
    markKeys ts (k + select) columns = markKeys (ts.drop k) select columns := by
  rw [markKeys, markKeys, groupItems_drop hk hs]

end Parts

namespace Projection
variable {env : Environment} {scope : Scope}

/-- A projection whose aliases stand further on. -/
def moved (k : Nat) (p : Projection) : Projection := { p with aliases := p.aliases.map (k + ·) }

theorem addStarColumn_moved (k : Nat) (p : Projection) : (p.moved k).addStarColumn = p.addStarColumn.moved k := by
  rw [addStarColumn, addStarColumn, moved]
  dsimp only
  split <;> rfl

theorem addTable_moved (k : Nat) (p : Projection) (table : String) :
    (p.moved k).addTable env table = (p.addTable env table).moved k := by
  rw [addTable, addTable, addStarColumn_moved]
  split <;> rfl

theorem addStar_moved (k : Nat) (p : Projection) (qualifier : Option String) :
    (p.moved k).addStar env scope qualifier = (p.addStar env scope qualifier).moved k := by
  rw [addStar, addStar, addStarColumn_moved]
  split
  · rfl
  · exact List.foldl_hom (moved k) fun p table => addTable_moved k p table

theorem addExpr_moved (k : Nat) (p : Projection) (alias? : Option String) (body : List Token) :
    (p.moved k).addExpr env scope alias? body = (p.addExpr env scope alias? body).moved k := by
  rw [addExpr, addExpr]
  dsimp only
  split <;> rfl

theorem addItem_moved (k : Nat) (p : Projection) (last : Nat) (item : List Token) :
    (p.moved k).addItem env scope (k + last) item = (p.addItem env scope last item).moved k := by
  rw [addItem, addItem]
  split
  · exact addStar_moved k p _
  · dsimp only
    rw [← addExpr_moved]
    congr 1
    split
    · simp [moved]
    · rfl

theorem read_drop {ts : List Token} {k : Nat} (hk : k ≤ ts.length) (select : Nat) :
    read env scope ts (k + select) = (read env scope (ts.drop k) select).moved k := by
  rw [read, read, projectionSpan_drop hk]
  dsimp only
  rw [Token.Span.of_drop]
  generalize projectionSpan (ts.drop k) select = span
  have hlast : ∀ p : Projection, ∀ s ∈ Token.topLevelSpans (span.of (ts.drop k)),
      p.addItem env scope (k + span.start + s.stop - 1) (s.of (span.of (ts.drop k))) =
        p.addItem env scope (k + (span.start + s.stop - 1)) (s.of (span.of (ts.drop k))) := by
    intro p s hs
    have hpos := (Token.topLevelSpans_bounds s hs).1
    congr 1
    omega
  rw [List.foldl_ext _ _ _ hlast]
  show List.foldl _ (empty.moved k) _ = _
  exact List.foldl_hom (moved k) fun p s => addItem_moved k p _ _

end Projection

/-! ## Definitions -/

/-- The depth of the outermost `SELECT` decides which tables it reads, but not which are named. -/
theorem table_keywordMentions (ts : List Token) (d d' : Int) :
    (keywordMentions ts d).map Mention.table = (keywordMentions ts d').map Mention.table := by
  rw [keywordMentions, keywordMentions, List.map_filterMap, List.map_filterMap]
  refine List.filterMap_congr fun p _ => ?_
  unfold mentionAt?
  split
  · rfl
  · split
    · rfl
    · rw [Option.map_map, Option.map_map]
      rfl

theorem add_lt_of_select?_drop {ts : List Token} {k select : Nat} (hs : select? (ts.drop k) = some select) :
    k + select < ts.length := by
  have hlt := Checked.select?_lt hs
  rw [List.length_drop] at hlt
  omega

section Definition
variable {ts : List Token} {k : Nat} (hk : k ≤ ts.length) (h : ∀ t ∈ ts.take k, Idle t)
include hk h

theorem scopeOf_drop (env : Environment) {select : Nat} (hs : select? (ts.drop k) = some select) :
    scopeOf env ts = scopeOf env (ts.drop k) := by
  have hlt := add_lt_of_select?_drop hs
  have hfirst := select?_drop hk h
  rw [hs, Option.map_some] at hfirst
  rw [scopeOf, scopeOf, hfirst, hs]
  dsimp only
  rw [Token.depthAt_drop hlt, keywordMentions_drop hk h, listMentions_drop hk h hlt]

theorem referenced_scopeOf_drop (env : Environment) :
    (scopeOf env ts).referenced = (scopeOf env (ts.drop k)).referenced := by
  cases hs : select? (ts.drop k) with
  | some select => rw [scopeOf_drop hk h env hs]
  | none =>
    have hfirst := select?_drop hk h
    rw [hs, Option.map_none] at hfirst
    have htables : (keywordMentions ts 0).map Mention.table = (keywordMentions (ts.drop k) 0).map Mention.table := by
      rw [← keywordMentions_drop hk h]
      exact table_keywordMentions ts _ _
    have hnames := congrArg (List.map fun t => env.resolve t.text) htables
    rw [List.map_map, List.map_map] at hnames
    rw [scopeOf, scopeOf, hfirst, hs]
    dsimp only
    rw [Scope.referenced_ofMentions, Scope.referenced_ofMentions]
    exact congrArg (List.foldl appendNew []) hnames

/-- Idle tokens in front of a body do not change its definition. -/
theorem definition_read_drop (env : Environment) (name : String) (kind : Definition.Kind) :
    (read env ts name kind).definition = (read env (ts.drop k) name kind).definition := by
  have hfirst := select?_drop hk h
  rw [read, read, referenced_scopeOf_drop hk h]
  cases hs : select? (ts.drop k) with
  | none =>
    rw [hs, Option.map_none] at hfirst
    rw [hfirst]
  | some select =>
    have hlt := add_lt_of_select?_drop hs
    rw [hs, Option.map_some] at hfirst
    rw [hfirst]
    dsimp only
    rw [scopeOf_drop hk h env hs, Projection.read_drop hk, markKeys_drop hk hlt]
    rfl

end Definition

/-! ## Columns used -/

namespace ColumnRef
variable {scope : Scope}

/-- A reference that stands further on. -/
def moved (k : Nat) (r : ColumnRef) : ColumnRef := { r with start := k + r.start, stop := k + r.stop }

theorem ofName?_moved (k start : Nat) (t : Token) (n : QualifiedName) :
    ofName? scope (k + start) t ⟨n.parts, k + n.next⟩ = (ofName? scope start t n).map (moved k) := by
  rw [ofName?, ofName?]
  dsimp only
  split
  · split <;> rfl
  · rfl

theorem collectFrom_moved (k i : Nat) (previous : Option Token) (ts : List Token) :
    collectFrom scope (k + i) previous ts = (collectFrom scope i previous ts).map (moved k) := by
  fun_induction collectFrom scope i previous ts with
  | case1 i previous =>
    rw [collectFrom]
    rfl
  | case2 i previous t ts hprevious ih => rw [collectFrom, if_pos hprevious, Nat.add_assoc, ih]
  | case3 i previous t ts hprevious hnone ih =>
    rw [collectFrom, if_neg hprevious, QualifiedName.ofTokens?_add, hnone, Nat.add_assoc]
    exact ih
  | case4 i previous t ts hprevious n hsome further rest ih =>
    have hfurther : k + n.next - (k + i + 1) = further := by
      rw [Nat.add_assoc]
      exact Nat.add_sub_add_left k n.next (i + 1)
    rw [collectFrom, if_neg hprevious, QualifiedName.ofTokens?_add, hsome, Option.map_some]
    dsimp only
    rw [hfurther, ih, ofName?_moved, List.map_append]
    congr 1
    split
    · rfl
    · exact Option.toList_map ..

/-- Behind nothing that says so, the first name is a column just as it is where nothing precedes it. -/
theorem collectFrom_neutral {previous : Option Token} (h : Neutral previous) (i : Nat) (ts : List Token) :
    collectFrom scope i previous ts = collectFrom scope i none ts := by
  cases ts with
  | nil => rw [collectFrom, collectFrom]
  | cons t ts =>
    have hexcluded : ∀ next, isExcluded previous next = isExcluded none next := by
      intro next
      rw [isExcluded, isExcluded, h.2]
      rfl
    rw [collectFrom, collectFrom, h.1]
    simp only [hexcluded]
    rfl

theorem collect_cons {t : Token} (ht : t.identifier? = none) (h : Neutral (some t)) (ts : List Token) :
    collect scope (t :: ts) = (collect scope ts).map (moved 1) := by
  rw [collect, collectFrom_skip scope 0 ht, collectFrom_neutral h, Nat.add_comm]
  exact collectFrom_moved 1 0 none ts

end ColumnRef

theorem bodyUsage_cons {env : Environment} {scope : Scope} {t : Token} (ht : t.identifier? = none)
    (h : ColumnRef.Neutral (some t)) (ts : List Token) (aliases : List Nat) :
    bodyUsage env scope (t :: ts) (aliases.map (1 + ·)) = bodyUsage env scope ts aliases := by
  have haliases : ∀ r : ColumnRef, (aliases.map (1 + ·)).contains (r.moved 1).start = aliases.contains r.start := by
    intro r
    simp [ColumnRef.moved]
  rw [bodyUsage, bodyUsage, ColumnRef.collect_cons ht h, List.filter_map, List.flatMap_map]
  congr 1
  refine List.filter_congr fun r _ => ?_
  rw [Function.comp_apply, haliases]

/-! ## Parentheses in front -/

attribute [ext] Reading

/-- A parenthesis in front of a body changes nothing. -/
theorem read_cons {o : Token} (ho : o.kind = .leftParen) (hl : o.lexeme = "(") (env : Environment) (ts : List Token)
    (name : String) (kind : Definition.Kind) : read env (o :: ts) name kind = read env ts name kind := by
  have hidle : ∀ t ∈ (o :: ts).take 1, Idle t := by
    intro t ht
    obtain rfl := List.mem_singleton.mp ht
    exact Token.isOneOf_of_not_word (by simp [ho]) _
  have hlength : 1 ≤ (o :: ts).length := Nat.le_add_left 1 _
  have hidentifier : o.identifier? = none := by simp [Token.identifier?, ho]
  have hneutral : ColumnRef.Neutral (some o) := by
    refine ⟨by simp [ho], ?_⟩
    simp [Token.isWord, ho, hl]
  have hfirst := select?_drop hlength hidle
  have hscope := @scopeOf_drop _ _ hlength hidle env
  rw [List.drop_succ_cons, List.drop_zero] at hfirst hscope
  refine Reading.ext (definition_read_drop hlength hidle env name kind) ?observed ?notices
  case observed =>
    rw [read, read]
    cases hs : select? ts with
    | none =>
      rw [hs, Option.map_none] at hfirst
      rw [hfirst]
    | some select =>
      rw [hs, Option.map_some] at hfirst
      rw [hfirst, hscope hs]
      dsimp only
      rw [Projection.read_drop hlength]
      exact congrArg _ (bodyUsage_cons hidentifier hneutral ts _)
  case notices =>
    rw [read, read, hfirst]
    cases select? ts <;> rfl

end Select
end SqlLineage
