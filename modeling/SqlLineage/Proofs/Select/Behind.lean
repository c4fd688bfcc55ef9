import SqlLineage.Proofs.Select.InFront

/-! # A parenthesis behind a body

Behind balanced tokens a closing parenthesis is less deep than all of them. Whatever is read of a body has come to its
end there: the parenthesis ends a clause where the tokens end, and no name goes on with it.

* `Token.closing?_concat`, `Select.clauseEnd_concat`, `Select.projectionSpan_concat`: groups, clauses and items end
  where they end without it.
* `Select.read_concat`: a body gives the same in all. -/

namespace SqlLineage
set_option autoImplicit false

/-! ## One more token -/

namespace Token

/-- What is asked of the token at an index, if the answer for the last one is the answer for none. -/
theorem getElem?_concat_congr {α : Type} (f : Option Token → α) {c : Token} (hf : f (some c) = f none) (ts : List Token)
    (i : Nat) : f (ts ++ [c])[i]? = f ts[i]? := by
  rcases Nat.lt_trichotomy i ts.length with hi | rfl | hi
  · rw [List.getElem?_append_left hi]
  · simpa using hf
  · rw [List.getElem?_eq_none (by simpa using Nat.succ_le_of_lt hi), List.getElem?_eq_none (Nat.le_of_lt hi)]

theorem depthBefore_concat {ts : List Token} {i : Nat} (hi : i ≤ ts.length) (c : Token) :
    depthBefore (ts ++ [c]) i = depthBefore ts i := by
  rw [depthBefore, List.take_append_of_le_length hi, depthBefore]

theorem depthAt_concat {ts : List Token} {i : Nat} (hi : i < ts.length) (c : Token) :
    depthAt (ts ++ [c]) i = depthAt ts i := by
  have hget := List.getElem?_eq_getElem hi
  have hget' : (ts ++ [c])[i]? = some ts[i] := by rw [List.getElem?_append_left hi, hget]
  rw [depthAt_eq hget, depthAt_eq hget', depthBefore_concat (Nat.le_of_lt hi)]

theorem length_placed (ts : List Token) : (placed ts).length = ts.length := by
  have hlength := congrArg List.length (map_token_placed ts)
  rwa [List.length_map] at hlength

theorem placed_concat (ts : List Token) (c : Token) :
    placed (ts ++ [c]) = placed ts ++ [⟨c, depthAt (ts ++ [c]) ts.length, ts.length⟩] := by
  have hlast := getElem?_placed (ts ++ [c]) ts.length
  rw [placed_eq, placedFrom_append, ← placed_eq, List.getElem?_append_right (Nat.le_of_eq (length_placed ts)),
    length_placed, Nat.sub_self] at hlast
  have hc : (ts ++ [c])[ts.length]? = some c := by simp
  rw [hc] at hlast
  rw [placed_eq, placedFrom_append, ← placed_eq]
  exact congrArg (fun p => placed ts ++ [p]) (Option.some.inj hlast)

theorem find?_placed_concat {ts : List Token} {start : Nat} (hstart : start ≤ ts.length) {c : Token} {q : Placed → Bool}
    (hq : q ⟨c, depthAt (ts ++ [c]) ts.length, ts.length⟩ = false) :
    ((placed (ts ++ [c])).drop start).find? q = ((placed ts).drop start).find? q := by
  rw [placed_concat, List.drop_append_of_le_length (by rwa [length_placed]), List.find?_append,
    List.find?_singleton, hq]
  exact Option.or_none

theorem Span.of_concat {α : Type} {xs : List α} {s : Span} (h : s.stop ≤ xs.length) (x : α) :
    s.of (xs ++ [x]) = s.of xs := by
  rw [Span.of, Span.of]
  rcases Nat.le_total s.start xs.length with hs | hs
  · rw [List.drop_append_of_le_length hs, List.take_append_of_le_length (by rw [List.length_drop]; omega)]
  · rw [Nat.sub_eq_zero_of_le (Nat.le_trans h hs), List.take_zero, List.take_zero]

end Token

namespace QualifiedName

theorem furtherParts_concat {c : Token} (hc : c.identifier? = none) (ts : List Token) :
    furtherParts (ts ++ [c]) = furtherParts ts := by
  fun_induction furtherParts ts with
  | case1 d t ts hdot part hpart ih =>
    rw [List.cons_append, List.cons_append, furtherParts, if_pos hdot, hpart]
    dsimp only
    rw [ih]
  | case2 d t ts hdot hnone => rw [List.cons_append, List.cons_append, furtherParts, if_pos hdot, hnone]
  | case3 d t ts hdot => rw [List.cons_append, List.cons_append, furtherParts, if_neg hdot]
  | case4 ts hshort =>
    cases ts with
    | nil => rfl
    | cons d ts =>
      cases ts with
      | nil =>
        rw [List.singleton_append, furtherParts, hc]
        exact ite_self _
      | cons t ts => exact absurd rfl (hshort d t ts)

theorem ofTokens?_concat {c : Token} (hc : c.identifier? = none) (start : Nat) (ts : List Token) :
    ofTokens? start (ts ++ [c]) = ofTokens? start ts := by
  cases ts with
  | nil =>
    rw [List.nil_append, ofTokens?, ofTokens?, hc]
    rfl
  | cons t ts => rw [List.cons_append, ofTokens?, furtherParts_concat hc, ofTokens?]

theorem read?_concat {c : Token} (hc : c.identifier? = none) (ts : List Token) (start : Nat) :
    read? (ts ++ [c]) start = read? ts start := by
  rw [read?, read?]
  rcases Nat.le_total start ts.length with hs | hs
  · rw [List.drop_append_of_le_length hs, ofTokens?_concat hc]
  · rw [List.drop_append, List.drop_eq_nil_of_le hs, List.nil_append]
    cases start - ts.length with
    | zero => exact ofTokens?_concat hc start []
    | succ n => rw [List.drop_succ_cons, List.drop_nil]

end QualifiedName

/-! ## A closing parenthesis -/

section Closing
variable {c : Token} (hc : c.kind = .rightParen)
include hc

namespace Token

theorem identifier?_of_closing : c.identifier? = none := by
  rw [identifier?, hc]

theorem isWord_of_closing (keyword : String) : c.isWord keyword = false := by
  rw [isWord, hc]

theorem wordAt_concat (ts : List Token) (i : Nat) (keyword : String) :
    wordAt (ts ++ [c]) i keyword = wordAt ts i keyword :=
  getElem?_concat_congr (Option.any fun t : Token => t.isWord keyword) (isWord_of_closing hc keyword) ts i

theorem opensAt_concat (ts : List Token) (i : Nat) : opensAt (ts ++ [c]) i = opensAt ts i :=
  getElem?_concat_congr (Option.any fun t : Token => t.kind == .leftParen) (by simp [hc]) ts i

omit hc in
theorem closingFrom_append {i j : Nat} {d : Int} {us : List Token} (h : closingFrom i d us = some j) (vs : List Token) :
    closingFrom i d (us ++ vs) = some j := by
  induction us generalizing i d with
  | nil => cases h
  | cons t us ih =>
    rw [closingFrom] at h
    rw [List.cons_append, closingFrom]
    split at h
    · next hclose => rw [if_pos hclose, h]
    · next hclose =>
      rw [if_neg hclose]
      exact ih h

omit hc in
theorem closing?_concat {ts : List Token} {i j : Nat} (h : closing? ts i = some j) (c : Token) :
    closing? (ts ++ [c]) i = some j := by
  have hle : i ≤ ts.length := Nat.le_of_lt (Nat.lt_trans (closing?_bounds h).1 (closing?_bounds h).2)
  rw [closing?, List.drop_append_of_le_length hle]
  exact closingFrom_append h [c]

end Token

namespace Select

theorem freeName?_of_closing : freeName? c = none := by
  rw [freeName?, Token.identifier?_of_closing hc]
  rfl

theorem TableRef.read?_concat (ts : List Token) (start : Nat) :
    TableRef.read? (ts ++ [c]) start = TableRef.read? ts start := by
  have hfree : ∀ i, (ts ++ [c])[i]?.bind freeName? = ts[i]?.bind freeName? :=
    Token.getElem?_concat_congr (fun t? : Option Token => t?.bind freeName?) (freeName?_of_closing hc) ts
  simp only [TableRef.read?, QualifiedName.read?_concat (Token.identifier?_of_closing hc), Token.opensAt_concat hc,
    aliasAt?, Token.behindWord, Token.wordAt_concat hc, hfree]

omit hc in
theorem isNonTableFrom_concat {ts : List Token} {i : Nat} (hi : i ≤ ts.length) (c : Token) :
    isNonTableFrom (ts ++ [c]) i = isNonTableFrom ts i := by
  have hlength : i ≤ (ts ++ [c]).length := by
    rw [List.length_append]
    exact Nat.le_add_right_of_le hi
  rw [isNonTableFrom, isNonTableFrom, Checked.before?_eq_getLast? hlength, Checked.before?_eq_getLast? hi,
    List.take_append_of_le_length hi]

theorem keywordMentions_concat (ts : List Token) (d : Int) :
    keywordMentions (ts ++ [c]) d = keywordMentions ts d := by
  have hlast : mentionAt? (ts ++ [c]) d ⟨c, Token.depthAt (ts ++ [c]) ts.length, ts.length⟩ = none := by
    rw [mentionAt?, Token.isOneOf_of_not_word (by simp [hc])]
    rfl
  rw [keywordMentions, Token.placed_concat, List.filterMap_append, List.filterMap_cons_none hlast, List.filterMap_nil,
    List.append_nil]
  refine List.filterMap_congr fun p hp => ?_
  have hindex := Nat.le_of_lt (Token.lt_length_of_mem_placed hp)
  rw [mentionAt?, mentionAt?, isNonTableFrom_concat hindex, TableRef.read?_concat hc]

theorem select?_concat (ts : List Token) : select? (ts ++ [c]) = select? ts := by
  rw [select?, List.findIdx?_append, List.findIdx?_singleton, Token.isWord_of_closing hc]
  exact Option.or_none

theorem tableFrom?_concat {ts : List Token} {select : Nat} (hs : select < ts.length) :
    tableFrom? (ts ++ [c]) select = tableFrom? ts select := by
  have hstart : select + 1 ≤ ts.length := hs
  unfold tableFrom?
  dsimp only
  rw [Token.depthAt_concat hs, Token.find?_placed_concat hstart (by simp [Token.isWord_of_closing hc])]
  refine congrArg _ (List.find?_congr fun p hp => ?_)
  have hindex := Nat.le_of_lt (Token.lt_length_of_mem_placed (List.mem_of_mem_drop hp))
  rw [isNonTableFrom_concat hindex]

theorem groupBy?_concat {ts : List Token} {select : Nat} (hs : select < ts.length) :
    groupBy? (ts ++ [c]) select = groupBy? ts select := by
  have hstart : select + 1 ≤ ts.length := hs
  unfold groupBy?
  dsimp only
  rw [Token.depthAt_concat hs, Token.find?_placed_concat hstart (by simp [Token.isWord_of_closing hc])]
  simp only [Token.wordAt_concat hc]

/-! ## Behind balanced tokens -/

section Balanced
variable {ts : List Token} (h : Token.Balanced ts)
include h

theorem depthAt_closing : Token.depthAt (ts ++ [c]) ts.length = -1 := by
  have hget : (ts ++ [c])[ts.length]? = some c := by simp
  have hend : Token.depthBefore ts ts.length = 0 := by rw [Token.depthBefore, List.take_length, h.closed]
  rw [Token.depthAt_eq hget, if_pos hc, Token.depthBefore_concat (Nat.le_refl _), hend]
  rfl

theorem clauseEnd_concat {start : Nat} (hstart : start ≤ ts.length) {d : Int} (hd : 0 ≤ d) (ends : List String) :
    clauseEnd (ts ++ [c]) start d ends = clauseEnd ts start d ends := by
  have hbelow : (-1 : Int) < d := by omega
  rw [clauseEnd_eq_getD, clauseEnd_eq_getD, Token.placed_concat, depthAt_closing hc h,
    List.drop_append_of_le_length (by rwa [Token.length_placed]), List.find?_append]
  cases ((Token.placed ts).drop start).find? fun p => p.depth < d || p.depth == d && p.token.isOneOf ends with
  | none => simp [hbelow]
  | some p => rfl

theorem fromGroups_concat {select : Nat} (hs : select < ts.length) :
    fromGroups (ts ++ [c]) select = fromGroups ts select := by
  unfold fromGroups
  rw [tableFrom?_concat hc hs]
  cases hfrom : tableFrom? ts select with
  | none => rfl
  | some i =>
    have hi : i + 1 ≤ ts.length := by
      obtain ⟨-, ⟨t, ht, -⟩, -⟩ := Token.index_find?_placed.mp hfrom
      exact (List.getElem?_eq_some_iff.mp ht).1
    dsimp only
    rw [Token.depthAt_concat hs, clauseEnd_concat hc h hi (h.depthAt_nonneg hs),
      Token.Span.of_concat (Checked.clauseEnd_bounds hi _ _).2]

theorem groupItems_concat {select : Nat} (hs : select < ts.length) :
    groupItems (ts ++ [c]) select = groupItems ts select := by
  unfold groupItems
  rw [groupBy?_concat hc hs]
  cases hgroup : groupBy? ts select with
  | none => rfl
  | some i =>
    have hi : i + 2 ≤ ts.length := by
      obtain ⟨-, ⟨t, -, hq⟩, -⟩ := Token.index_find?_placed.mp hgroup
      exact Token.wordAt_lt (Bool.and_eq_true_iff.mp hq).2
    dsimp only
    rw [Token.depthAt_concat hs, clauseEnd_concat hc h hi (h.depthAt_nonneg hs),
      Token.Span.of_concat (Checked.clauseEnd_bounds hi _ _).2]

/-! ### The items -/

omit hc in
theorem behindGroup_concat {i : Nat} (hi : Token.opensAt ts i = true) (c : Token) :
    behindGroup (ts ++ [c]) i = behindGroup ts i := by
  obtain ⟨j, hj⟩ := h.exists_closing? hi
  rw [behindGroup, behindGroup, hj, Token.closing?_concat hj]

theorem behindQuantifier_concat (i : Nat) : behindQuantifier (ts ++ [c]) i = behindQuantifier ts i := by
  simp only [behindQuantifier, Token.wordAt_concat hc, Token.opensAt_concat hc]
  split
  · split
    · next hon => exact behindGroup_concat h (Bool.and_eq_true_iff.mp hon).2 c
    · rfl
  · rfl

theorem behindCount_concat (i : Nat) : behindCount (ts ++ [c]) i = behindCount ts i := by
  rcases Nat.lt_trichotomy i ts.length with hi | rfl | hi
  · have hget : (ts ++ [c])[i]? = some ts[i] := by rw [List.getElem?_append_left hi, List.getElem?_eq_getElem hi]
    rw [behindCount, behindCount, hget, List.getElem?_eq_getElem hi, Option.map_some]
    cases hkind : ts[i].kind with
    | leftParen =>
      have hopens : Token.opensAt ts i = true := by simp [Token.opensAt, hi, hkind]
      exact behindGroup_concat h hopens c
    | _ => rfl
  · simp [behindCount, hc]
  · have hnone : (ts ++ [c])[i]? = none := List.getElem?_eq_none (by simpa using Nat.succ_le_of_lt hi)
    rw [behindCount, behindCount, hnone, List.getElem?_eq_none (Nat.le_of_lt hi)]
    rfl

theorem behindTop_concat (i : Nat) : behindTop (ts ++ [c]) i = behindTop ts i := by
  simp only [behindTop, Token.wordAt_concat hc, behindCount_concat hc h]

omit hc h in
theorem behindGroup_le (i : Nat) : behindGroup ts i ≤ ts.length := by
  unfold behindGroup
  split
  · next hj => exact (Token.closing?_bounds hj).2
  · exact Nat.le_refl _

omit hc h in
theorem behindQuantifier_le {i : Nat} (hi : i ≤ ts.length) : behindQuantifier ts i ≤ ts.length := by
  unfold behindQuantifier
  split
  · next hword =>
    split
    · exact behindGroup_le _
    · exact Token.wordAt_lt hword
  · split
    · next hword => exact Token.wordAt_lt hword
    · exact hi

omit hc h in
theorem behindCount_le {i : Nat} (hi : i ≤ ts.length) : behindCount ts i ≤ ts.length := by
  unfold behindCount
  split
  · exact behindGroup_le _
  · next hnumber =>
    obtain ⟨t, ht, -⟩ := Option.map_eq_some_iff.mp hnumber
    exact (List.getElem?_eq_some_iff.mp ht).1
  · exact hi

omit hc h in
theorem behindTop_le {i : Nat} (hi : i ≤ ts.length) : behindTop ts i ≤ ts.length := by
  unfold behindTop
  split
  · next hword =>
    dsimp only
    split
    · next hpercent => exact Token.wordAt_lt hpercent
    · exact behindCount_le (Token.wordAt_lt hword)
  · exact hi

omit h in
theorem projectionEnd_concat {d : Int} {us : List Token} (hus : Token.depthBehind d us ≤ 0) (i : Nat) :
    projectionEnd i d (us ++ [c]) = projectionEnd i d us := by
  induction us generalizing i d with
  | nil =>
    have hd : d ≤ 0 := hus
    show projectionEnd i d [c] = i
    rw [projectionEnd, hc]
    exact if_pos (by omega)
  | cons t us ih =>
    rw [Token.depthBehind_cons] at hus
    rw [List.cons_append, projectionEnd, projectionEnd]
    cases hk : t.kind <;> simp only [Token.depthChange, hk] at hus ⊢
    case leftParen => exact ih hus (i + 1)
    case rightParen =>
      rw [← Int.sub_eq_add_neg] at hus
      rw [ih hus (i + 1)]
    all_goals
      rw [Int.add_zero] at hus
      rw [ih hus (i + 1)]

theorem projectionSpan_concat {select : Nat} (hs : select < ts.length) :
    projectionSpan (ts ++ [c]) select = projectionSpan ts select := by
  have hstart := behindTop_le (behindQuantifier_le (Nat.succ_le_of_lt hs))
  rw [projectionSpan, projectionSpan, behindQuantifier_concat hc h, behindTop_concat hc h, List.length_append,
    Nat.min_eq_left hstart, Nat.min_eq_left (Nat.le_add_right_of_le hstart), List.drop_append_of_le_length hstart,
    projectionEnd_concat hc (h.depthBehind_drop _)]

theorem Projection.read_concat (env : Environment) (scope : Scope) {select : Nat} (hs : select < ts.length) :
    read env scope (ts ++ [c]) select = read env scope ts select := by
  rw [read, read, projectionSpan_concat hc h hs, Token.Span.of_concat (Checked.projectionSpan_bounds ts select).2]

end Balanced

/-! ## Columns used -/

theorem ColumnRef.collectFrom_concat (scope : Scope) (i : Nat) (previous : Option Token) (ts : List Token) :
    collectFrom scope i previous (ts ++ [c]) = collectFrom scope i previous ts := by
  have hidentifier := Token.identifier?_of_closing hc
  have hname : ∀ (i : Nat) (t : Token) (ts : List Token),
      QualifiedName.ofTokens? i (t :: (ts ++ [c])) = QualifiedName.ofTokens? i (t :: ts) :=
    fun i t ts => QualifiedName.ofTokens?_concat hidentifier i (t :: ts)
  fun_induction collectFrom scope i previous ts with
  | case1 i previous =>
    rw [List.nil_append, collectFrom_skip scope i hidentifier, collectFrom]
  | case2 i previous t ts hprevious ih => rw [List.cons_append, collectFrom, if_pos hprevious, ih]
  | case3 i previous t ts hprevious hnone ih =>
    rw [List.cons_append, collectFrom, if_neg hprevious, hname, hnone]
    exact ih
  | case4 i previous t ts hprevious n hsome further rest ih =>
    have hle : n.next - (i + 1) ≤ ts.length := by
      obtain ⟨part, -, rfl⟩ := Option.map_eq_some_iff.mp hsome
      rw [Nat.add_sub_cancel_left]
      exact QualifiedName.furtherParts_length_le ts
    have hnext : isExcluded previous (rest ++ [c]).head? = isExcluded previous rest.head? := by
      rw [List.head?_append]
      cases rest.head? with
      | none => simp [isExcluded, hc]
      | some u => rfl
    rw [List.cons_append, collectFrom, if_neg hprevious, hname, hsome]
    dsimp only
    rw [List.drop_append_of_le_length hle, List.take_append_of_le_length hle, hnext, ih]

theorem bodyUsage_concat (env : Environment) (scope : Scope) (ts : List Token) (aliases : List Nat) :
    bodyUsage env scope (ts ++ [c]) aliases = bodyUsage env scope ts aliases := by
  rw [bodyUsage, bodyUsage, ColumnRef.collect, ColumnRef.collectFrom_concat hc, ColumnRef.collect]

/-! ## Bodies -/

section Body
variable {ts : List Token} (h : Token.Balanced ts) (env : Environment)
include h

theorem scopeOf_concat : scopeOf env (ts ++ [c]) = scopeOf env ts := by
  rw [scopeOf, scopeOf, select?_concat hc]
  cases hs : select? ts with
  | none =>
    dsimp only
    rw [keywordMentions_concat hc]
  | some select =>
    have hlt := Checked.select?_lt hs
    dsimp only
    rw [Token.depthAt_concat hlt, keywordMentions_concat hc, listMentions, fromGroups_concat hc h hlt, listMentions]

/-- A closing parenthesis behind balanced tokens changes nothing. -/
theorem read_concat (name : String) (kind : Definition.Kind) :
    read env (ts ++ [c]) name kind = read env ts name kind := by
  rw [read, read, select?_concat hc, scopeOf_concat hc h]
  cases hs : select? ts with
  | none => rfl
  | some select =>
    have hlt := Checked.select?_lt hs
    dsimp only
    rw [Projection.read_concat hc h env _ hlt, bodyUsage_concat hc, markKeys, groupItems_concat hc h hlt, markKeys]

end Body
end Select
end Closing
end SqlLineage
