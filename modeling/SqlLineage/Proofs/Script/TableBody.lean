import Mathlib.Order.Bounds.Basic
import Mathlib.Order.Nat
import SqlLineage.Proofs.Script.Parentheses
import SqlLineage.Proofs.Select.ItemsEnd

/-! # The body of a table

What stands behind the name of a table is cut in one of three ways, or it is nothing. The cut depends on the first `AS`
that a query follows, on the parenthesis that opens first, and on the one that closes it; no other `AS` matters.

* `TableBody.QueryAs`: an `AS` with a query behind it, and `TableBody.OutsideBlock`: where it wins over the block.
* `TableBody.BlockAt`: the block at a parenthesis, as the parts of the tokens.
* `TableBody.Cut.Fits`: which cut it is. There is exactly one, and `TableBody.ofTokens_eq_body` says that it is made.
* `Statement.createTable_parts`: the body of every statement that is a `CREATE TABLE`. -/

namespace SqlLineage
open SqlLineage.Token
set_option autoImplicit false

/-! ## One pair of parentheses -/

namespace Token

/-- The second tokens are the first ones without the pair of parentheses that encloses all of them, if one does. -/
inductive Unwraps : List Token → List Token → Prop where
  | pair {g : Group} (hg : g.Matched) : Unwraps g.tokens g.inner
  | bare {ts : List Token} (h : ∀ g : Group, g.Matched → ts ≠ g.tokens) : Unwraps ts ts

theorem unwraps_unwrapped (ts : List Token) : Unwraps ts (unwrapped ts) := by
  cases ts with
  | nil => exact .bare fun g _ => by simp [Group.tokens]
  | cons t rest =>
    rw [unwrapped]
    split
    · next h =>
      have hopens : opensAt (t :: rest) 0 = true := by simp [opensAt, h.1]
      obtain ⟨pre, g, behind, hts, hg, hpre, hlength⟩ := (closing?_eq_some_iff hopens).mp h.2
      obtain rfl := List.eq_nil_of_length_eq_zero hpre
      -- the group is as long as all of the tokens
      have hbehind : behind = [] := by
        have hall := congrArg List.length hts
        simp only [List.nil_append, List.length_cons, List.length_append, Group.length_tokens,
          List.length_nil] at hall hlength
        exact List.eq_nil_of_length_eq_zero (by omega)
      subst hbehind
      rw [List.nil_append, List.append_nil] at hts
      have hrest : rest = g.inner ++ [g.closing] := (List.cons.inj hts).2
      rw [hts, hrest, List.dropLast_concat]
      exact .pair hg
    · next h =>
      refine .bare fun g hg hts => h ?_
      obtain ⟨rfl, rfl⟩ := List.cons.inj hts
      refine ⟨hg.opening, ?_⟩
      have hclose := hg.closing? [] []
      rw [List.append_nil] at hclose
      rw [List.length_append, List.length_singleton, Nat.add_comm]
      exact hclose

theorem unwraps_iff {ts us : List Token} : Unwraps ts us ↔ unwrapped ts = us := by
  constructor
  · intro h
    cases h with
    | pair hg => exact unwrapped_wrap hg.inner hg.opening hg.closing
    | bare h =>
      generalize hus : unwrapped ts = us
      have hunwraps := unwraps_unwrapped ts
      rw [hus] at hunwraps
      cases hunwraps with
      | pair hg => exact absurd rfl (h _ hg)
      | bare => rfl
  · rintro rfl
    exact unwraps_unwrapped ts

end Token

namespace TableBody

/-! ## Where a query begins -/

/-- An `AS` outside parentheses that `SELECT` or `WITH` follows, maybe behind opening parentheses. -/
structure QueryAs (ts : List Token) (i : Nat) : Prop where
  word : wordAt ts i "AS" = true
  outside : depthBefore ts i = 0
  query : ∃ j, i < j ∧ (∀ k, i < k → k < j → opensAt ts k = true) ∧
    ts[j]?.any (·.isOneOf ["SELECT", "WITH"]) = true

theorem startsQuery_iff {us : List Token} :
    startsQuery us = true ↔
      ∃ j, (∀ k < j, opensAt us k = true) ∧ us[j]?.any (·.isOneOf ["SELECT", "WITH"]) = true := by
  induction us with
  | nil => simp [startsQuery]
  | cons t us ih =>
    by_cases hk : t.kind = .leftParen
    · have hskip : startsQuery (t :: us) = startsQuery us := by
        rw [startsQuery, List.find?_cons_of_neg (by simp [hk]), ← startsQuery]
      rw [hskip, ih]
      constructor
      · rintro ⟨j, hopen, hj⟩
        refine ⟨j + 1, fun k hkj => ?_, hj⟩
        cases k with
        | zero => simp [opensAt, hk]
        | succ k => exact hopen k (Nat.lt_of_succ_lt_succ hkj)
      · rintro ⟨j, hopen, hj⟩
        cases j with
        | zero => simp [isOneOf, hk] at hj
        | succ j => exact ⟨j, fun k hkj => hopen (k + 1) (Nat.succ_lt_succ hkj), hj⟩
    · have hfirst : startsQuery (t :: us) = t.isOneOf ["SELECT", "WITH"] := by
        rw [startsQuery, List.find?_cons_of_pos (by simp [hk])]
        rfl
      rw [hfirst]
      constructor
      · intro ht
        exact ⟨0, fun k hk0 => absurd hk0 (Nat.not_lt_zero k), ht⟩
      · rintro ⟨j, hopen, hj⟩
        cases j with
        | zero => exact hj
        | succ j =>
          have hzero := hopen 0 (Nat.succ_pos j)
          exact absurd (by simpa [opensAt] using hzero) hk

theorem startsQuery_drop_iff {ts : List Token} {i : Nat} :
    startsQuery (ts.drop (i + 1)) = true ↔
      ∃ j, i < j ∧ (∀ k, i < k → k < j → opensAt ts k = true) ∧
        ts[j]?.any (·.isOneOf ["SELECT", "WITH"]) = true := by
  have hopens : ∀ k, opensAt (ts.drop (i + 1)) k = opensAt ts (i + 1 + k) := by
    intro k
    rw [opensAt, List.getElem?_drop, opensAt]
  rw [startsQuery_iff]
  constructor
  · rintro ⟨j, hopen, hj⟩
    refine ⟨i + 1 + j, by omega, fun k hik hkj => ?_, by rwa [List.getElem?_drop] at hj⟩
    have hk := hopen (k - (i + 1)) (by omega)
    rwa [hopens, Nat.add_sub_cancel' hik] at hk
  · rintro ⟨j, hij, hopen, hj⟩
    refine ⟨j - (i + 1), fun k hkj => ?_, ?_⟩
    · rw [hopens]
      exact hopen _ (by omega) (by omega)
    · rwa [List.getElem?_drop, Nat.add_sub_cancel' hij]

theorem queryAs_iff {ts : List Token} {i : Nat} {t : Token} (ht : ts[i]? = some t) :
    QueryAs ts i ↔ (depthAt ts i == 0 && t.isWord "AS" && startsQuery (ts.drop (i + 1))) = true := by
  have hword : wordAt ts i "AS" = t.isWord "AS" := by rw [wordAt, ht]; rfl
  rw [Bool.and_eq_true, Bool.and_eq_true, beq_iff_eq, startsQuery_drop_iff]
  constructor
  · rintro ⟨has, hdepth, hquery⟩
    rw [hword] at has
    rw [(depthAt_of_not_paren ht (isParen_of_isWord has)).1]
    exact ⟨⟨hdepth, has⟩, hquery⟩
  · rintro ⟨⟨hdepth, has⟩, hquery⟩
    rw [(depthAt_of_not_paren ht (isParen_of_isWord has)).1] at hdepth
    exact ⟨hword.trans has, hdepth, hquery⟩

theorem exists_of_queryAs {ts : List Token} {i : Nat} (h : QueryAs ts i) : ∃ t, ts[i]? = some t := by
  obtain ⟨t, ht, -⟩ := (Option.any_eq_true _ _).mp h.word
  exact ⟨t, ht⟩

/-- The `AS` that is found is the first one with a query behind it. -/
theorem asQuery?_eq_some_iff {ts : List Token} {i : Nat} :
    asQuery? ts = some i ↔ IsLeast {i | QueryAs ts i} i := by
  have hfind := @index_find?_placed ts
    (fun p => p.depth == 0 && p.token.isWord "AS" && startsQuery (ts.drop (p.index + 1))) 0 i
  rw [List.drop_zero] at hfind
  rw [asQuery?, hfind]
  constructor
  · rintro ⟨-, ⟨t, ht, hq⟩, hbefore⟩
    refine ⟨(queryAs_iff ht).mpr hq, fun k hk => Nat.le_of_not_lt fun hki => ?_⟩
    obtain ⟨u, hu⟩ := exists_of_queryAs hk
    have hno := hbefore k u (Nat.zero_le k) hki hu
    rw [(queryAs_iff hu).mp hk] at hno
    cases hno
  · rintro ⟨hi, hleast⟩
    obtain ⟨t, ht⟩ := exists_of_queryAs hi
    refine ⟨Nat.zero_le i, ⟨t, ht, (queryAs_iff ht).mp hi⟩, fun k u _ hki hu => ?_⟩
    exact Bool.eq_false_iff.mpr fun hq => Nat.not_le_of_lt hki (hleast ((queryAs_iff hu).mpr hq))

/-! ## Where the block stands -/

theorem firstOpening_eq_some_iff {ts : List Token} {p : Nat} :
    ts.findIdx? (·.kind == .leftParen) = some p ↔ IsLeast {i | opensAt ts i = true} p := by
  have hopens : ∀ i (hi : i < ts.length), opensAt ts i = (ts[i].kind == .leftParen) := by
    intro i hi
    rw [opensAt, List.getElem?_eq_getElem hi]
    rfl
  rw [List.findIdx?_eq_some_iff_getElem]
  constructor
  · rintro ⟨hlt, hp, hbefore⟩
    refine ⟨(hopens p hlt).trans hp, fun i hi => Nat.le_of_not_lt fun hip => hbefore i hip ?_⟩
    rw [← hopens]
    exact hi
  · rintro ⟨hp, hleast⟩
    obtain ⟨t, ht, -⟩ := exists_of_opensAt hp
    have hlt := (List.getElem?_eq_some_iff.mp ht).1
    refine ⟨hlt, (hopens p hlt).symm.trans hp, fun i hip hi => Nat.not_le_of_lt hip (hleast ?_)⟩
    exact (hopens i (Nat.lt_trans hip hlt)).trans hi

theorem firstOpening_eq_none_iff {ts : List Token} :
    ts.findIdx? (·.kind == .leftParen) = none ↔ ∀ p, opensAt ts p = false := by
  rw [List.findIdx?_eq_none_iff]
  constructor
  · intro h p
    refine Bool.eq_false_iff.mpr fun hp => ?_
    obtain ⟨t, ht, hk⟩ := exists_of_opensAt hp
    simpa [hk] using h t (List.mem_of_getElem? ht)
  · intro h t ht
    obtain ⟨p, hp⟩ := List.mem_iff_getElem?.mp ht
    have hno := h p
    rwa [opensAt, hp] at hno

/-- The index `a` does not stand between the parenthesis that opens first and the one that closes it. Behind a
parenthesis that is never closed, nothing stands outside. -/
inductive OutsideBlock (ts : List Token) (a : Nat) : Prop where
  | noBlock (h : ∀ p, opensAt ts p = false)
  | inFront {p : Nat} (hp : IsLeast {i | opensAt ts i = true} p) (ha : a < p)
  | behind {p c : Nat} (hp : IsLeast {i | opensAt ts i = true} p) (hc : Encloses ts p c) (ha : c < a)

/-- The block that opens at `p`, with what stands in front of it and behind it. -/
inductive BlockAt (ts : List Token) (p : Nat) : ColumnBlock → Prop where
  | closed {before after : List Token} {g : Group} (hts : ts = before ++ (g.tokens ++ after)) (hp : before.length = p)
      (hg : g.Matched) : BlockAt ts p ⟨g.inner, before, after, true⟩
  | unclosed {before definitions : List Token} {o : Token} (hts : ts = before ++ o :: definitions)
      (hp : before.length = p) (ho : o.kind = .leftParen) (hnot : ∀ c, ¬ Encloses ts p c) :
      BlockAt ts p ⟨definitions, before, [], false⟩

theorem closedBlock_eq (before after : List Token) (g : Group) :
    closedBlock (before ++ (g.tokens ++ after)) before.length (before.length + 1 + g.inner.length) =
      ⟨g.inner, before, after, true⟩ := by
  rw [closedBlock, g.span_of_inner, List.take_left, g.drop_tokens]

theorem openBlock_eq (before definitions : List Token) (o : Token) :
    openBlock (before ++ o :: definitions) before.length = ⟨definitions, before, [], false⟩ := by
  rw [openBlock, List.take_left, ← List.drop_drop, List.drop_left]
  rfl

theorem blockAt_closedBlock_iff {ts : List Token} {p c : Nat} (h : Encloses ts p c) {b : ColumnBlock} :
    BlockAt ts p b ↔ closedBlock ts p c = b := by
  have hclose := (closing?_eq_some_iff h.opensAt).mpr h
  constructor
  · rintro (⟨rfl, rfl, hg⟩ | ⟨-, -, -, hnot⟩)
    · rw [hg.closing?] at hclose
      rw [← Option.some.inj hclose, closedBlock_eq]
    · exact absurd h (hnot c)
  · rintro rfl
    obtain ⟨before, g, after, rfl, hg, rfl, rfl⟩ := h
    rw [closedBlock_eq]
    exact .closed rfl rfl hg

theorem blockAt_openBlock_iff {ts : List Token} {p : Nat} (hp : opensAt ts p = true) (h : ∀ c, ¬ Encloses ts p c)
    {b : ColumnBlock} : BlockAt ts p b ↔ openBlock ts p = b := by
  constructor
  · rintro (⟨rfl, rfl, hg⟩ | ⟨rfl, rfl, -, -⟩)
    · exact absurd ⟨_, _, _, rfl, hg, rfl, rfl⟩ (h _)
    · exact openBlock_eq ..
  · rintro rfl
    obtain ⟨o, ho, hk⟩ := exists_of_opensAt hp
    obtain ⟨hlt, hget⟩ := List.getElem?_eq_some_iff.mp ho
    refine .unclosed (o := o) ?_ (List.length_take_of_le (Nat.le_of_lt hlt)) hk h
    rw [← hget, ← List.drop_eq_getElem_cons hlt, List.take_append_drop]

/-! ## The cut -/

/-- The `AS` whose query is the body. -/
def QueryCut (ts : List Token) (a : Nat) : Prop :=
  IsLeast {i | QueryAs ts i} a ∧ OutsideBlock ts a

/-- Where tokens are cut: at an `AS`, at the parentheses of a block, or nowhere. -/
inductive Cut where
  | query (as : Nat)
  | closed (start close : Nat)
  | unclosed (start : Nat)
  | empty

namespace Cut

def body (ts : List Token) : Cut → TableBody
  | .query a => queryAt ts a
  | .closed p c => .columns (closedBlock ts p c)
  | .unclosed p => .columns (openBlock ts p)
  | .empty => .empty

/-- The cut is the one that the tokens ask for. -/
inductive Fits (ts : List Token) : Cut → Prop where
  | query {a : Nat} (h : QueryCut ts a) : Fits ts (.query a)
  | closed {p c : Nat} (hno : ∀ a, ¬ QueryCut ts a) (hp : IsLeast {i | opensAt ts i = true} p)
      (hc : Encloses ts p c) : Fits ts (.closed p c)
  | unclosed {p : Nat} (hno : ∀ a, ¬ QueryCut ts a) (hp : IsLeast {i | opensAt ts i = true} p)
      (hc : ∀ c, ¬ Encloses ts p c) : Fits ts (.unclosed p)
  | empty (hno : ∀ a, ¬ QueryCut ts a) (hp : ∀ p, opensAt ts p = false) : Fits ts .empty

end Cut

theorem exists_fits (ts : List Token) : ∃ cut : Cut, cut.Fits ts := by
  by_cases hquery : ∃ a, QueryCut ts a
  · obtain ⟨a, ha⟩ := hquery
    exact ⟨_, .query ha⟩
  · have hno : ∀ a, ¬ QueryCut ts a := not_exists.mp hquery
    cases hopen : ts.findIdx? (·.kind == .leftParen) with
    | none => exact ⟨_, .empty hno (firstOpening_eq_none_iff.mp hopen)⟩
    | some p =>
      have hp := firstOpening_eq_some_iff.mp hopen
      by_cases hclose : ∃ c, Encloses ts p c
      · obtain ⟨c, hc⟩ := hclose
        exact ⟨_, .closed hno hp hc⟩
      · exact ⟨_, .unclosed hno hp (not_exists.mp hclose)⟩

theorem ofTokens_of_queryCut {ts : List Token} {a : Nat} (h : QueryCut ts a) : ofTokens ts = queryAt ts a := by
  have has := asQuery?_eq_some_iff.mpr h.1
  rw [ofTokens, has]
  cases h.2 with
  | noBlock hnone => rw [firstOpening_eq_none_iff.mpr hnone]
  | @inFront p hp ha =>
    rw [firstOpening_eq_some_iff.mpr hp]
    dsimp only
    cases closing? ts p with
    | none => exact if_pos ha
    | some c => exact if_pos (.inl ha)
  | behind hp hc ha =>
    rw [firstOpening_eq_some_iff.mpr hp]
    dsimp only
    rw [(closing?_eq_some_iff hc.opensAt).mpr hc]
    exact if_pos (.inr ha)

theorem ofTokens_eq_body {ts : List Token} {cut : Cut} (h : cut.Fits ts) : ofTokens ts = cut.body ts := by
  cases h with
  | query h => exact ofTokens_of_queryCut h
  | @closed p c hno hp hc =>
    rw [ofTokens, firstOpening_eq_some_iff.mpr hp]
    dsimp only
    rw [(closing?_eq_some_iff hc.opensAt).mpr hc]
    cases has : asQuery? ts with
    | none => rfl
    | some a =>
      have ha := asQuery?_eq_some_iff.mp has
      refine if_neg fun houtside => hno a ⟨ha, ?_⟩
      exact houtside.elim (.inFront hp) (.behind hp hc)
  | @unclosed p hno hp hc =>
    rw [ofTokens, firstOpening_eq_some_iff.mpr hp]
    dsimp only
    rw [(closing?_eq_none_iff hp.1).mpr hc]
    cases has : asQuery? ts with
    | none => rfl
    | some a =>
      refine if_neg fun hfront => hno a ⟨asQuery?_eq_some_iff.mp has, .inFront hp hfront⟩
  | empty hno hp =>
    rw [ofTokens, firstOpening_eq_none_iff.mpr hp]
    cases has : asQuery? ts with
    | none => rfl
    | some a => exact absurd ⟨asQuery?_eq_some_iff.mp has, .noBlock hp⟩ (hno a)

theorem ofTokens_eq_query_iff {ts q : List Token} :
    ofTokens ts = .query q ↔ ∃ a, QueryCut ts a ∧ Unwraps (ts.drop (a + 1)) q := by
  constructor
  · intro hq
    obtain ⟨cut, h⟩ := exists_fits ts
    rw [ofTokens_eq_body h] at hq
    cases h with
    | @query a h => exact ⟨a, h, unwraps_iff.mpr (TableBody.query.inj hq)⟩
    | closed => cases hq
    | unclosed => cases hq
    | empty => cases hq
  · rintro ⟨a, h, hq⟩
    rw [ofTokens_of_queryCut h, queryAt, unwraps_iff.mp hq]

theorem ofTokens_eq_columns_iff {ts : List Token} {b : ColumnBlock} :
    ofTokens ts = .columns b ↔
      (∀ a, ¬ QueryCut ts a) ∧ ∃ p, IsLeast {i | opensAt ts i = true} p ∧ BlockAt ts p b := by
  constructor
  · intro hb
    obtain ⟨cut, h⟩ := exists_fits ts
    rw [ofTokens_eq_body h] at hb
    cases h with
    | query => cases hb
    | closed hno hp hc => exact ⟨hno, _, hp, (blockAt_closedBlock_iff hc).mpr (TableBody.columns.inj hb)⟩
    | unclosed hno hp hc => exact ⟨hno, _, hp, (blockAt_openBlock_iff hp.1 hc).mpr (TableBody.columns.inj hb)⟩
    | empty => cases hb
  · rintro ⟨hno, p, hp, hb⟩
    by_cases hclose : ∃ c, Encloses ts p c
    · obtain ⟨c, hc⟩ := hclose
      rw [ofTokens_eq_body (.closed hno hp hc), Cut.body, (blockAt_closedBlock_iff hc).mp hb]
    · have hc := not_exists.mp hclose
      rw [ofTokens_eq_body (.unclosed hno hp hc), Cut.body, (blockAt_openBlock_iff hp.1 hc).mp hb]

theorem ofTokens_eq_empty_iff {ts : List Token} :
    ofTokens ts = .empty ↔ (∀ a, ¬ QueryCut ts a) ∧ ∀ p, opensAt ts p = false := by
  constructor
  · intro he
    obtain ⟨cut, h⟩ := exists_fits ts
    rw [ofTokens_eq_body h] at he
    cases h with
    | query => cases he
    | closed => cases he
    | unclosed => cases he
    | empty hno hp => exact ⟨hno, hp⟩
  · rintro ⟨hno, hp⟩
    exact ofTokens_eq_body (.empty hno hp)

end TableBody

/-! ## Tokens with the same parentheses -/

namespace Token

/-- Parentheses open and close at the same places. -/
def SameParens (ts us : List Token) : Prop :=
  ts.map depthChange = us.map depthChange

theorem sameParens_set {ts : List Token} {i : Nat} {t w : Token} (ht : ts[i]? = some t) (hp : t.isParen = false)
    (hw : w.isParen = false) : SameParens (ts.set i w) ts := by
  refine List.ext_getElem? fun k => ?_
  rw [List.getElem?_map, List.getElem?_map]
  by_cases hik : i = k
  · subst hik
    rw [List.getElem?_set_self (List.getElem?_eq_some_iff.mp ht).1, ht, Option.map_some, Option.map_some,
      depthChange_of_not_paren hp, depthChange_of_not_paren hw]
  · rw [List.getElem?_set_ne hik]

namespace SameParens
variable {ts us : List Token}

theorem opensAt_eq (h : SameParens ts us) (k : Nat) : opensAt ts k = opensAt us k := by
  have hopens : ∀ vs : List Token, opensAt vs k = ((vs.map depthChange)[k]?.any (· == 1)) := by
    intro vs
    rw [opensAt, List.getElem?_map, Option.any_map]
    congr 1
    funext v
    rw [Bool.eq_iff_iff, beq_iff_eq, beq_iff_eq, depthChange_eq_one_iff]
  rw [hopens, hopens, h]

theorem depthBefore_eq (h : SameParens ts us) (k : Nat) : depthBefore ts k = depthBefore us k := by
  have hdepth : ∀ vs : List Token, depthBefore vs k = ((vs.map depthChange).take k).foldl (· + ·) 0 := by
    intro vs
    rw [← List.map_take, List.foldl_map]
    rfl
  rw [hdepth, hdepth, h]

theorem closingFrom_eq (h : SameParens ts us) (i : Nat) (d : Int) : closingFrom i d ts = closingFrom i d us := by
  induction ts generalizing us i d with
  | nil => rw [List.map_eq_nil_iff.mp h.symm]
  | cons t ts ih =>
    obtain ⟨u, us, rfl, hu, hus⟩ := List.map_eq_cons_iff.mp h.symm
    have hclose : u.kind = .rightParen ↔ t.kind = .rightParen := by
      rw [← depthChange_eq_neg_one_iff, ← depthChange_eq_neg_one_iff, hu]
    rw [closingFrom, closingFrom, ih hus.symm, hu]
    simp only [hclose]

theorem closing?_eq (h : SameParens ts us) (i : Nat) : closing? ts i = closing? us i := by
  refine closingFrom_eq ?_ i 0
  rw [SameParens, List.map_drop, List.map_drop, h]

theorem encloses_iff (h : SameParens ts us) {p c : Nat} : Encloses ts p c ↔ Encloses us p c := by
  by_cases hp : opensAt ts p = true
  · rw [← closing?_eq_some_iff hp, ← closing?_eq_some_iff (h.opensAt_eq p ▸ hp), h.closing?_eq]
  · refine iff_of_false (fun hc => hp hc.opensAt) fun hc => hp ?_
    rw [h.opensAt_eq]
    exact hc.opensAt

end SameParens
end Token

namespace TableBody

theorem OutsideBlock.congr {ts us : List Token} (h : SameParens ts us) {a : Nat} (ha : OutsideBlock ts a) :
    OutsideBlock us a := by
  have hopens : {i | opensAt ts i = true} = {i | opensAt us i = true} := by simp only [h.opensAt_eq]
  cases ha with
  | noBlock hnone => exact .noBlock fun p => h.opensAt_eq p ▸ hnone p
  | inFront hp ha => exact .inFront (hopens ▸ hp) ha
  | behind hp hc ha => exact .behind (hopens ▸ hp) (h.encloses_iff.mp hc) ha

/-! ## Any other `AS` -/

theorem isOneOf_of_isWord_as {t : Token} (h : t.isWord "AS" = true) : t.isOneOf ["SELECT", "WITH"] = false := by
  obtain ⟨w, hw, hfold⟩ := exists_kind_of_isWord h
  rw [isOneOf, hw]
  simp [hfold]

/-- A token that is no parenthesis and none of the words that matter. -/
structure Inert (w : Token) : Prop where
  paren : w.isParen = false
  word : w.isOneOf ["AS", "SELECT", "WITH"] = false

section Set
variable {ts : List Token} {i : Nat} {w : Token} (has : wordAt ts i "AS" = true) (hw : Inert w)
include has hw

theorem sameParens_set_as : SameParens (ts.set i w) ts := by
  obtain ⟨t, ht, hword⟩ := (Option.any_eq_true _ _).mp has
  exact sameParens_set ht (isParen_of_isWord hword) hw.paren

theorem begins_set_as (j : Nat) : (ts.set i w)[j]?.any (·.isOneOf ["SELECT", "WITH"]) =
    ts[j]?.any (·.isOneOf ["SELECT", "WITH"]) := by
  by_cases hij : i = j
  · subst hij
    obtain ⟨t, ht, hword⟩ := (Option.any_eq_true _ _).mp has
    have hlt := (List.getElem?_eq_some_iff.mp ht).1
    have hno : w.isOneOf ["SELECT", "WITH"] = false := by
      have hnone := hw.word
      unfold isOneOf at hnone ⊢
      split at hnone <;> simp_all
    rw [List.getElem?_set_self hlt, ht, Option.any_some, Option.any_some, hno, isOneOf_of_isWord_as hword]
  · rw [List.getElem?_set_ne hij]

theorem queryAs_set_iff {k : Nat} : QueryAs (ts.set i w) k ↔ QueryAs ts k ∧ k ≠ i := by
  have hsame := sameParens_set_as has hw
  by_cases hik : i = k
  · subst hik
    refine iff_of_false (fun h => ?_) fun h => h.2 rfl
    obtain ⟨t, ht, -⟩ := (Option.any_eq_true _ _).mp has
    have hword := h.word
    rw [wordAt, List.getElem?_set_self (List.getElem?_eq_some_iff.mp ht).1, Option.any_some] at hword
    have hno := hw.word
    obtain ⟨v, hv, hfold⟩ := exists_kind_of_isWord hword
    rw [isOneOf, hv] at hno
    simp [hfold] at hno
  · have hquery : ∀ us : List Token, QueryAs us k ↔ wordAt us k "AS" = true ∧ depthBefore us k = 0 ∧
        ∃ j, k < j ∧ (∀ m, k < m → m < j → opensAt us m = true) ∧
          us[j]?.any (·.isOneOf ["SELECT", "WITH"]) = true :=
      fun us => ⟨fun h => ⟨h.word, h.outside, h.query⟩, fun h => ⟨h.1, h.2.1, h.2.2⟩⟩
    rw [hquery, hquery, wordAt, List.getElem?_set_ne hik, ← wordAt]
    simp only [hsame.depthBefore_eq, hsame.opensAt_eq, begins_set_as has hw, Ne.symm hik, ne_eq, not_false_eq_true,
      and_true]

theorem isLeast_queryAs_set_iff (hi : ¬ IsLeast {k | QueryAs ts k} i) {a : Nat} :
    IsLeast {k | QueryAs (ts.set i w) k} a ↔ IsLeast {k | QueryAs ts k} a := by
  simp only [queryAs_set_iff has hw]
  constructor
  · rintro ⟨⟨ha, hai⟩, hleast⟩
    refine ⟨ha, fun k hk => ?_⟩
    by_cases hki : k = i
    · -- an `AS` in front of all others would be the first one
      subst hki
      by_contra hlt
      refine hi ⟨hk, fun m hm => ?_⟩
      by_cases hmk : m = k
      · exact Nat.le_of_eq hmk.symm
      · exact Nat.le_trans (Nat.le_of_not_le hlt) (hleast ⟨hm, hmk⟩)
    · exact hleast ⟨hk, hki⟩
  · intro ha
    refine ⟨⟨ha.1, ?_⟩, fun k hk => ha.2 hk.1⟩
    rintro rfl
    exact hi ha

theorem queryCut_set_iff (hi : ¬ IsLeast {k | QueryAs ts k} i) {a : Nat} :
    QueryCut (ts.set i w) a ↔ QueryCut ts a := by
  have hsame := sameParens_set_as has hw
  exact and_congr (isLeast_queryAs_set_iff has hw hi) ⟨.congr hsame, .congr hsame.symm⟩

theorem Cut.Fits.set (hi : ¬ IsLeast {k | QueryAs ts k} i) {cut : Cut} (h : cut.Fits ts) : cut.Fits (ts.set i w) := by
  have hsame := sameParens_set_as has hw
  have hopens : {k | opensAt ts k = true} = {k | opensAt (ts.set i w) k = true} := by simp only [hsame.opensAt_eq]
  have hno : (∀ a, ¬ QueryCut ts a) → ∀ a, ¬ QueryCut (ts.set i w) a :=
    fun h a ha => h a ((queryCut_set_iff has hw hi).mp ha)
  cases h with
  | query h => exact .query ((queryCut_set_iff has hw hi).mpr h)
  | closed h hp hc => exact .closed (hno h) (hopens ▸ hp) (hsame.encloses_iff.mpr hc)
  | unclosed h hp hc => exact .unclosed (hno h) (hopens ▸ hp) fun c hclose => hc c (hsame.encloses_iff.mp hclose)
  | empty h hp => exact .empty (hno h) fun p => (hsame.opensAt_eq p).trans (hp p)

end Set
end TableBody

/-! ## Statements -/

namespace Statement

/-- The tokens behind the first word `TABLE`. -/
def behindTable (ts : List Token) : List Token :=
  (ts.dropWhile (!·.isWord "TABLE")).drop 1

theorem behindTable_cons_of_pos {t : Token} (h : t.isWord "TABLE" = true) (ts : List Token) :
    behindTable (t :: ts) = ts := by
  rw [behindTable, List.dropWhile_cons_of_neg (by simp [h])]
  rfl

theorem behindTable_cons_of_neg {t : Token} (h : t.isWord "TABLE" = false) (ts : List Token) :
    behindTable (t :: ts) = behindTable ts := by
  rw [behindTable, List.dropWhile_cons_of_pos (by simp [h]), behindTable]

theorem behindTable_of_expect? {ts us : List Token} (h : expect? "TABLE" ts = some us) : behindTable ts = us := by
  cases ts with
  | nil => cases h
  | cons t ts =>
    rw [expect?, Option.ite_none_right_eq_some] at h
    rw [behindTable_cons_of_pos h.1]
    exact Option.some.inj h.2

theorem behindTable_of_expect?_other {keyword : String} (hk : keyword ≠ "TABLE") {ts us : List Token}
    (h : expect? keyword ts = some us) : behindTable ts = behindTable us := by
  cases ts with
  | nil => cases h
  | cons t ts =>
    rw [expect?, Option.ite_none_right_eq_some] at h
    rw [behindTable_cons_of_neg (by simp [isWord_of_isWord h.1, hk]), Option.some.inj h.2]

theorem behindTable_skipOneOf {keywords : List String} (hk : "TABLE" ∉ keywords) (ts : List Token) :
    behindTable (skipOneOf keywords ts) = behindTable ts := by
  cases ts with
  | nil => rfl
  | cons t ts =>
    rw [skipOneOf]
    split
    · next hone =>
      have hword : t.isWord "TABLE" = false := by
        refine Bool.eq_false_iff.mpr fun hw => ?_
        obtain ⟨w, hkind, hfold⟩ := exists_kind_of_isWord hw
        rw [isOneOf, hkind] at hone
        simp [hfold, hk] at hone
      rw [behindTable_cons_of_neg hword]
    · rfl

theorem behindTable_skipOrReplace (ts : List Token) : behindTable (skipOrReplace ts) = behindTable ts := by
  unfold skipOrReplace
  split
  · next us hor => rw [behindTable_skipOneOf (by decide), behindTable_of_expect?_other (by decide) hor]
  · rfl

theorem viewOf?_ne_createTable (name : String) (ts : List Token) (n : String) (body : TableBody) :
    viewOf? name ts ≠ some (.createTable n body) := by
  intro h
  unfold viewOf? at h
  split at h
  · cases h
  · obtain ⟨query, -, hview⟩ := Option.map_eq_some_iff.mp h
    cases hview

theorem exists_of_createTable {ts : List Token} {name : String} {body : TableBody}
    (h : ofTokens? ts = some (.createTable name body)) :
    ∃ rest, name? (behindTable ts) = some (name, rest) ∧ .ofTokens rest = body := by
  unfold ofTokens? at h
  split at h
  · cases h
  · next t rest =>
    split at h
    · next hcreate =>
      rw [behindTable_cons_of_neg (by simp [isWord_of_isWord hcreate]), ← behindTable_skipOrReplace,
        ← behindTable_skipOneOf (show "TABLE" ∉ ["GLOBAL", "LOCAL"] by decide),
        ← behindTable_skipOneOf (show "TABLE" ∉ storageWords by decide)]
      unfold ofCreate? at h
      dsimp only at h
      split at h
      · next us hus =>
        obtain ⟨⟨n, behind⟩, hn, hs⟩ := Option.map_eq_some_iff.mp h
        obtain ⟨rfl, rfl⟩ := Statement.createTable.inj hs
        rw [behindTable_of_expect? hus]
        exact ⟨behind, hn, rfl⟩
      · split at h
        · obtain ⟨n, -, hs⟩ := Option.bind_eq_some_iff.mp h
          exact absurd hs (viewOf?_ne_createTable _ _ _ _)
        · cases h
    · split at h <;> cases h

/-- Behind its name a table goes on in one of three ways. It has a query if some `AS` has one and the first such `AS`
does not stand in the block; the query is all that follows, less one pair of parentheses around it. Otherwise it has
the block at the first parenthesis, if there is one, and everything else stands in front of the block or behind it. No
other `AS` moves the cut. -/
theorem createTable_parts {ts : List Token} {name : String} {body : TableBody}
    (h : ofTokens? ts = some (.createTable name body)) :
    ∃ rest, name? (behindTable ts) = some (name, rest) ∧
      (∀ q, body = .query q ↔ ∃ a, TableBody.QueryCut rest a ∧ Unwraps (rest.drop (a + 1)) q) ∧
      (∀ b, body = .columns b ↔ (∀ a, ¬ TableBody.QueryCut rest a) ∧
        ∃ p, IsLeast {i | opensAt rest i = true} p ∧ TableBody.BlockAt rest p b) ∧
      (body = .empty ↔ (∀ a, ¬ TableBody.QueryCut rest a) ∧ ∀ p, opensAt rest p = false) ∧
      ∃ cut : TableBody.Cut, body = cut.body rest ∧ ∀ i w, wordAt rest i "AS" = true →
        ¬ IsLeast {k | TableBody.QueryAs rest k} i → TableBody.Inert w →
        TableBody.ofTokens (rest.set i w) = cut.body (rest.set i w) := by
  obtain ⟨rest, hname, rfl⟩ := exists_of_createTable h
  refine ⟨rest, hname, fun q => TableBody.ofTokens_eq_query_iff, fun b => TableBody.ofTokens_eq_columns_iff,
    TableBody.ofTokens_eq_empty_iff, ?_⟩
  obtain ⟨cut, hcut⟩ := TableBody.exists_fits rest
  exact ⟨cut, TableBody.ofTokens_eq_body hcut, fun i w has hi hw =>
    TableBody.ofTokens_eq_body (hcut.set has hw hi)⟩

/-- The table of `CREATE TABLE t (a INT) STORED AS PARQUET` has a block. -/
theorem createTable_parts_storedAs :
    let word := fun text : String => (⟨.word text, text, 1, 1⟩ : Token)
    let options := [word "STORED", word "AS", word "PARQUET"]
    let ts := [word "CREATE", word "TABLE", word "t", ⟨.leftParen, "(", 1, 1⟩, word "a", word "INT",
      ⟨.rightParen, ")", 1, 1⟩] ++ options
    let block : ColumnBlock := ⟨[word "a", word "INT"], [], options, true⟩
    ofTokens? ts = some (.createTable "t" (.columns block)) ∧
      ∃ rest, name? (behindTable ts) = some ("t", rest) ∧ (∀ a, ¬ TableBody.QueryCut rest a) ∧
        ∃ p, IsLeast {i | opensAt rest i = true} p ∧ TableBody.BlockAt rest p block := by
  intro word options ts block
  have h : ofTokens? ts = some (.createTable "t" (.columns block)) := rfl
  obtain ⟨rest, hname, -, hcolumns, -⟩ := createTable_parts h
  exact ⟨h, rest, hname, (hcolumns block).mp rfl⟩

end Statement
end SqlLineage
