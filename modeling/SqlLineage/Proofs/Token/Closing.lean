import SqlLineage.Proofs.Token.Balanced
import SqlLineage.Token.Scan

/-! # Parentheses that match

Three ways to say which parenthesis closes another one: a count that starts at the opening one, the depths of all
tokens, and pairs that nest.

* `Token.Paired`: tokens whose parentheses come in pairs, as a grammar. `Token.paired_iff` says that these are the
  balanced ones.
* `Token.Closes`: such tokens stand between two parentheses.
* `Token.closing?_iff`: the count finds the parenthesis that closes, if there is one, and the depths tell the same. -/

namespace SqlLineage.Token
set_option autoImplicit false

/-! ## Pairs that nest -/

/-- Every parenthesis has a partner, and pairs stand inside each other or side by side. -/
inductive Paired : List Token → Prop where
  | nil : Paired []
  | plain {t : Token} {ts : List Token} (ht : t.isParen = false) (hts : Paired ts) : Paired (t :: ts)
  | group {o c : Token} {inner ts : List Token} (ho : o.kind = .leftParen) (hinner : Paired inner)
      (hc : c.kind = .rightParen) (hts : Paired ts) : Paired (o :: (inner ++ c :: ts))

theorem Paired.balanced {ts : List Token} (h : Paired ts) : Balanced ts := by
  induction h with
  | nil => exact balanced_nil
  | @plain t ts ht hts ih => exact (balanced_cons_iff ht).mpr ih
  | @group o c inner ts ho hinner hc hts ihinner ihts =>
    have hsplit : o :: (inner ++ c :: ts) = o :: (inner ++ [c]) ++ ts := by simp
    rw [hsplit]
    exact (ihinner.wrap ho hc).append_iff.mpr ihts

/-- Balanced tokens that begin with a parenthesis begin with a group, and the rest is balanced again. -/
theorem Balanced.exists_group {o : Token} {ts : List Token} (h : Balanced (o :: ts)) (ho : o.kind = .leftParen) :
    ∃ inner c rest, ts = inner ++ c :: rest ∧ Balanced inner ∧ c.kind = .rightParen ∧ Balanced rest := by
  have hopens : opensAt (o :: ts) 0 = true := by simp [opensAt, ho]
  obtain ⟨j, hj⟩ := h.exists_closing? hopens
  obtain ⟨pre, g, rest, hts, hg, hpre, -⟩ := (closing?_eq_some_iff hopens).mp hj
  obtain rfl := List.length_eq_zero_iff.mp hpre
  rw [List.nil_append, g.tokens_append] at hts
  obtain ⟨rfl, rfl⟩ := List.cons.inj hts
  have hsplit : g.opening :: (g.inner ++ g.closing :: rest) = g.opening :: (g.inner ++ [g.closing]) ++ rest := by simp
  rw [hsplit] at h
  exact ⟨g.inner, g.closing, rest, rfl, hg.inner, hg.closing, (hg.inner.wrap ho hg.closing).append_iff.mp h⟩

theorem Balanced.paired {ts : List Token} (h : Balanced ts) : Paired ts := by
  -- a group is cut off in front, so both of what is inside and of what follows it are shorter
  induction hn : ts.length using Nat.strongRecOn generalizing ts with
  | ind n ih =>
    subst hn
    cases ts with
    | nil => exact .nil
    | cons t ts =>
      by_cases hparen : t.isParen = false
      · exact .plain hparen (ih _ (Nat.lt_succ_self _) ((balanced_cons_iff hparen).mp h) rfl)
      · have ho : t.kind = .leftParen := h.opening_of_isParen (by simpa using hparen)
        obtain ⟨inner, c, rest, rfl, hinner, hc, hrest⟩ := h.exists_group ho
        have hlength : (t :: (inner ++ c :: rest)).length = inner.length + rest.length + 2 := by
          rw [List.length_cons, List.length_append, List.length_cons]
          omega
        apply Paired.group ho _ hc
        · exact ih _ (by omega) hrest rfl
        · exact ih _ (by omega) hinner rfl

theorem paired_iff {ts : List Token} : Paired ts ↔ Balanced ts :=
  ⟨Paired.balanced, Balanced.paired⟩

instance (ts : List Token) : Decidable (Paired ts) :=
  decidable_of_iff' _ paired_iff

/-! ## The parenthesis that closes -/

/-- At `j` stands a closing parenthesis, and what stands between `i` and `j` is paired. -/
structure Closes (ts : List Token) (i j : Nat) : Prop where
  lt : i < j
  closing : ∃ c, ts[j]? = some c ∧ c.kind = .rightParen
  inner : Paired (Span.of ⟨i + 1, j⟩ ts)

theorem Encloses.closes {ts : List Token} {i j : Nat} (h : Encloses ts i j) : Closes ts i j := by
  obtain ⟨pre, g, rest, rfl, hg, rfl, rfl⟩ := h
  refine ⟨by omega, ⟨g.closing, ?_, hg.closing⟩, ?_⟩
  · have hbehind : pre.length + 1 + g.inner.length - pre.length = g.inner.length + 1 := by omega
    rw [g.tokens_append, List.getElem?_append_right (by omega), hbehind, List.getElem?_cons_succ]
    simp
  · rw [g.span_of_inner]
    exact hg.inner.paired

theorem Closes.encloses {ts : List Token} {i j : Nat} (h : Closes ts i j) (hi : opensAt ts i = true) :
    Encloses ts i j := by
  obtain ⟨o, ho, hopen⟩ := exists_of_opensAt hi
  obtain ⟨c, hc, hclose⟩ := h.closing
  obtain ⟨hilt, higet⟩ := List.getElem?_eq_some_iff.mp ho
  obtain ⟨hjlt, hjget⟩ := List.getElem?_eq_some_iff.mp hc
  have hlt : i < j := h.lt
  have hlength : (Span.of ⟨i + 1, j⟩ ts).length = j - (i + 1) := by
    simp only [Span.of, List.length_take, List.length_drop]
    omega
  have hinner : ts.drop (i + 1) = Span.of ⟨i + 1, j⟩ ts ++ c :: ts.drop (j + 1) := by
    have hj : ts.drop j = c :: ts.drop (j + 1) := by rw [List.drop_eq_getElem_cons hjlt, hjget]
    rw [← hj, Span.of, show ts.drop j = (ts.drop (i + 1)).drop (j - (i + 1)) by rw [List.drop_drop]; congr 1; omega,
      List.take_append_drop]
  refine ⟨ts.take i, ⟨o, Span.of ⟨i + 1, j⟩ ts, c⟩, ts.drop (j + 1), ?_, ⟨hopen, h.inner.balanced, hclose⟩, ?_, ?_⟩
  · rw [Group.tokens_append, ← hinner, ← higet, ← List.drop_eq_getElem_cons hilt, List.take_append_drop]
  · exact List.length_take_of_le (Nat.le_of_lt hilt)
  · rw [List.length_take_of_le (Nat.le_of_lt hilt), hlength]
    omega

section Opening
variable {ts : List Token} {i : Nat} (hi : opensAt ts i = true)
include hi

theorem closing?_eq_some_iff_closes {j : Nat} : closing? ts i = some j ↔ Closes ts i j := by
  rw [closing?_eq_some_iff hi]
  exact ⟨Encloses.closes, fun h => h.encloses hi⟩

/-- The closing parenthesis is as deep as the opening one, and everything between them is deeper. -/
theorem depthAt_of_closing? {j : Nat} (h : closing? ts i = some j) :
    depthAt ts j = depthAt ts i ∧ ∀ k, i < k → k < j → depthAt ts i < depthAt ts k := by
  obtain ⟨-, ⟨c, hc, hclose⟩, hbehind, hinside⟩ := closing?_depth hi h
  have hchange : c.depthChange = -1 := depthChange_eq_neg_one_iff.mpr hclose
  rw [depthBefore_succ hc, hchange] at hbehind
  rw [depthAt_of_opensAt hi, depthAt_eq hc, if_pos hclose]
  exact ⟨hbehind, hinside⟩

theorem closing?_eq_none_iff_depthAt :
    closing? ts i = none ↔ ∀ k, i < k → k < ts.length → depthAt ts i < depthAt ts k := by
  constructor
  · intro h k hik hk
    rw [depthAt_of_opensAt hi]
    exact lt_depthAt_of_closing?_eq_none hi h hik hk
  · intro hdeep
    rw [Option.eq_none_iff_forall_ne_some]
    intro j hj
    obtain ⟨hlt, hle⟩ := closing?_bounds hj
    have hsame := (depthAt_of_closing? hi hj).1
    have hlower := hdeep j hlt hle
    omega

end Opening

/-- For a parenthesis that opens at `i`, one index at most closes it, and that is the one that is found: a closing
parenthesis with paired tokens in between. It is as deep as the opening one and everything between them is deeper.
None is found if and only if everything behind `i` is deeper. -/
theorem closing?_iff {ts : List Token} {i : Nat} (hi : opensAt ts i = true) :
    (∀ j, closing? ts i = some j ↔ Closes ts i j) ∧
      (∀ j k, Closes ts i j → Closes ts i k → j = k) ∧
      (∀ j, Closes ts i j → depthAt ts j = depthAt ts i ∧ ∀ k, i < k → k < j → depthAt ts i < depthAt ts k) ∧
      (closing? ts i = none ↔ ∀ k, i < k → k < ts.length → depthAt ts i < depthAt ts k) := by
  refine ⟨fun j => closing?_eq_some_iff_closes hi, fun j k hj hk => ?_, fun j hj => ?_,
    closing?_eq_none_iff_depthAt hi⟩
  · rw [← closing?_eq_some_iff_closes hi] at hj hk
    exact Option.some.inj (hj.symm.trans hk)
  · exact depthAt_of_closing? hi ((closing?_eq_some_iff_closes hi).mpr hj)

/-- In `) (a (b) c) d)`, where depths begin below zero, the parenthesis at 1 is closed at 7. -/
theorem closing?_iff_below_zero :
    let ts := scan ") (a (b) c) d)"
    opensAt ts 1 = true ∧ closing? ts 1 = some 7 ∧ Closes ts 1 7 ∧
      depthAt ts 1 = -1 ∧ depthAt ts 7 = depthAt ts 1 ∧ ∀ k, 1 < k → k < 7 → depthAt ts 1 < depthAt ts k := by
  have hopens : opensAt (scan ") (a (b) c) d)") 1 = true := by decide +kernel
  have hfound : closing? (scan ") (a (b) c) d)") 1 = some 7 := by decide +kernel
  obtain ⟨hiff, -, hdepth, -⟩ := closing?_iff hopens
  have hcloses := (hiff 7).mp hfound
  exact ⟨hopens, hfound, hcloses, by decide +kernel, hdepth 7 hcloses⟩

end SqlLineage.Token
