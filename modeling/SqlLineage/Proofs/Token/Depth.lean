import SqlLineage.Proofs.Select.Nesting

/-! # Depths along a token list

Some readers count parentheses from where they begin, and others look at the depths of all tokens. Both see the
same.

* `Token.depthBefore`: the depth in front of an index, from which `Token.depthAt` differs only at a closing
  parenthesis. `Token.natAbs_depths_le`: how far depths can go.
* `Token.index_find?_placed`: what it means that a search over places ends at an index.
* `Token.closing?_eq`: the parenthesis that closes a group is the first token behind its opening that is not
  deeper.
* `Select.projectionEnd_eq`: the end of the items is the end of a clause. -/

namespace SqlLineage
set_option autoImplicit false

namespace Token

/-! ## The depth in front of a token -/

/-- The depth in front of the token at `i`. -/
def depthBefore (ts : List Token) (i : Nat) : Int :=
  depthBehind 0 (ts.take i)

theorem depthBefore_succ {ts : List Token} {i : Nat} {t : Token} (h : ts[i]? = some t) :
    depthBefore ts (i + 1) = depthBefore ts i + t.depthChange := by
  rw [depthBefore, List.take_add_one, h, depthBehind, List.foldl_append]
  rfl

theorem getElem?_depthsFrom (d : Int) (ts : List Token) (i : Nat) :
    (depthsFrom d ts)[i]? = ts[i]?.map fun t =>
      if t.kind = .rightParen then depthBehind d (ts.take i) - 1 else depthBehind d (ts.take i) := by
  induction ts generalizing d i with
  | nil => rfl
  | cons t ts ih =>
    cases i with
    | zero => rfl
    | succ i => exact ih (d + t.depthChange) i

/-- The depths of a token list never go beyond the number of its tokens, neither above zero nor below it. -/
theorem natAbs_depths_le (ts : List Token) : ∀ d ∈ depths ts, d.natAbs ≤ ts.length := by
  intro d hd
  obtain ⟨i, hi⟩ := List.getElem?_of_mem hd
  rw [depths, getElem?_depthsFrom] at hi
  obtain ⟨t, ht, rfl⟩ := Option.map_eq_some_iff.mp hi
  have hlt := (List.getElem?_eq_some_iff.mp ht).1
  have hbehind := natAbs_depthBehind_le 0 (ts.take i)
  rw [List.length_take_of_le (Nat.le_of_lt hlt)] at hbehind
  split <;> omega

theorem depthAt_eq {ts : List Token} {i : Nat} {t : Token} (h : ts[i]? = some t) :
    depthAt ts i = if t.kind = .rightParen then depthBefore ts i - 1 else depthBefore ts i := by
  rw [depthAt, depths, List.getD_eq_getElem?_getD, getElem?_depthsFrom, h]
  rfl

theorem depthAt_of_not_paren {ts : List Token} {i : Nat} {t : Token} (h : ts[i]? = some t) (ht : t.isParen = false) :
    depthAt ts i = depthBefore ts i ∧ depthBefore ts (i + 1) = depthBefore ts i := by
  refine ⟨?_, ?_⟩
  · rw [depthAt_eq h, if_neg (kind_of_not_paren ht).2]
  · rw [depthBefore_succ h, depthChange_of_not_paren ht, Int.add_zero]

theorem depthAt_le_depthBefore_succ {ts : List Token} {i : Nat} {t : Token} (h : ts[i]? = some t) :
    depthAt ts i ≤ depthBefore ts (i + 1) := by
  rw [depthAt_eq h, depthBefore_succ h]
  unfold depthChange
  cases t.kind <;> simp only [reduceCtorEq, ↓reduceIte] <;> omega

/-! ## Places -/

theorem getElem?_placed (ts : List Token) (i : Nat) :
    (placed ts)[i]? = ts[i]?.map fun t => ⟨t, depthAt ts i, i⟩ := by
  rw [placed, List.getElem?_map, List.getElem?_zipIdx, List.zip, List.getElem?_zipWith, depthAt,
    List.getD_eq_getElem?_getD, depths, getElem?_depthsFrom]
  cases ts[i]? with
  | none => rfl
  | some t => simp

theorem drop_placed {ts : List Token} {k : Nat} (h : k ≤ ts.length) :
    (placed ts).drop k = placedFrom k (depthBefore ts k) (ts.drop k) := by
  have hsplit := placedFrom_append 0 0 (ts.take k) (ts.drop k)
  rw [List.take_append_drop, ← placed_eq, List.length_take_of_le h, Nat.zero_add] at hsplit
  have hlength : (placedFrom 0 0 (ts.take k)).length = k := by
    rw [← placed_eq]
    simp [placed, h]
  rw [hsplit, List.drop_left' hlength, depthBefore]

/-- A search over places from `start` on ends at the first index whose place it looks for. -/
theorem index_find?_placed {ts : List Token} {q : Placed → Bool} {start f : Nat} :
    (((placed ts).drop start).find? q).map Placed.index = some f ↔
      start ≤ f ∧ (∃ t, ts[f]? = some t ∧ q ⟨t, depthAt ts f, f⟩ = true) ∧
        ∀ i t, start ≤ i → i < f → ts[i]? = some t → q ⟨t, depthAt ts i, i⟩ = false := by
  constructor
  · intro h
    obtain ⟨p, hp, rfl⟩ := Option.map_eq_some_iff.mp h
    obtain ⟨hq, m, hm, hget, hbefore⟩ := List.find?_eq_some_iff_getElem.mp hp
    have hplace := List.getElem?_eq_getElem hm
    rw [hget, List.getElem?_drop, getElem?_placed] at hplace
    obtain ⟨t, ht, rfl⟩ := Option.map_eq_some_iff.mp hplace
    refine ⟨Nat.le_add_right .., ⟨t, ht, hq⟩, fun i u hle hlt hu => ?_⟩
    have hi : ((placed ts).drop start)[i - start]? = some ⟨u, depthAt ts i, i⟩ := by
      rw [List.getElem?_drop, Nat.add_sub_cancel' hle, getElem?_placed, hu, Option.map_some]
    obtain ⟨hlt', hu'⟩ := List.getElem?_eq_some_iff.mp hi
    have hno := hbefore (i - start) (Nat.sub_lt_left_of_lt_add hle hlt)
    rwa [hu', Bool.not_eq_true'] at hno
  · rintro ⟨hle, ⟨t, ht, hq⟩, hbefore⟩
    have hf : ((placed ts).drop start)[f - start]? = some ⟨t, depthAt ts f, f⟩ := by
      rw [List.getElem?_drop, Nat.add_sub_cancel' hle, getElem?_placed, ht, Option.map_some]
    obtain ⟨hlt, hget⟩ := List.getElem?_eq_some_iff.mp hf
    refine Option.map_eq_some_iff.mpr ⟨_, List.find?_eq_some_iff_getElem.mpr ⟨hq, f - start, hlt, hget, ?_⟩, rfl⟩
    intro j hj
    have hjlt : j < ((placed ts).drop start).length := by omega
    have hplace := List.getElem?_eq_getElem hjlt
    rw [List.getElem?_drop, getElem?_placed] at hplace
    obtain ⟨u, hu, hju⟩ := Option.map_eq_some_iff.mp hplace
    rw [← hju, Bool.not_eq_true']
    exact hbefore (start + j) u (Nat.le_add_right ..) (by omega) hu

/-! ## The closing parenthesis -/

theorem closingFrom_eq {c d : Int} (h : c < d) (i : Nat) (ts : List Token) :
    closingFrom i (d - c) ts = ((placedFrom i d ts).find? fun p => decide (p.depth ≤ c)).map Placed.index := by
  induction ts generalizing i d with
  | nil => rfl
  | cons t ts ih =>
    rw [closingFrom, placedFrom, List.find?_cons]
    by_cases hclose : t.kind = .rightParen ∧ d - c = 1
    · rw [if_pos hclose, if_pos hclose.1]
      have hle : d - 1 ≤ c := by omega
      simp [hle]
    · have hnext : c < d + t.depthChange := by
        unfold depthChange
        split
        · omega
        · next hk =>
          have hd : d - c ≠ 1 := fun hd => hclose ⟨hk, hd⟩
          omega
        · omega
      have hdeep : ¬ (if t.kind = .rightParen then d - 1 else d) ≤ c := by
        split
        · next hk =>
          have hd : d - c ≠ 1 := fun hd => hclose ⟨hk, hd⟩
          omega
        · omega
      rw [if_neg hclose, show d - c + t.depthChange = d + t.depthChange - c by omega, ih hnext]
      simp [hdeep]

theorem exists_of_opensAt {ts : List Token} {i : Nat} (h : opensAt ts i = true) :
    ∃ t, ts[i]? = some t ∧ t.kind = .leftParen := by
  unfold opensAt at h
  cases ht : ts[i]? with
  | none =>
    rw [ht] at h
    cases h
  | some t =>
    rw [ht] at h
    exact ⟨t, rfl, eq_of_beq h⟩

theorem depthAt_of_opensAt {ts : List Token} {i : Nat} (h : opensAt ts i = true) :
    depthAt ts i = depthBefore ts i := by
  obtain ⟨t, ht, hk⟩ := exists_of_opensAt h
  rw [depthAt_eq ht, if_neg (by simp [hk])]

/-- Behind the opening parenthesis the count is one. -/
theorem closing?_eq_closingFrom {ts : List Token} {i : Nat} (h : opensAt ts i = true) :
    closing? ts i = closingFrom (i + 1) 1 (ts.drop (i + 1)) := by
  obtain ⟨t, ht, hk⟩ := exists_of_opensAt h
  obtain ⟨hlt, hget⟩ := List.getElem?_eq_some_iff.mp ht
  rw [closing?, List.drop_eq_getElem_cons hlt, hget, closingFrom, if_neg (by simp [hk]),
    depthChange_eq_one_iff.mpr hk, Int.zero_add]

/-- A group ends at the first token behind its opening parenthesis that is not deeper than it. -/
theorem closing?_eq {ts : List Token} {i : Nat} (h : opensAt ts i = true) :
    closing? ts i = (((placed ts).drop (i + 1)).find? fun p => decide (p.depth ≤ depthAt ts i)).map Placed.index := by
  obtain ⟨t, ht, hk⟩ := exists_of_opensAt h
  have hdepth := depthAt_of_opensAt h
  have hbehind : depthBefore ts (i + 1) = depthAt ts i + 1 := by
    rw [depthBefore_succ ht, hdepth, depthChange_eq_one_iff.mpr hk]
  have hfrom := closingFrom_eq (c := depthAt ts i) (d := depthAt ts i + 1) (by omega) (i + 1) (ts.drop (i + 1))
  rw [Int.add_comm, Int.add_sub_cancel, Int.add_comm 1] at hfrom
  rw [closing?_eq_closingFrom h, drop_placed (List.getElem?_eq_some_iff.mp ht).1, hbehind, ← hfrom]

/-- A closed group ends in a parenthesis, behind it the depth is the one in front of it, and everything inside is
deeper. -/
theorem closing?_depth {ts : List Token} {i j : Nat} (hi : opensAt ts i = true) (h : closing? ts i = some j) :
    i < j ∧ (∃ u, ts[j]? = some u ∧ u.kind = .rightParen) ∧ depthBefore ts (j + 1) = depthBefore ts i ∧
      ∀ k, i < k → k < j → depthBefore ts i < depthAt ts k := by
  obtain ⟨t, ht, hk⟩ := exists_of_opensAt hi
  have hdepth := depthAt_of_opensAt hi
  rw [closing?_eq hi, index_find?_placed] at h
  obtain ⟨hlt, ⟨u, hu, hle⟩, hinside⟩ := h
  have hdeep : ∀ k, i < k → k < j → depthAt ts i < depthAt ts k := by
    intro k hik hkj
    obtain ⟨v, hv⟩ : ∃ v, ts[k]? = some v :=
      ⟨_, List.getElem?_eq_getElem (Nat.lt_trans hkj (List.getElem?_eq_some_iff.mp hu).1)⟩
    simpa using hinside k v hik hkj hv
  -- the closing parenthesis is the only token that can bring the depth back
  have hbefore : depthAt ts i < depthBefore ts j := by
    rcases Nat.lt_or_eq_of_le hlt with hlt | rfl
    · obtain ⟨m, rfl⟩ : ∃ m, j = m + 1 := ⟨j - 1, by omega⟩
      obtain ⟨v, hv⟩ : ∃ v, ts[m]? = some v :=
        ⟨_, List.getElem?_eq_getElem (Nat.lt_of_succ_lt (List.getElem?_eq_some_iff.mp hu).1)⟩
      exact Int.lt_of_lt_of_le (hdeep m (by omega) (by omega)) (depthAt_le_depthBefore_succ hv)
    · have hchange : t.depthChange = 1 := depthChange_eq_one_iff.mpr hk
      rw [depthBefore_succ ht, hdepth, hchange]
      omega
  have hle' : depthAt ts j ≤ depthAt ts i := by simpa using hle
  rw [depthAt_eq hu] at hle'
  split at hle'
  · next hclose =>
    have hchange : u.depthChange = -1 := depthChange_eq_neg_one_iff.mpr hclose
    refine ⟨hlt, ⟨u, hu, hclose⟩, ?_, fun k hik hkj => hdepth ▸ hdeep k hik hkj⟩
    rw [depthBefore_succ hu, hchange]
    omega
  · omega

/-- A parenthesis that is not closed keeps everything behind it deeper. -/
theorem lt_depthAt_of_closing?_eq_none {ts : List Token} {i k : Nat} (hi : opensAt ts i = true)
    (h : closing? ts i = none) (hik : i < k) (hk : k < ts.length) : depthBefore ts i < depthAt ts k := by
  have hdepth := depthAt_of_opensAt hi
  rw [closing?_eq hi, Option.map_eq_none_iff, List.find?_eq_none] at h
  have hplace : ((placed ts).drop (i + 1))[k - (i + 1)]? = some ⟨ts[k], depthAt ts k, k⟩ := by
    rw [List.getElem?_drop, Nat.add_sub_cancel' hik, getElem?_placed, List.getElem?_eq_getElem hk, Option.map_some]
  have hno := h _ (List.mem_of_getElem? hplace)
  rw [← hdepth]
  simpa using hno

/-! ## Words -/

theorem exists_of_wordAt {ts : List Token} {i : Nat} {w : String} (h : wordAt ts i w = true) :
    ∃ t, ts[i]? = some t ∧ t.isWord w = true := by
  unfold wordAt at h
  cases ht : ts[i]? with
  | none =>
    rw [ht] at h
    cases h
  | some t =>
    rw [ht] at h
    exact ⟨t, rfl, h⟩

theorem isParen_of_isWord {t : Token} {w : String} (h : t.isWord w = true) : t.isParen = false := by
  unfold isWord at h
  split at h
  · next hk => simp [isParen, hk]
  · cases h

theorem isOneOf_of_not_word {t : Token} (h : ∀ w, t.kind ≠ .word w) (keywords : List String) :
    t.isOneOf keywords = false := by
  unfold isOneOf
  split
  · next w hw => exact absurd hw (h w)
  · rfl

end Token

/-! ## The end of a clause -/

namespace Select

/-- A token that ends a clause at the depth `d`. -/
def EndsClause (ts : List Token) (d : Int) (ends : List String) (i : Nat) : Prop :=
  Token.depthAt ts i < d ∨ Token.depthAt ts i = d ∧ ts[i]?.any (·.isOneOf ends) = true

theorem clauseEnd_eq_iff {ts : List Token} {start f : Nat} {d : Int} {ends : List String} (hf : f < ts.length) :
    clauseEnd ts start d ends = f ↔
      start ≤ f ∧ EndsClause ts d ends f ∧ ∀ i, start ≤ i → i < f → ¬ EndsClause ts d ends i := by
  have hends : ∀ i t, ts[i]? = some t →
      ((Token.depthAt ts i < d || Token.depthAt ts i == d && t.isOneOf ends) = true ↔ EndsClause ts d ends i) := by
    intro i t ht
    simp [EndsClause, ht]
  have hclause : clauseEnd ts start d ends = f ↔ (((Token.placed ts).drop start).find? fun p =>
      p.depth < d || p.depth == d && p.token.isOneOf ends).map Token.Placed.index = some f := by
    unfold clauseEnd
    cases ((Token.placed ts).drop start).find? fun p => p.depth < d || p.depth == d && p.token.isOneOf ends with
    | none => simp only [Option.map_none, reduceCtorEq, iff_false]; omega
    | some p => simp
  rw [hclause, Token.index_find?_placed]
  refine and_congr_right fun _ => and_congr ?_ ?_
  · constructor
    · rintro ⟨t, ht, hq⟩
      exact (hends f t ht).mp hq
    · intro h
      exact ⟨_, List.getElem?_eq_getElem hf, (hends f _ (List.getElem?_eq_getElem hf)).mpr h⟩
  · constructor
    · intro h i hi hif hend
      have hget := List.getElem?_eq_getElem (Nat.lt_trans hif hf)
      exact absurd ((hends i _ hget).mpr hend) (by simpa using h i _ hi hif hget)
    · intro h i t hi hif ht
      exact Bool.eq_false_iff.mpr fun hq => h i hi hif ((hends i t ht).mp hq)

theorem projectionEndFrom_eq {c d : Int} (h : c ≤ d) (i : Nat) (ts : List Token) :
    projectionEnd i (d - c) ts =
      match (Token.placedFrom i d ts).find? fun p =>
          p.depth < c || p.depth == c && p.token.isOneOf projectionEnds with
      | some p => p.index
      | none => i + ts.length := by
  induction ts generalizing i d with
  | nil => rfl
  | cons t ts ih =>
    have hlength : i + (t :: ts).length = i + 1 + ts.length := by
      rw [List.length_cons]
      omega
    rw [projectionEnd, Token.placedFrom, List.find?_cons, hlength]
    split
    · next hk =>
      have hchange : t.depthChange = 1 := Token.depthChange_eq_one_iff.mpr hk
      have hrest := ih (d := d + 1) (by omega) (i + 1)
      rw [show d + 1 - c = d - c + 1 by omega] at hrest
      rw [hrest, hchange, if_neg (by simp [hk]), Token.isOneOf_of_not_word (by simp [hk])]
      simp [show ¬ d < c by omega]
    · next hk =>
      have hchange : t.depthChange = -1 := Token.depthChange_eq_neg_one_iff.mpr hk
      rw [hchange, if_pos hk, Token.isOneOf_of_not_word (by simp [hk])]
      split
      · simp [show d - 1 < c by omega]
      · have hrest := ih (d := d - 1) (by omega) (i + 1)
        rw [show d - 1 - c = d - c - 1 by omega] at hrest
        rw [hrest, ← Int.sub_eq_add_neg]
        simp [show ¬ d - 1 < c by omega]
    · next hl hr =>
      have hparen : t.isParen = false := by
        simpa [Token.isParen] using ⟨hl, hr⟩
      rw [ih h (i + 1), Token.depthChange_of_not_paren hparen, Int.add_zero, if_neg hr]
      by_cases hend : d = c ∧ t.isOneOf projectionEnds = true
      · rw [if_pos ⟨by omega, hend.2⟩]
        simp [hend.1, hend.2]
      · rw [if_neg fun hzero => hend ⟨by omega, hzero.2⟩]
        have hstop : (decide (d < c) || d == c && t.isOneOf projectionEnds) = false := by
          have hlt : ¬ d < c := by omega
          simpa [hlt] using hend
        simp only [hstop]

/-- The scan over the items, which counts from where they begin, stops where the clause ends that stands at the
depth in front of them. -/
theorem projectionEnd_eq {ts : List Token} {start : Nat} (h : start ≤ ts.length) :
    projectionEnd start 0 (ts.drop start) = clauseEnd ts start (Token.depthBefore ts start) projectionEnds := by
  have hfrom := projectionEndFrom_eq (Int.le_refl (Token.depthBefore ts start)) start (ts.drop start)
  rw [Int.sub_self, List.length_drop, Nat.add_sub_cancel' h, ← Token.drop_placed h] at hfrom
  exact hfrom

end Select
end SqlLineage
