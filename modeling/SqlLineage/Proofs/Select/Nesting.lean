import SqlLineage.Select.Body

/-! # Scans over nested parentheses

The readers of a query body walk over its tokens and count parentheses. A run of tokens whose parentheses
match, none of them inside another pair, is passed by as a whole.

* `Token.Nested`: such a run; its tokens outside the parentheses may be restricted.
* `Select.projectionEnd_nested`, `Token.spansFrom_nested`, `Select.opensFromFunction_nested`: the scans
  pass it by.
* `Token.placedFrom`: the places of tokens, one after the other. -/

namespace SqlLineage
set_option autoImplicit false

namespace Token

def isParen (t : Token) : Bool :=
  t.kind == .leftParen || t.kind == .rightParen

/-- A run of tokens with matching parentheses; every other token outside of them satisfies `p`. -/
inductive Nested (p : Token → Prop) : List Token → Prop where
  | nil : Nested p []
  | plain {t : Token} {ts : List Token} (ht : t.isParen = false) (hp : p t) (hts : Nested p ts) :
      Nested p (t :: ts)
  | group {l : Token} {inner : List Token} {r : Token} {ts : List Token} (hl : l.kind = .leftParen)
      (hinner : ∀ t ∈ inner, t.isParen = false) (hr : r.kind = .rightParen) (hts : Nested p ts) :
      Nested p (l :: (inner ++ r :: ts))

theorem Nested.mono {p q : Token → Prop} {ts : List Token} (h : Nested p ts) (hpq : ∀ t, p t → q t) :
    Nested q ts := by
  induction h with
  | nil => exact .nil
  | plain ht hp _ ih => exact .plain ht (hpq _ hp) ih
  | group hl hinner hr _ ih => exact .group hl hinner hr ih

theorem Nested.append {p : Token → Prop} {ts us : List Token} (h : Nested p ts) (hu : Nested p us) :
    Nested p (ts ++ us) := by
  induction h with
  | nil => exact hu
  | plain ht hp _ ih => exact .plain ht hp ih
  | group hl hinner hr _ ih =>
    rw [List.cons_append, List.append_assoc, List.cons_append]
    exact .group hl hinner hr ih

theorem kind_of_not_paren {t : Token} (h : t.isParen = false) : t.kind ≠ .leftParen ∧ t.kind ≠ .rightParen := by
  simpa [isParen] using h

theorem depthChange_of_not_paren {t : Token} (h : t.isParen = false) : t.depthChange = 0 := by
  obtain ⟨hl, hr⟩ := kind_of_not_paren h
  unfold depthChange
  split
  · next hk => exact absurd hk hl
  · next hk => exact absurd hk hr
  · rfl

theorem depthChange_eq_one_iff {t : Token} : t.depthChange = 1 ↔ t.kind = .leftParen := by
  unfold depthChange
  cases t.kind <;> simp

theorem depthChange_eq_neg_one_iff {t : Token} : t.depthChange = -1 ↔ t.kind = .rightParen := by
  unfold depthChange
  cases t.kind <;> simp

theorem kind_of_depthChange_pos {t : Token} (h : 0 < t.depthChange) : t.kind = .leftParen := by
  unfold depthChange at h
  split at h
  · next hk => exact hk
  · omega
  · omega

/-- The depth behind tokens, if it is `d` in front of them. -/
def depthBehind (d : Int) (ts : List Token) : Int :=
  ts.foldl (fun depth t => depth + t.depthChange) d

theorem depthBehind_cons (d : Int) (t : Token) (ts : List Token) :
    depthBehind d (t :: ts) = depthBehind (d + t.depthChange) ts :=
  rfl

theorem depthBehind_of_not_paren {ts : List Token} (h : ∀ t ∈ ts, t.isParen = false) (d : Int) :
    depthBehind d ts = d := by
  induction ts with
  | nil => rfl
  | cons t ts ih =>
    rw [List.forall_mem_cons] at h
    rw [depthBehind_cons, depthChange_of_not_paren h.1, Int.add_zero, ih h.2]

/-- Every token moves the depth by at most one. -/
theorem natAbs_depthBehind_le (d : Int) (ts : List Token) : (depthBehind d ts).natAbs ≤ d.natAbs + ts.length := by
  induction ts generalizing d with
  | nil => exact Nat.le_refl _
  | cons t ts ih =>
    have hstep : t.depthChange.natAbs ≤ 1 := by
      unfold depthChange
      split <;> decide
    have hrest := ih (d + t.depthChange)
    rw [depthBehind_cons, List.length_cons]
    omega

theorem Nested.depthBehind_eq {p : Token → Prop} {ts : List Token} (h : Nested p ts) (d : Int) :
    depthBehind d ts = d := by
  induction h with
  | nil => rfl
  | plain ht _ _ ih => rw [depthBehind_cons, depthChange_of_not_paren ht, Int.add_zero, ih]
  | @group l inner r ts hl hinner hr _ ih =>
    have hopen : d + l.depthChange = d + 1 := by simp [depthChange, hl]
    have hclose : d + 1 + r.depthChange = d := by
      simp only [depthChange, hr]
      omega
    calc depthBehind d (l :: (inner ++ r :: ts))
        = depthBehind (depthBehind (d + l.depthChange) inner) (r :: ts) := List.foldl_append
      _ = depthBehind (d + 1 + r.depthChange) ts := by
        rw [hopen, depthBehind_of_not_paren hinner, depthBehind_cons]
      _ = d := by rw [hclose, ih]

/-! ## Groups between commas -/

theorem spansFrom_inner {inner : List Token} (h : ∀ t ∈ inner, t.isParen = false) (i start : Nat)
    (rest : List Token) : spansFrom i start 1 (inner ++ rest) = spansFrom (i + inner.length) start 1 rest := by
  induction inner generalizing i with
  | nil => rfl
  | cons t inner ih =>
    rw [List.forall_mem_cons] at h
    have hdeep : ¬ (t.kind = .comma ∧ (1 : Int) = 0) := by
      rintro ⟨-, h0⟩
      omega
    rw [List.cons_append, spansFrom, if_neg hdeep, depthChange_of_not_paren h.1, Int.add_zero, ih h.2,
      List.length_cons]
    congr 1
    omega

/-- A nested run without commas outside of parentheses belongs to one group. -/
theorem spansFrom_nested {ts : List Token} (h : Nested (fun t => t.kind ≠ .comma) ts) (i start : Nat)
    (rest : List Token) : spansFrom i start 0 (ts ++ rest) = spansFrom (i + ts.length) start 0 rest := by
  induction h generalizing i with
  | nil => rfl
  | @plain t ts ht hp _ ih =>
    rw [List.cons_append, spansFrom, if_neg (fun hc => hp hc.1), depthChange_of_not_paren ht, Int.add_zero, ih,
      List.length_cons]
    congr 1
    omega
  | @group l inner r ts hl hinner hr _ ih =>
    have hl' : ¬ (l.kind = .comma ∧ (0 : Int) = 0) := by simp [hl]
    have hr' : ¬ (r.kind = .comma ∧ (1 : Int) = 0) := by simp [hr]
    have hopen : (0 : Int) + l.depthChange = 1 := by simp [depthChange, hl]
    have hclose : (1 : Int) + r.depthChange = 0 := by simp [depthChange, hr]
    rw [List.cons_append, spansFrom, if_neg hl', hopen, List.append_assoc, spansFrom_inner hinner,
      List.cons_append, spansFrom, if_neg hr', hclose, ih, List.length_cons, List.length_append, List.length_cons]
    congr 1
    omega

theorem length_nonempty_le (start stop : Nat) : (Span.nonempty start stop).length ≤ 1 := by
  unfold Span.nonempty
  split <;> simp

theorem length_spansFrom_le {ts : List Token} (h : ∀ t ∈ ts, t.kind ≠ .comma) (i start : Nat) (d : Int) :
    (spansFrom i start d ts).length ≤ 1 := by
  induction ts generalizing i d with
  | nil => exact length_nonempty_le start i
  | cons t ts ih =>
    rw [List.forall_mem_cons] at h
    rw [spansFrom, if_neg (fun hc => h.1 hc.1)]
    exact ih h.2 _ _

/-! ## Places -/

/-- The places of tokens of which the first has the index `i` and the depth in front of it is `d`. -/
def placedFrom (i : Nat) (d : Int) : List Token → List Placed
  | [] => []
  | t :: ts => ⟨t, if t.kind = .rightParen then d - 1 else d, i⟩ :: placedFrom (i + 1) (d + t.depthChange) ts

theorem placed_eq (ts : List Token) : placed ts = placedFrom 0 0 ts := by
  have hall : ∀ (i : Nat) (d : Int), ((ts.zip (depthsFrom d ts)).zipIdx i).map
      (fun p => (⟨p.1.1, p.1.2, p.2⟩ : Placed)) = placedFrom i d ts := by
    induction ts with
    | nil => exact fun i d => rfl
    | cons t ts ih =>
      intro i d
      rw [depthsFrom, List.zip_cons_cons, List.zipIdx_cons, List.map_cons, ih, placedFrom]
  exact hall 0 0

theorem placedFrom_of_not_paren {t : Token} (ht : t.isParen = false) (i : Nat) (d : Int) (ts : List Token) :
    placedFrom i d (t :: ts) = ⟨t, d, i⟩ :: placedFrom (i + 1) d ts := by
  rw [placedFrom, if_neg (kind_of_not_paren ht).2, depthChange_of_not_paren ht, Int.add_zero]

theorem placedFrom_append (i : Nat) (d : Int) (ts us : List Token) :
    placedFrom i d (ts ++ us) = placedFrom i d ts ++ placedFrom (i + ts.length) (depthBehind d ts) us := by
  induction ts generalizing i d with
  | nil => rfl
  | cons t ts ih =>
    have hi : i + 1 + ts.length = i + (ts.length + 1) := by omega
    rw [List.cons_append, placedFrom, ih, placedFrom, List.cons_append, List.length_cons, depthBehind_cons, hi]

theorem mem_placedFrom {i : Nat} {d : Int} {ts : List Token} {p : Placed} (h : p ∈ placedFrom i d ts) :
    p.token ∈ ts ∧ i ≤ p.index ∧ ts[p.index - i]? = some p.token := by
  induction ts generalizing i d with
  | nil => cases h
  | cons t ts ih =>
    rw [placedFrom] at h
    rcases List.mem_cons.mp h with rfl | h
    · exact ⟨List.mem_cons_self .., Nat.le_refl _, by simp⟩
    · obtain ⟨hm, hi, hg⟩ := ih h
      refine ⟨List.mem_cons_of_mem _ hm, by omega, ?_⟩
      rw [show p.index - i = p.index - (i + 1) + 1 by omega, List.getElem?_cons_succ]
      exact hg

end Token

/-! ## Scans of a query body -/

namespace Select

theorem projectionEnd_inner {inner : List Token} (h : ∀ t ∈ inner, t.isParen = false) (i : Nat)
    (rest : List Token) : projectionEnd i 1 (inner ++ rest) = projectionEnd (i + inner.length) 1 rest := by
  induction inner generalizing i with
  | nil => rfl
  | cons t inner ih =>
    rw [List.forall_mem_cons] at h
    obtain ⟨hl, hr⟩ := Token.kind_of_not_paren h.1
    rw [List.cons_append, projectionEnd]
    split
    · next hk => exact absurd hk hl
    · next hk => exact absurd hk hr
    · rw [if_neg (by simp), ih h.2, List.length_cons]
      congr 1
      omega

theorem projectionEnd_nested {p : Token → Prop} {ts : List Token} (h : Token.Nested p ts)
    (hends : ∀ t ∈ ts, t.isOneOf projectionEnds = false) (i : Nat) (rest : List Token) :
    projectionEnd i 0 (ts ++ rest) = projectionEnd (i + ts.length) 0 rest := by
  induction h generalizing i with
  | nil => rfl
  | @plain t ts ht _ _ ih =>
    rw [List.forall_mem_cons] at hends
    obtain ⟨hl, hr⟩ := Token.kind_of_not_paren ht
    rw [List.cons_append, projectionEnd]
    split
    · next hk => exact absurd hk hl
    · next hk => exact absurd hk hr
    · rw [if_neg (by simp [hends.1]), ih hends.2, List.length_cons]
      congr 1
      omega
  | @group l inner r ts hl hinner hr _ ih =>
    have hts : ∀ t ∈ ts, t.isOneOf projectionEnds = false := fun t ht => hends t (by simp [ht])
    rw [List.cons_append, projectionEnd]
    simp only [hl]
    rw [Int.zero_add, List.append_assoc, projectionEnd_inner hinner, List.cons_append, projectionEnd]
    simp only [hr]
    rw [if_neg (by omega), Int.sub_self, ih hts, List.length_cons, List.length_append, List.length_cons]
    congr 1
    omega

theorem opensFromFunction_inner {inner : List Token} (h : ∀ t ∈ inner, t.isParen = false) (depth : Nat)
    (rest : List Token) : opensFromFunction depth (inner ++ rest) = opensFromFunction depth rest := by
  induction inner with
  | nil => rfl
  | cons t inner ih =>
    rw [List.forall_mem_cons] at h
    obtain ⟨hl, hr⟩ := Token.kind_of_not_paren h.1
    rw [List.cons_append, opensFromFunction]
    split
    · next hk => exact absurd hk hr
    · next hk => exact absurd hk hl
    · exact ih h.2

/-- Walking leftwards over a nested run leads to no parenthesis that is still open. -/
theorem opensFromFunction_nested {p : Token → Prop} {ts : List Token} (h : Token.Nested p ts)
    (rest : List Token) : opensFromFunction 0 (ts.reverse ++ rest) = opensFromFunction 0 rest := by
  induction h generalizing rest with
  | nil => rfl
  | @plain t ts ht _ _ ih =>
    rw [List.reverse_cons, List.append_assoc, ih]
    exact opensFromFunction_inner (fun u hu => by rwa [List.mem_singleton.mp hu]) 0 rest
  | @group l inner r ts hl hinner hr _ ih =>
    rw [List.reverse_cons, List.reverse_append, List.reverse_cons, List.append_assoc, List.append_assoc,
      List.append_assoc, ih, List.cons_append, List.nil_append, opensFromFunction]
    simp only [hr]
    rw [opensFromFunction_inner (by simpa using hinner), List.cons_append, List.nil_append, opensFromFunction]
    simp only [hl]
    rfl

end Select
end SqlLineage
