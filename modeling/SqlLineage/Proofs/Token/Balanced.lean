import Mathlib.Tactic.MkIffOfInductiveProp
import SqlLineage.Proofs.Checked.Token
import SqlLineage.Proofs.Token.Depth
import SqlLineage.Proofs.Token.Name

/-! # Balanced tokens

* `Token.Balanced`: no parenthesis is closed that was not opened, and none is left open.
* `Token.Balanced.append_iff`, `Token.Balanced.wrap`: balanced tokens side by side, and in parentheses.
* `Token.closing?_group`: a parenthesis in front of balanced tokens is closed by the one right behind them.
* `Token.closing?_eq_some_iff`: and by no other one.
* `Token.Group`: balanced tokens in parentheses, as a list of names and as the body of a query. -/

namespace SqlLineage.Token
set_option autoImplicit false

/-! ## Depths behind tokens -/

theorem depthBehind_append (d : Int) (ts us : List Token) :
    depthBehind d (ts ++ us) = depthBehind (depthBehind d ts) us :=
  List.foldl_append

theorem depthBehind_add (c d : Int) (ts : List Token) : depthBehind (c + d) ts = c + depthBehind d ts := by
  induction ts generalizing d with
  | nil => rfl
  | cons t ts ih => rw [depthBehind_cons, depthBehind_cons, Int.add_assoc, ih]

theorem depthBehind_eq (d : Int) (ts : List Token) : depthBehind d ts = d + depthBehind 0 ts := by
  have h := depthBehind_add d 0 ts
  rwa [Int.add_zero] at h

/-! ## Balanced tokens -/

/-- Parentheses match: the depth is never below zero, and it is zero in the end. -/
structure Balanced (ts : List Token) : Prop where
  nonneg : ∀ i, 0 ≤ depthBefore ts i
  closed : depthBehind 0 ts = 0

theorem balanced_iff (ts : List Token) :
    Balanced ts ↔ (∀ i < ts.length + 1, 0 ≤ depthBefore ts i) ∧ depthBehind 0 ts = 0 := by
  constructor
  · rintro ⟨hnonneg, hclosed⟩
    exact ⟨fun i _ => hnonneg i, hclosed⟩
  · rintro ⟨hnonneg, hclosed⟩
    refine ⟨fun i => ?_, hclosed⟩
    by_cases hi : i < ts.length + 1
    · exact hnonneg i hi
    · have hend : depthBefore ts i = 0 := by rw [depthBefore, List.take_of_length_le (by omega), hclosed]
      exact Int.le_of_eq hend.symm

instance (ts : List Token) : Decidable (Balanced ts) :=
  decidable_of_iff' _ (balanced_iff ts)

theorem balanced_nil : Balanced [] where
  nonneg := by simp [depthBefore, depthBehind]
  closed := rfl

theorem depthBefore_append (ts us : List Token) (i : Nat) :
    depthBefore (ts ++ us) i = depthBefore ts i + depthBefore us (i - ts.length) := by
  rw [depthBefore, List.take_append, depthBehind_append, depthBehind_eq]
  rfl

/-- Balanced tokens in front make no difference. -/
theorem Balanced.append_iff {ts us : List Token} (h : Balanced ts) : Balanced (ts ++ us) ↔ Balanced us := by
  have hclosed : depthBehind 0 (ts ++ us) = depthBehind 0 us := by rw [depthBehind_append, h.closed]
  constructor
  · intro hall
    refine ⟨fun i => ?_, hclosed.symm.trans hall.closed⟩
    have hbehind : depthBefore ts (ts.length + i) = 0 := by
      rw [depthBefore, List.take_of_length_le (Nat.le_add_right ..), h.closed]
    have hi := hall.nonneg (ts.length + i)
    rwa [depthBefore_append, hbehind, Int.zero_add, Nat.add_sub_cancel_left] at hi
  · intro hus
    refine ⟨fun i => ?_, hclosed.trans hus.closed⟩
    rw [depthBefore_append]
    exact Int.add_nonneg (h.nonneg i) (hus.nonneg _)

theorem balanced_cons_iff {t : Token} (ht : t.isParen = false) {ts : List Token} :
    Balanced (t :: ts) ↔ Balanced ts := by
  have hzero : ∀ us : List Token, (∀ u ∈ us, u ∈ [t]) → depthBehind 0 us = 0 := by
    intro us hus
    exact depthBehind_of_not_paren (fun u hu => List.mem_singleton.mp (hus u hu) ▸ ht) 0
  have hone : Balanced [t] :=
    ⟨fun i => Int.le_of_eq (hzero _ fun _ => List.mem_of_mem_take).symm, hzero _ fun _ => id⟩
  exact hone.append_iff

/-- What stands first opens, if it is a parenthesis at all. -/
theorem Balanced.opening_of_isParen {t : Token} {ts : List Token} (h : Balanced (t :: ts)) (ht : t.isParen = true) :
    t.kind = .leftParen := by
  have hkind : t.kind = .leftParen ∨ t.kind = .rightParen := by simpa [isParen] using ht
  rcases hkind with hopen | hclose
  · exact hopen
  · have hone := h.nonneg 1
    rw [depthBefore, List.take_succ_cons, List.take_zero, depthBehind_cons,
      depthChange_eq_neg_one_iff.mpr hclose] at hone
    exact absurd hone (by decide)

theorem Balanced.wrap {ts : List Token} (h : Balanced ts) {o c : Token} (ho : o.kind = .leftParen)
    (hc : c.kind = .rightParen) : Balanced (o :: (ts ++ [c])) := by
  have hopen : (0 : Int) + o.depthChange = 1 := by simp [depthChange, ho]
  have hclose : c.depthChange = -1 := depthChange_eq_neg_one_iff.mpr hc
  have hall : depthBehind 1 (ts ++ [c]) = 0 := by
    rw [depthBehind_append, depthBehind_eq 1, h.closed, depthBehind_cons, hclose]
    rfl
  refine ⟨fun i => ?_, ?_⟩
  · cases i with
    | zero => exact Int.le_refl 0
    | succ i =>
      rw [depthBefore, List.take_succ_cons, depthBehind_cons, hopen]
      by_cases hi : i ≤ ts.length
      · have hinner : 0 ≤ depthBehind 0 (ts.take i) := h.nonneg i
        rw [List.take_append_of_le_length hi, depthBehind_eq]
        omega
      · have hlength : (ts ++ [c]).length ≤ i := by
          rw [List.length_append, List.length_singleton]
          omega
        exact Int.le_of_eq (by rw [List.take_of_length_le hlength, hall])
  · rw [depthBehind_cons, hopen, hall]

/-- Where the depth stays above zero until it is one, the next closing parenthesis is the one that is looked for. -/
theorem closingFrom_group {d : Int} {us : List Token} (hdeep : ∀ i, 0 < depthBehind d (us.take i))
    (hone : depthBehind d us = 1) {c : Token} (hc : c.kind = .rightParen) (i : Nat) (rest : List Token) :
    closingFrom i d (us ++ c :: rest) = some (i + us.length) := by
  induction us generalizing i d with
  | nil =>
    rw [List.nil_append, closingFrom, if_pos ⟨hc, hone⟩]
    rfl
  | cons t us ih =>
    have hnot : ¬ (t.kind = .rightParen ∧ d = 1) := by
      rintro ⟨ht, rfl⟩
      have hfirst := hdeep 1
      simp [depthBehind, depthChange, ht] at hfirst
    rw [List.cons_append, closingFrom, if_neg hnot, ih (fun j => hdeep (j + 1)) hone, List.length_cons]
    congr 1
    omega

theorem closing?_group {inner : List Token} (h : Balanced inner) {o c : Token} (ho : o.kind = .leftParen)
    (hc : c.kind = .rightParen) (pre rest : List Token) :
    closing? (pre ++ o :: (inner ++ c :: rest)) pre.length = some (pre.length + 1 + inner.length) := by
  have hchange : (0 : Int) + o.depthChange = 1 := by simp [depthChange, ho]
  have hdeep : ∀ i, 0 < depthBehind 1 (inner.take i) := by
    intro i
    have hi : 0 ≤ depthBehind 0 (inner.take i) := h.nonneg i
    rw [depthBehind_eq]
    omega
  have hone : depthBehind 1 inner = 1 := by
    rw [depthBehind_eq, h.closed]
    rfl
  rw [closing?, List.drop_left, closingFrom, if_neg (by simp [ho]), hchange, closingFrom_group hdeep hone hc]

/-- A token that does not close the group keeps the depth above zero. -/
theorem pos_depth_behind {d : Int} (hd : 0 < d) {t : Token} (h : ¬ (t.kind = .rightParen ∧ d = 1)) :
    0 < d + t.depthChange := by
  unfold depthChange
  split
  · omega
  · next hk =>
    have hne : d ≠ 1 := fun hone => h ⟨hk, hone⟩
    omega
  · omega

/-- What stands in front of the parenthesis that is found brings the depth to one and keeps it above zero. -/
theorem exists_of_closingFrom {i j : Nat} {d : Int} {us : List Token} (hd : 0 < d)
    (h : closingFrom i d us = some j) :
    ∃ inner c rest, us = inner ++ c :: rest ∧ c.kind = .rightParen ∧ (∀ k, 0 < depthBehind d (inner.take k)) ∧
      depthBehind d inner = 1 ∧ j = i + inner.length := by
  induction us generalizing i d with
  | nil => cases h
  | cons t us ih =>
    rw [closingFrom] at h
    split at h
    · next hclose =>
      obtain ⟨hk, rfl⟩ := hclose
      exact ⟨[], t, us, rfl, hk, fun _ => by simp [depthBehind], rfl, (Option.some.inj h).symm⟩
    · next hnot =>
      obtain ⟨inner, c, rest, rfl, hc, hdeep, hone, rfl⟩ := ih (pos_depth_behind hd hnot) h
      refine ⟨t :: inner, c, rest, rfl, hc, fun k => ?_, hone, by rw [List.length_cons]; omega⟩
      cases k with
      | zero => exact hd
      | succ k => exact hdeep k

theorem Balanced.depthAt_nonneg {ts : List Token} (h : Balanced ts) {i : Nat} (hi : i < ts.length) :
    0 ≤ depthAt ts i := by
  have hget := List.getElem?_eq_getElem hi
  rw [depthAt_eq hget]
  split
  · next hk =>
    have hnext := h.nonneg (i + 1)
    have hchange : ts[i].depthChange = -1 := depthChange_eq_neg_one_iff.mpr hk
    rw [depthBefore_succ hget, hchange] at hnext
    exact hnext
  · exact h.nonneg i

/-- Balanced tokens come back to where they begin, and from anywhere inside they do not go up. -/
theorem Balanced.depthBehind_drop {ts : List Token} (h : Balanced ts) (i : Nat) : depthBehind 0 (ts.drop i) ≤ 0 := by
  have hsplit := depthBehind_append 0 (ts.take i) (ts.drop i)
  have hnonneg : 0 ≤ depthBehind 0 (ts.take i) := h.nonneg i
  rw [List.take_append_drop, h.closed, depthBehind_eq] at hsplit
  omega

theorem pos_depthBehind_of_closingFrom {i : Nat} {d : Int} {us : List Token} (hd : 0 < d)
    (h : closingFrom i d us = none) : 0 < depthBehind d us := by
  induction us generalizing i d with
  | nil => exact hd
  | cons t us ih =>
    rw [closingFrom] at h
    split at h
    · cases h
    · next hnot =>
      exact ih (pos_depth_behind hd hnot) h

theorem Balanced.exists_closing? {ts : List Token} (h : Balanced ts) {i : Nat} (hi : opensAt ts i = true) :
    ∃ j, closing? ts i = some j := by
  obtain ⟨t, ht, hk⟩ := exists_of_opensAt hi
  obtain ⟨hlt, hget⟩ := List.getElem?_eq_some_iff.mp ht
  have hchange : (0 : Int) + t.depthChange = 1 := by simp [depthChange, hk]
  refine Option.ne_none_iff_exists'.mp fun hnone => ?_
  have hdown := h.depthBehind_drop i
  rw [List.drop_eq_getElem_cons hlt, hget, depthBehind_cons, hchange] at hdown
  rw [closing?_eq_closingFrom hi] at hnone
  have hup := pos_depthBehind_of_closingFrom (by decide) hnone
  omega

/-! ## Groups -/

/-- Tokens in a pair of parentheses. -/
structure Group where
  opening : Token
  inner : List Token
  closing : Token

namespace Group

def tokens (g : Group) : List Token := g.opening :: (g.inner ++ [g.closing])

@[mk_iff]
structure Matched (g : Group) : Prop where
  opening : g.opening.kind = .leftParen
  inner : Balanced g.inner
  closing : g.closing.kind = .rightParen

instance (g : Group) : Decidable g.Matched :=
  decidable_of_iff' _ (matched_iff g)

theorem tokens_append (g : Group) (rest : List Token) :
    g.tokens ++ rest = g.opening :: (g.inner ++ g.closing :: rest) := by
  simp [tokens]

theorem length_tokens (g : Group) : g.tokens.length = g.inner.length + 2 := by
  simp [tokens]

theorem Matched.opensAt {g : Group} (h : g.Matched) (pre rest : List Token) :
    Token.opensAt (pre ++ (g.tokens ++ rest)) pre.length = true := by
  simp [Token.opensAt, tokens_append, h.opening]

theorem Matched.closing? {g : Group} (h : g.Matched) (pre rest : List Token) :
    Token.closing? (pre ++ (g.tokens ++ rest)) pre.length = some (pre.length + 1 + g.inner.length) := by
  rw [tokens_append]
  exact closing?_group h.inner h.opening h.closing pre rest

theorem span_of_inner (g : Group) (pre rest : List Token) :
    Span.of ⟨pre.length + 1, pre.length + 1 + g.inner.length⟩ (pre ++ (g.tokens ++ rest)) = g.inner := by
  rw [tokens_append, Span.of, ← List.drop_drop, List.drop_left, List.drop_succ_cons, List.drop_zero,
    Nat.add_sub_cancel_left, List.take_left]

theorem drop_tokens (g : Group) (pre rest : List Token) :
    (pre ++ (g.tokens ++ rest)).drop (pre.length + 1 + g.inner.length + 1) = rest := by
  have hlength : pre.length + 1 + g.inner.length + 1 = (pre ++ g.tokens).length := by
    rw [List.length_append, length_tokens]
    omega
  rw [hlength, ← List.append_assoc, List.drop_left]

end Group

/-- A matched group opens at `i`, and its last token stands at `j`. -/
def Encloses (ts : List Token) (i j : Nat) : Prop :=
  ∃ pre g rest, ts = pre ++ (Group.tokens g ++ rest) ∧ g.Matched ∧ pre.length = i ∧ pre.length + 1 + g.inner.length = j

theorem Encloses.opensAt {ts : List Token} {i j : Nat} (h : Encloses ts i j) : opensAt ts i = true := by
  obtain ⟨pre, g, rest, rfl, hg, rfl, -⟩ := h
  exact hg.opensAt pre rest

/-- The parenthesis that is found closes a matched group. -/
theorem closing?_eq_some_iff {ts : List Token} {i j : Nat} (hi : opensAt ts i = true) :
    closing? ts i = some j ↔ Encloses ts i j := by
  constructor
  · intro h
    obtain ⟨o, ho, hk⟩ := exists_of_opensAt hi
    obtain ⟨hlt, hget⟩ := List.getElem?_eq_some_iff.mp ho
    rw [closing?_eq_closingFrom hi] at h
    obtain ⟨inner, c, rest, hrest, hc, hdeep, hone, rfl⟩ := exists_of_closingFrom (by decide) h
    have hinner : Balanced inner := by
      refine ⟨fun k => ?_, ?_⟩
      · have hpos := hdeep k
        rw [depthBehind_eq] at hpos
        exact Int.le_of_lt_add_one (by rw [depthBefore]; omega)
      · rw [depthBehind_eq] at hone
        omega
    refine ⟨ts.take i, ⟨o, inner, c⟩, rest, ?_, ⟨hk, hinner, hc⟩, List.length_take_of_le (Nat.le_of_lt hlt), ?_⟩
    · rw [Group.tokens_append, ← hrest, ← hget, ← List.drop_eq_getElem_cons hlt, List.take_append_drop]
    · rw [List.length_take_of_le (Nat.le_of_lt hlt)]
  · rintro ⟨pre, g, rest, rfl, hg, rfl, rfl⟩
    exact hg.closing? pre rest

theorem closing?_eq_none_iff {ts : List Token} {i : Nat} (hi : opensAt ts i = true) :
    closing? ts i = none ↔ ∀ j, ¬ Encloses ts i j := by
  rw [Option.eq_none_iff_forall_ne_some]
  exact forall_congr' fun j => not_congr (closing?_eq_some_iff hi)

end SqlLineage.Token
