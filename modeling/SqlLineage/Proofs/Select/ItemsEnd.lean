import Mathlib.Tactic.MkIffOfInductiveProp
import SqlLineage.Proofs.Token.Depth
import SqlLineage.Select.Projection
import SqlLineage.Token.Scan

/-! # Where the items end and the tables begin

Two readers look for the `FROM` of the outermost `SELECT`. The reader of the comma list passes by a `FROM` that
introduces no table, as in `a IS DISTINCT FROM b`; the reader of the items, which counts parentheses from where the
items begin, stops at the first `FROM` at their depth whatever it is for.

* `Select.BeginsTables`: the `FROM` that introduces the tables of the outermost `SELECT`.
* `Select.Passes`: what stands in front of the items holds no `FROM` at their depth.
* `Select.projectionSpan_stop_eq_iff`: the items end where the tables begin just when no `FROM` of another use
  stands between the items. -/

namespace SqlLineage.Select
open SqlLineage.Token
set_option autoImplicit false

/-! ## What stands in front of the items -/

/-- From `a` to `b` no `FROM` stands at the depth in front of `a`, and `b` is at that depth again. -/
structure Passes (ts : List Token) (a b : Nat) : Prop where
  le : a ≤ b
  depth : depthBefore ts b = depthBefore ts a
  quiet : ∀ i, a ≤ i → i < b → depthAt ts i = depthBefore ts a → wordAt ts i "FROM" = false

section Passes
variable {ts : List Token} {a b c f : Nat}

theorem Passes.refl (ts : List Token) (a : Nat) : Passes ts a a :=
  ⟨Nat.le_refl _, rfl, fun _ ha hb => absurd hb (Nat.not_lt_of_le ha)⟩

theorem Passes.trans (hab : Passes ts a b) (hbc : Passes ts b c) : Passes ts a c := by
  refine ⟨Nat.le_trans hab.le hbc.le, hbc.depth.trans hab.depth, fun i ha hc hd => ?_⟩
  by_cases hb : i < b
  · exact hab.quiet i ha hb hd
  · exact hbc.quiet i (Nat.le_of_not_lt hb) hc (hd.trans hab.depth.symm)

/-- A `FROM` at the right depth is not passed by. -/
theorem Passes.le_from (h : Passes ts a b) (ha : a ≤ f) (hf : wordAt ts f "FROM" = true)
    (hd : depthAt ts f = depthBefore ts a) : b ≤ f := by
  refine Nat.le_of_not_lt fun hfb => ?_
  rw [h.quiet f ha hfb hd] at hf
  cases hf

theorem passes_token {t : Token} (ht : ts[a]? = some t) (hp : t.isParen = false) (hf : t.isWord "FROM" = false) :
    Passes ts a (a + 1) := by
  refine ⟨Nat.le_succ a, (depthAt_of_not_paren ht hp).2, fun i ha hb _ => ?_⟩
  obtain rfl : i = a := by omega
  rw [wordAt, ht]
  exact hf

theorem passes_word {w : String} (h : wordAt ts a w = true) (hw : w ≠ "FROM") : Passes ts a (a + 1) := by
  obtain ⟨t, ht, htw⟩ := exists_of_wordAt h
  refine passes_token ht (isParen_of_isWord htw) ?_
  unfold isWord at htw ⊢
  split
  · next x hx =>
    rw [hx] at htw
    have hxw : Text.foldCase x = w := eq_of_beq htw
    simpa [hxw] using hw
  · rfl

/-- A group is passed by; one that is never closed has no `FROM` at the depth in front of it behind it. -/
theorem passes_group (h : opensAt ts a = true) (ha : a ≤ f) (hf : wordAt ts f "FROM" = true)
    (hd : depthAt ts f = depthBefore ts a) : Passes ts a (behindGroup ts a) := by
  obtain ⟨t, ht, hk⟩ := exists_of_opensAt h
  obtain ⟨u, hu, huw⟩ := exists_of_wordAt hf
  have hopen : wordAt ts a "FROM" = false := by simp [wordAt, ht, isWord, hk]
  unfold behindGroup
  cases hclose : closing? ts a with
  | some j =>
    obtain ⟨hlt, ⟨v, hv, hvk⟩, hdepth, hdeep⟩ := closing?_depth h hclose
    refine ⟨Nat.le_succ_of_le (Nat.le_of_lt hlt), hdepth, fun i hai hij hid => ?_⟩
    rcases Nat.lt_or_eq_of_le (Nat.le_of_lt_succ hij) with hij | rfl
    · rcases Nat.lt_or_eq_of_le hai with hai | rfl
      · have := hdeep i hai hij
        omega
      · exact hopen
    · simp [wordAt, hv, isWord, hvk]
  | none =>
    rcases Nat.lt_or_eq_of_le ha with ha | rfl
    · have := lt_depthAt_of_closing?_eq_none h hclose ha (List.getElem?_eq_some_iff.mp hu).1
      omega
    · rw [hopen] at hf
      cases hf

variable (ha : a ≤ f) (hf : wordAt ts f "FROM" = true) (hd : depthAt ts f = depthBefore ts a)
include ha hf hd

theorem passes_quantifier : Passes ts a (behindQuantifier ts a) := by
  unfold behindQuantifier
  split
  · next hdistinct =>
    have hone := passes_word hdistinct (by decide)
    split
    · next hon =>
      rw [Bool.and_eq_true] at hon
      have htwo := hone.trans (passes_word hon.1 (by decide))
      exact htwo.trans (passes_group hon.2 (htwo.le_from ha hf hd) hf (hd.trans htwo.depth.symm))
    · exact hone
  · split
    · next hall => exact passes_word hall (by decide)
    · exact .refl ts a

theorem passes_count : Passes ts a (behindCount ts a) := by
  unfold behindCount
  split
  · next hk =>
    refine passes_group ?_ ha hf hd
    obtain ⟨t, ht, hkind⟩ := Option.map_eq_some_iff.mp hk
    simp [opensAt, ht, hkind]
  · next hk =>
    obtain ⟨t, ht, hkind⟩ := Option.map_eq_some_iff.mp hk
    exact passes_token ht (by simp [isParen, hkind]) (by simp [isWord, hkind])
  · exact .refl ts a

theorem passes_top : Passes ts a (behindTop ts a) := by
  unfold behindTop
  split
  · next htop =>
    have hone := passes_word htop (by decide)
    have hcount := hone.trans (passes_count (hone.le_from ha hf hd) hf (hd.trans hone.depth.symm))
    dsimp only
    split
    · next hpercent => exact hcount.trans (passes_word hpercent (by decide))
    · exact hcount
  · exact .refl ts a

theorem passes_start : Passes ts a (behindTop ts (behindQuantifier ts a)) := by
  have hquantifier := passes_quantifier ha hf hd
  exact hquantifier.trans (passes_top (hquantifier.le_from ha hf hd) hf (hd.trans hquantifier.depth.symm))

end Passes

/-! ## The table list -/

/-- The first `FROM` behind the first `SELECT` that stands at its depth and introduces a table; between the two the
`SELECT` is not left, and no other clause or query begins at its depth. -/
@[mk_iff]
structure BeginsTables (ts : List Token) (select f : Nat) : Prop where
  outermost : select? ts = some select
  behind : select < f
  word : wordAt ts f "FROM" = true
  depth : depthAt ts f = depthAt ts select
  table : isNonTableFrom ts f = false
  first : ∀ i < f, select < i → depthAt ts i = depthAt ts select → wordAt ts i "FROM" = true →
    isNonTableFrom ts i = true
  inside : ∀ i < f, select < i → depthAt ts select ≤ depthAt ts i
  single : ∀ i < f, select < i → depthAt ts i = depthAt ts select →
    ts[i]?.any (·.isOneOf ["INTO", "UNION", "EXCEPT", "INTERSECT"]) = false

instance (ts : List Token) (select f : Nat) : Decidable (BeginsTables ts select f) :=
  decidable_of_iff' _ (beginsTables_iff ts select f)

theorem isOneOf_projectionEnds (t : Token) :
    t.isOneOf projectionEnds = (t.isWord "FROM" || t.isOneOf ["INTO", "UNION", "EXCEPT", "INTERSECT"]) := by
  unfold isOneOf isWord
  cases t.kind <;> simp [projectionEnds, Bool.beq_eq_decide_eq]

section BeginsTables
variable {ts : List Token} {select f : Nat} (h : BeginsTables ts select f)
include h

theorem BeginsTables.lt_length : f < ts.length := by
  obtain ⟨t, ht, -⟩ := exists_of_wordAt h.word
  exact (List.getElem?_eq_some_iff.mp ht).1

/-- The reader of the comma list takes this `FROM`. -/
theorem BeginsTables.tableFrom? : tableFrom? ts select = some f := by
  obtain ⟨t, ht, htw⟩ := exists_of_wordAt h.word
  refine index_find?_placed.mpr ⟨h.behind, ⟨t, ht, ?_⟩, fun i u hi hif hu => ?_⟩
  · simp [h.depth, htw, h.table]
  · by_cases hd : depthAt ts i = depthAt ts select
    · by_cases hw : u.isWord "FROM" = true
      · have hother := h.first i hif hi hd (by rw [wordAt, hu]; exact hw)
        simp [hother]
      · simp [hw]
    · simp [hd]

/-- Behind the `SELECT` begins what stands in front of the items, at the depth of the `SELECT`. -/
theorem BeginsTables.depthBefore_succ : depthBefore ts (select + 1) = depthAt ts select := by
  obtain ⟨hlt, hword, -⟩ := List.findIdx?_eq_some_iff_getElem.mp h.outermost
  obtain ⟨hdepth, hbehind⟩ := depthAt_of_not_paren (List.getElem?_eq_getElem hlt) (isParen_of_isWord hword)
  rw [hbehind, hdepth]

theorem BeginsTables.passes_start :
    Passes ts (select + 1) (behindTop ts (behindQuantifier ts (select + 1))) :=
  Select.passes_start h.behind h.word (h.depth.trans h.depthBefore_succ.symm)

theorem BeginsTables.start_le : behindTop ts (behindQuantifier ts (select + 1)) ≤ f :=
  h.passes_start.le_from h.behind h.word (h.depth.trans h.depthBefore_succ.symm)

/-- Only a `FROM` can end the items in front of the table list. -/
theorem BeginsTables.endsClause_iff {i : Nat} (hi : select < i) (hif : i < f) :
    EndsClause ts (depthAt ts select) projectionEnds i ↔
      depthAt ts i = depthAt ts select ∧ wordAt ts i "FROM" = true := by
  have hinside := h.inside i hif hi
  have hget := List.getElem?_eq_getElem (Nat.lt_trans hif h.lt_length)
  constructor
  · rintro (hd | ⟨hd, hend⟩)
    · omega
    · have hother := h.single i hif hi hd
      rw [hget] at hend hother
      rw [Option.any_some] at hend hother
      rw [isOneOf_projectionEnds, hother, Bool.or_false] at hend
      exact ⟨hd, by rw [wordAt, hget]; exact hend⟩
  · rintro ⟨hd, hword⟩
    rw [wordAt, hget] at hword
    refine .inr ⟨hd, ?_⟩
    rw [hget, Option.any_some, isOneOf_projectionEnds]
    exact Bool.or_eq_true_iff.mpr (.inl hword)

end BeginsTables

/-- The items end where the tables begin just when no `FROM` that introduces no table stands between them at the depth
of the `SELECT`; whatever precedes the items ends in front of the tables either way. -/
theorem projectionSpan_stop_eq_iff {ts : List Token} {select f : Nat} (h : BeginsTables ts select f) :
    tableFrom? ts select = some f ∧ (projectionSpan ts select).start ≤ f ∧
      ((projectionSpan ts select).stop = f ↔
        ∀ i < f, select < i → depthAt ts i = depthAt ts select → wordAt ts i "FROM" = false) := by
  have hpasses := h.passes_start
  have hlength := Nat.le_trans h.start_le (Nat.le_of_lt h.lt_length)
  have hspan : projectionSpan ts select = ⟨behindTop ts (behindQuantifier ts (select + 1)),
      clauseEnd ts (behindTop ts (behindQuantifier ts (select + 1))) (depthAt ts select) projectionEnds⟩ := by
    rw [projectionSpan, Nat.min_eq_left hlength, projectionEnd_eq hlength, hpasses.depth, h.depthBefore_succ]
  rw [hspan, clauseEnd_eq_iff h.lt_length]
  refine ⟨h.tableFrom?, h.start_le, ?_⟩
  constructor
  · rintro ⟨-, -, hnone⟩ i hif hi hd
    refine Bool.eq_false_iff.mpr fun hword => ?_
    -- a FROM in front of the items would lie on the way to them
    by_cases hb : i < behindTop ts (behindQuantifier ts (select + 1))
    · have hquiet := hpasses.quiet i hi hb (hd.trans h.depthBefore_succ.symm)
      rw [hquiet] at hword
      cases hword
    · exact hnone i (Nat.le_of_not_lt hb) hif ((h.endsClause_iff hi hif).mpr ⟨hd, hword⟩)
  · intro hnone
    refine ⟨h.start_le, .inr ⟨h.depth, ?_⟩, fun i hb hif hend => ?_⟩
    · obtain ⟨t, ht, htw⟩ := exists_of_wordAt h.word
      rw [ht, Option.any_some, isOneOf_projectionEnds, htw, Bool.true_or]
    · have hi : select < i := Nat.lt_of_lt_of_le hpasses.le hb
      obtain ⟨hd, hword⟩ := (h.endsClause_iff hi hif).mp hend
      rw [hnone i hif hi hd] at hword
      cases hword

/-- Each `FROM` but the last stands in parentheses. -/
theorem projectionSpan_stop_eq_iff_nested :
    let ts := scan "SELECT DISTINCT ON (EXTRACT(YEAR FROM d)) EXTRACT(YEAR FROM d) AS y, (SELECT 1 FROM u) FROM t"
    BeginsTables ts 0 26 ∧ (projectionSpan ts 0).stop = 26 := by
  intro ts
  have h : BeginsTables ts 0 26 := by decide +kernel
  exact ⟨h, (projectionSpan_stop_eq_iff h).2.2.mpr (by decide +kernel)⟩

/-- The items end in front of `b`, although the tables begin in front of `t`. -/
theorem distinct_from_ends_items :
    let ts := scan "SELECT a IS DISTINCT FROM b AS d, c FROM t"
    BeginsTables ts 0 10 ∧ (projectionSpan ts 0).stop = 4 := by
  decide +kernel

end SqlLineage.Select
