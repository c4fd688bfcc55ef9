import Mathlib.Data.Nat.SuccPred
import Mathlib.Order.SuccPred.Archimedean
import Mathlib.Tactic.MkIffOfInductiveProp
import SqlLineage.Proofs.Checked.Scope
import SqlLineage.Proofs.Token.Depth
import SqlLineage.Token.Scan

/-! # The parenthesis around a FROM

To tell whether a `FROM` introduces a table the program walks leftwards from it and counts. What it comes to is the
innermost of the parentheses that are open at the `FROM`, as matching from left to right tells.

* `Token.OpenAt`: a parenthesis in front of an index that is not closed in front of it.
* `Token.isGreatest_openAt_iff`: the innermost one of these is the last place from which the depth has gone up.
* `Select.opensFromFunction_iff`: the walk leftwards finds that place.
* `Select.isNonTableFrom_iff`: what is in front of the innermost open parenthesis decides. -/

namespace SqlLineage
set_option autoImplicit false

namespace Token

/-! ## Open parentheses -/

/-- The parenthesis at `j` opens in front of `i`, and none closes it up to there. -/
@[mk_iff]
structure OpenAt (ts : List Token) (i j : Nat) : Prop where
  lt : j < i
  opens : opensAt ts j = true
  unclosed : ∀ c ∈ closing? ts j, i < c

instance (ts : List Token) (i j : Nat) : Decidable (OpenAt ts i j) :=
  decidable_of_iff' _ (openAt_iff ts i j)

/-- In front of `j` the depth is less than `d`, and `j` stands in front of `i`. -/
def LowerAt (ts : List Token) (i : Nat) (d : Int) (j : Nat) : Prop :=
  j < i ∧ depthBefore ts j < d

section Open
variable {ts : List Token} {i j : Nat}

/-- Inside of a parenthesis the depth is greater than in front of it. -/
theorem OpenAt.lowerAt (h : OpenAt ts i j) {t : Token} (ht : ts[i]? = some t) (hparen : t.isParen = false) :
    LowerAt ts i (depthBefore ts i) j := by
  refine ⟨h.lt, ?_⟩
  rw [← (depthAt_of_not_paren ht hparen).1]
  cases hclose : closing? ts j with
  | none => exact lt_depthAt_of_closing?_eq_none h.opens hclose h.lt (List.getElem?_eq_some_iff.mp ht).1
  | some c => exact (closing?_depth h.opens hclose).2.2.2 i h.lt (h.unclosed c hclose)

/-- The last place with a lower depth in front of it is a parenthesis that is open. -/
theorem openAt_of_isGreatest (h : IsGreatest {j | LowerAt ts i (depthBefore ts i) j} j) {t : Token}
    (ht : ts[i]? = some t) (hparen : t.isParen = false) : OpenAt ts i j := by
  obtain ⟨⟨hlt, hlower⟩, hlast⟩ := h
  have hilt := (List.getElem?_eq_some_iff.mp ht).1
  have hrest : ∀ k, j < k → k ≤ i → depthBefore ts i ≤ depthBefore ts k := by
    intro k hjk hki
    by_contra hk
    have hne : k ≠ i := by
      rintro rfl
      exact hk (Int.le_refl _)
    have hle : k ≤ j := hlast ⟨by omega, by omega⟩
    omega
  have hget := List.getElem?_eq_getElem (Nat.lt_trans hlt hilt)
  have hopens : opensAt ts j = true := by
    -- only an opening parenthesis lets the depth go up
    have hnext := hrest (j + 1) (Nat.lt_succ_self j) hlt
    rw [depthBefore_succ hget] at hnext
    have hkind : ts[j].kind = .leftParen := kind_of_depthChange_pos (by omega)
    simp [opensAt, hget, hkind]
  refine ⟨hlt, hopens, fun c hc => ?_⟩
  obtain ⟨hjc, ⟨u, hu, hkind⟩, hbehind, -⟩ := closing?_depth hopens hc
  by_contra hci
  have hne : c ≠ i := by
    rintro rfl
    rw [ht] at hu
    exact (kind_of_not_paren hparen).2 (Option.some.inj hu ▸ hkind)
  -- behind the group that `c` closes the depth is as low again as in front of `j`
  have hle := hrest (c + 1) (by omega) (by omega)
  omega

/-- The innermost open parenthesis is the last place from which the depth has gone up. -/
theorem isGreatest_openAt_iff {t : Token} (ht : ts[i]? = some t) (hparen : t.isParen = false) :
    IsGreatest {j | OpenAt ts i j} j ↔ IsGreatest {j | LowerAt ts i (depthBefore ts i) j} j := by
  have hbound : BddAbove {j | LowerAt ts i (depthBefore ts i) j} := ⟨i, fun k hk => Nat.le_of_lt hk.1⟩
  constructor
  · rintro ⟨hopen, hinner⟩
    have hlower := hopen.lowerAt ht hparen
    obtain ⟨k, hk⟩ := hbound.exists_isGreatest_of_nonempty ⟨j, hlower⟩
    have hkj : k ≤ j := hinner (openAt_of_isGreatest hk ht hparen)
    have hjk : j ≤ k := hk.2 hlower
    rwa [Nat.le_antisymm hjk hkj]
  · intro h
    exact ⟨openAt_of_isGreatest h ht hparen, fun k hk => h.2 (hk.lowerAt ht hparen)⟩

theorem isGreatest_lowerAt_of_lower {d : Int} (h : depthBefore ts i < d) :
    IsGreatest {j | LowerAt ts (i + 1) d j} i :=
  ⟨⟨Nat.lt_succ_self i, h⟩, fun _ hj => Nat.le_of_lt_succ hj.1⟩

theorem lowerAt_succ_iff {d : Int} (h : d ≤ depthBefore ts i) : LowerAt ts (i + 1) d j ↔ LowerAt ts i d j := by
  constructor
  · rintro ⟨hlt, hd⟩
    have hne : j ≠ i := by
      rintro rfl
      omega
    exact ⟨by omega, hd⟩
  · rintro ⟨hlt, hd⟩
    exact ⟨Nat.lt_succ_of_lt hlt, hd⟩

end Open
end Token

/-! ## The walk leftwards -/

namespace Select
open SqlLineage.Token

/-- One of the functions with a `FROM` among their arguments stands in front of the index. -/
def CallsFromFunction (ts : List Token) (j : Nat) : Prop :=
  (before? ts j).any (·.isOneOf fromFunctions) = true

instance (ts : List Token) (j : Nat) : Decidable (CallsFromFunction ts j) :=
  inferInstanceAs (Decidable (_ = true))

/-- With `depth` groups still to be passed by, the walk from `i` leftwards finds the last place at which the depth is
lower than outside of these groups. -/
theorem opensFromFunction_iff {ts : List Token} {i : Nat} (hi : i ≤ ts.length) (depth : Nat) :
    opensFromFunction depth (ts.take i).reverse = true ↔
      ∃ j, IsGreatest {j | LowerAt ts i (depthBefore ts i - depth) j} j ∧ CallsFromFunction ts j := by
  induction i generalizing depth with
  | zero =>
    refine iff_of_false (by simp [opensFromFunction]) ?_
    rintro ⟨j, ⟨⟨hlt, -⟩, -⟩, -⟩
    exact Nat.not_lt_zero j hlt
  | succ i ih =>
    have hlt : i < ts.length := hi
    have hget := List.getElem?_eq_getElem hlt
    have hnext := depthBefore_succ hget
    -- the walk goes on with the same aim
    have hgo : ∀ depth' : Nat, depthBefore ts i - depth' = depthBefore ts (i + 1) - depth →
        (opensFromFunction depth' (ts.take i).reverse = true ↔
          ∃ j, IsGreatest {j | LowerAt ts (i + 1) (depthBefore ts (i + 1) - depth) j} j ∧ CallsFromFunction ts j) := by
      intro depth' hsame
      rw [ih (Nat.le_of_lt hlt) depth', hsame]
      have hset : {j | LowerAt ts (i + 1) (depthBefore ts (i + 1) - depth) j} =
          {j | LowerAt ts i (depthBefore ts (i + 1) - depth) j} := by
        ext j
        exact lowerAt_succ_iff (by omega)
      rw [hset]
    rw [List.take_add_one, hget, Option.toList_some, List.reverse_append, List.reverse_singleton,
      List.singleton_append, opensFromFunction]
    split
    · next hk =>
      rw [depthChange_eq_neg_one_iff.mpr hk] at hnext
      exact hgo (depth + 1) (by omega)
    · next hk =>
      rw [depthChange_eq_one_iff.mpr hk] at hnext
      split
      · next hzero =>
        subst hzero
        have hlower : depthBefore ts i < depthBefore ts (i + 1) - (0 : Nat) := by omega
        have hgreatest := isGreatest_lowerAt_of_lower hlower
        have hbefore : (ts.take i).reverse.head? = before? ts i := by
          rw [List.head?_reverse, Checked.before?_eq_getLast? (Nat.le_of_lt hlt)]
        rw [hbefore]
        constructor
        · exact fun h => ⟨i, hgreatest, h⟩
        · rintro ⟨j, hj, h⟩
          rwa [hj.unique hgreatest] at h
      · next hdepth => exact hgo (depth - 1) (by omega)
    · next hr hl =>
      have hparen : ts[i].isParen = false := by simpa [isParen] using ⟨hl, hr⟩
      rw [depthChange_of_not_paren hparen] at hnext
      exact hgo depth (by omega)

/-- A `FROM` introduces no table just when `DISTINCT` stands in front of it or the innermost parenthesis that is open
there belongs to a function with a `FROM` among its arguments. So whatever calls stand around it, it does introduce a
table in a subquery, which has a parenthesis of its own. -/
theorem isNonTableFrom_iff {ts : List Token} {i : Nat} (hi : wordAt ts i "FROM" = true) :
    (isNonTableFrom ts i = true ↔ (before? ts i).any (·.isWord "DISTINCT") = true ∨
      ∃ j, IsGreatest {j | OpenAt ts i j} j ∧ CallsFromFunction ts j) ∧
    ∀ j, IsGreatest {j | OpenAt ts i j} j → ¬ CallsFromFunction ts j →
      (before? ts i).any (·.isWord "DISTINCT") = false → isNonTableFrom ts i = false := by
  obtain ⟨t, ht, hword⟩ := exists_of_wordAt hi
  have hparen := isParen_of_isWord hword
  have hle : i ≤ ts.length := Nat.le_of_lt (List.getElem?_eq_some_iff.mp ht).1
  have hiff : isNonTableFrom ts i = true ↔ (before? ts i).any (·.isWord "DISTINCT") = true ∨
      ∃ j, IsGreatest {j | OpenAt ts i j} j ∧ CallsFromFunction ts j := by
    rw [isNonTableFrom, Bool.or_eq_true, opensFromFunction_iff hle 0]
    simp only [isGreatest_openAt_iff ht hparen, Int.natCast_zero, Int.sub_zero]
  refine ⟨hiff, fun j hj hnot hdistinct => ?_⟩
  rw [← Bool.not_eq_true, hiff, hdistinct]
  rintro (hfalse | ⟨k, hk, hcalls⟩)
  · cases hfalse
  · rw [hk.unique hj] at hcalls
    exact hnot hcalls

/-- The `FROM` at 8 stands in a subquery among the arguments of `EXTRACT`, which has another `FROM` at 4. -/
theorem isNonTableFrom_iff_subquery :
    let ts := scan "SELECT EXTRACT(YEAR FROM (SELECT d FROM t)) FROM u"
    isNonTableFrom ts 4 = true ∧ wordAt ts 8 "FROM" = true ∧ OpenAt ts 8 2 ∧ CallsFromFunction ts 2 ∧
      IsGreatest {j | OpenAt ts 8 j} 5 ∧ isNonTableFrom ts 8 = false := by
  have hfrom : wordAt (scan "SELECT EXTRACT(YEAR FROM (SELECT d FROM t)) FROM u") 8 "FROM" = true := by
    decide +kernel
  have hgreatest : IsGreatest {j | OpenAt (scan "SELECT EXTRACT(YEAR FROM (SELECT d FROM t)) FROM u") 8 j} 5 := by
    refine ⟨by decide +kernel, fun k hk => ?_⟩
    have hbelow : ∀ k < 8, opensAt (scan "SELECT EXTRACT(YEAR FROM (SELECT d FROM t)) FROM u") k = true → k ≤ 5 := by
      decide +kernel
    exact hbelow k hk.lt hk.opens
  have hsubquery := (isNonTableFrom_iff hfrom).2 5 hgreatest (by decide +kernel) (by decide +kernel)
  exact ⟨by decide +kernel, hfrom, by decide +kernel, by decide +kernel, hgreatest, hsubquery⟩

end Select
end SqlLineage
