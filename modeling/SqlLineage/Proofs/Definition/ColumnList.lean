import Mathlib.Logic.Relation
import SqlLineage.Definition

/-! # Explicit column lists, one column after the other

A column list renames the columns from left to right, and at every step the lineage records that end in the old
name follow. A record that has followed its column is not told apart from one that ends in a later column, so a
new name that a later column still has hands the record on.

* `Definition.renamings`, `Definition.HandsOn`: the renamings that a list asks for, and which of them hands its
  records on to which.
* `Definition.exists_rest`: a record comes to rest where the renamings that hand it on end.
* `Definition.renameColumns_follows_iff`: so the records follow their columns just when no column that has any
  hands them on to another name. -/

namespace SqlLineage.Definition
set_option autoImplicit false

/-! ## One record -/

/-- What a record that ends in `target` ends in behind the renamings `ps`, each from an old name to a new one. -/
def carried (ps : List (String × String)) (target : String) : String :=
  ps.foldl (fun n p => if n = p.1 then p.2 else n) target

theorem carried_cons (p : String × String) (ps : List (String × String)) (n : String) :
    carried (p :: ps) n = carried ps (if n = p.1 then p.2 else n) :=
  rfl

theorem carried_append (ps qs : List (String × String)) (n : String) :
    carried (ps ++ qs) n = carried qs (carried ps n) :=
  List.foldl_append

theorem carried_of_not_mem {ps : List (String × String)} {n : String} (h : n ∉ ps.map Prod.fst) :
    carried ps n = n := by
  induction ps with
  | nil => rfl
  | cons p ps ih =>
    rw [List.map_cons, List.mem_cons, not_or] at h
    rw [carried_cons, if_neg h.1, ih h.2]

theorem foldl_retarget (ps : List (String × String)) (rs : List LineageRecord) :
    ps.foldl (fun rs p => retarget p.1 p.2 rs) rs =
      rs.map fun r => { r with targetColumn := carried ps r.targetColumn } := by
  induction ps generalizing rs with
  | nil => exact (List.map_id rs).symm
  | cons p ps ih =>
    rw [List.foldl_cons, ih, retarget, List.map_map]
    refine List.map_congr_left fun r _ => ?_
    rw [carried_cons, Function.comp_apply]
    split <;> rfl

/-- A record whose column has the old name of the renaming at `i` gets the new one there, and then only the
renamings behind it matter. -/
theorem carried_of_getElem {ps : List (String × String)} (h : (ps.map Prod.fst).Nodup) {i : Nat}
    {p : String × String} (hi : ps[i]? = some p) : carried ps p.1 = carried (ps.drop (i + 1)) p.2 := by
  obtain ⟨hlt, hget⟩ := List.getElem?_eq_some_iff.mp hi
  have hsplit : ps.take i ++ p :: ps.drop (i + 1) = ps := by
    rw [← hget, ← List.drop_eq_getElem_cons hlt, List.take_append_drop]
  have hbefore : p.1 ∉ (ps.take i).map Prod.fst := by
    rw [← hsplit, List.map_append, List.map_cons] at h
    exact fun hmem => (List.nodup_append.mp h).2.2 p.1 hmem p.1 (List.mem_cons_self ..) rfl
  calc carried ps p.1 = carried (p :: ps.drop (i + 1)) (carried (ps.take i) p.1) := by
        rw [← carried_append, hsplit]
    _ = carried (ps.drop (i + 1)) p.2 := by
        rw [carried_of_not_mem hbefore, carried_cons, if_pos rfl]

/-! ## Renamings that hand on -/

/-- The new name at `i` is the old name of a later renaming, at `j`, which takes the records of `i` along. -/
def HandsOn (ps : List (String × String)) (i j : Nat) : Prop :=
  i < j ∧ ∃ p q, ps[i]? = some p ∧ ps[j]? = some q ∧ p.2 = q.1

/-- The records of the renaming at `i` are handed on up to the one at `k`, and no further. -/
def ComesToRest (ps : List (String × String)) (i k : Nat) : Prop :=
  Relation.ReflTransGen (HandsOn ps) i k ∧ ∀ j, ¬ HandsOn ps k j

/-- Wherever the records of the renaming at `i` are handed on to, they end up with the new name that they had. -/
def KeepsName (ps : List (String × String)) (i : Nat) : Prop :=
  ∀ k, ComesToRest ps i k → ps[k]?.map Prod.snd = ps[i]?.map Prod.snd

section Renamings
variable {ps : List (String × String)}

theorem HandsOn.unique (h : (ps.map Prod.fst).Nodup) {i j k : Nat} (hj : HandsOn ps i j) (hk : HandsOn ps i k) :
    j = k := by
  obtain ⟨-, p, q, hp, hq, hpq⟩ := hj
  obtain ⟨-, p', q', hp', hq', hpq'⟩ := hk
  obtain rfl : p = p' := Option.some.inj (hp.symm.trans hp')
  have hqj : (ps.map Prod.fst)[j]? = some p.2 := by rw [List.getElem?_map, hq, Option.map_some, hpq]
  have hqk : (ps.map Prod.fst)[k]? = some p.2 := by rw [List.getElem?_map, hq', Option.map_some, hpq']
  exact (List.getElem?_inj (List.getElem?_eq_some_iff.mp hqj).1 h).mp (hqj.trans hqk.symm)

theorem ComesToRest.unique (h : (ps.map Prod.fst).Nodup) {i j k : Nat} (hj : ComesToRest ps i j)
    (hk : ComesToRest ps i k) : j = k := by
  obtain ⟨hij, hend⟩ := hj
  obtain ⟨hik, hend'⟩ := hk
  induction hij using Relation.ReflTransGen.head_induction_on with
  | refl =>
    rcases hik.cases_head with rfl | ⟨m, hm, -⟩
    · rfl
    · exact absurd hm (hend m)
  | head him _ ih =>
    rcases hik.cases_head with rfl | ⟨m', him', hmk⟩
    · exact absurd him (hend' _)
    · exact ih (him.unique h him' ▸ hmk)

/-- Records that a renaming takes along come to rest with the new name of the last one that they are handed on
to. -/
theorem exists_rest (h : (ps.map Prod.fst).Nodup) {i : Nat} {p : String × String} (hi : ps[i]? = some p) :
    ∃ k q, ComesToRest ps i k ∧ ps[k]? = some q ∧ carried (ps.drop (i + 1)) p.2 = q.2 := by
  -- a renaming hands on to later ones only, so the induction is on how many there are
  induction hn : ps.length - i using Nat.strongRecOn generalizing i p with
  | ind n ih =>
    have hlt := (List.getElem?_eq_some_iff.mp hi).1
    by_cases hnext : ∃ j, HandsOn ps i j
    · obtain ⟨j, hj⟩ := hnext
      have ⟨hij, p', q, hp', hq, hpq⟩ := hj
      obtain rfl : p = p' := Option.some.inj (hi.symm.trans hp')
      obtain ⟨k, q', ⟨hjk, hend⟩, hk, hcarried⟩ := ih (ps.length - j) (by omega) hq rfl
      refine ⟨k, q', ⟨.head hj hjk, hend⟩, hk, ?_⟩
      have hdrop : (ps.drop (i + 1))[j - (i + 1)]? = some q := by
        rw [List.getElem?_drop, show i + 1 + (j - (i + 1)) = j by omega, hq]
      have hnodup : ((ps.drop (i + 1)).map Prod.fst).Nodup := by
        rw [List.map_drop]
        exact h.drop
      rw [hpq, carried_of_getElem hnodup hdrop, List.drop_drop,
        show i + 1 + (j - (i + 1) + 1) = j + 1 by omega, hcarried]
    · refine ⟨i, p, ⟨.refl, fun j hj => hnext ⟨j, hj⟩⟩, hi, carried_of_not_mem fun hmem => ?_⟩
      obtain ⟨q, hq, hqp⟩ := List.mem_map.mp hmem
      obtain ⟨m, hm⟩ := List.mem_iff_getElem?.mp hq
      rw [List.getElem?_drop] at hm
      exact hnext ⟨i + 1 + m, by omega, p, q, hi, hm, hqp.symm⟩

theorem carried_eq_iff (h : (ps.map Prod.fst).Nodup) {i : Nat} {p : String × String} (hi : ps[i]? = some p) :
    carried ps p.1 = p.2 ↔ KeepsName ps i := by
  obtain ⟨k, q, hrest, hk, hcarried⟩ := exists_rest h hi
  rw [carried_of_getElem h hi, hcarried]
  constructor
  · intro hqp k' hk'
    rw [hk'.unique h hrest, hk, hi, Option.map_some, Option.map_some, hqp]
  · intro hkeeps
    have hnames := hkeeps k hrest
    rw [hk, hi] at hnames
    exact Option.some.inj hnames

theorem keepsName_of_not_handsOn {i : Nat} (h : ∀ j, ¬ HandsOn ps i j) : KeepsName ps i := by
  rintro k ⟨hik, -⟩
  rcases hik.cases_head with rfl | ⟨j, hj, -⟩
  · rfl
  · exact absurd hj (h j)

/-- No new name is the old name of a later column: a list that moves names to the right is of this kind. -/
theorem keepsName_of_pairwise (h : ps.Pairwise fun p q => p.2 ≠ q.1) (i : Nat) : KeepsName ps i := by
  refine keepsName_of_not_handsOn ?_
  rintro j ⟨hij, p, q, hp, hq, hpq⟩
  obtain ⟨hi, rfl⟩ := List.getElem?_eq_some_iff.mp hp
  obtain ⟨hj, rfl⟩ := List.getElem?_eq_some_iff.mp hq
  exact List.pairwise_iff_getElem.mp h i j hi hj hij hpq

end Renamings

/-! ## All columns and records -/

/-- The columns that an explicit list renames, by their old names, with their new ones. -/
def renamings (d : Definition) (names : List String) : List (String × String) :=
  (d.columns.map Column.name).zip names

/-- Every record that ends in a column ends in the same column under the explicit list, whatever its name is
then. -/
def LineageFollows (d : Definition) (names : List String) : Prop :=
  ∀ (m : Nat) (r : LineageRecord) (i : Nat) (c : Column), d.lineage[m]? = some r → d.columns[i]? = some c →
    r.targetColumn = c.name → ∃ c', (d.renameColumns names).columns[i]? = some c' ∧
      (d.renameColumns names).lineage[m]? = some { r with targetColumn := c'.name }

theorem isPrefix_map_fst_zip (xs ys : List String) : (xs.zip ys).map Prod.fst <+: xs := by
  induction xs generalizing ys with
  | nil => exact List.prefix_rfl
  | cons x xs ih =>
    cases ys with
    | nil => exact List.nil_prefix
    | cons y ys => exact (List.prefix_cons_inj x).mpr (ih ys)

theorem getElem?_renamed (cs : List Column) (names : List String) (i : Nat) :
    (renamed cs names)[i]? = cs[i]?.map fun c => { c with name := names[i]?.getD c.name } := by
  induction cs generalizing names i with
  | nil => rfl
  | cons c cs ih =>
    cases names with
    | nil =>
      show (c :: cs)[i]? = _
      simp
    | cons n names =>
      cases i with
      | zero => rfl
      | succ i => exact ih names i

section Records
variable {d : Definition} {names : List String}

theorem getElem?_renamings {i : Nat} {c : Column} (hc : d.columns[i]? = some c) :
    (d.renamings names)[i]? = names[i]?.map fun n => (c.name, n) := by
  rw [renamings, List.zip, List.getElem?_zipWith, List.getElem?_map, hc]
  cases names[i]? <;> rfl

theorem nodup_renamings (h : (d.columns.map Column.name).Nodup) : ((d.renamings names).map Prod.fst).Nodup :=
  h.sublist (isPrefix_map_fst_zip ..).sublist

theorem lineage_renameColumns :
    (d.renameColumns names).lineage =
      d.lineage.map fun r => { r with targetColumn := carried (d.renamings names) r.targetColumn } :=
  foldl_retarget ..

/-- A column without a new name keeps its records, and any other one keeps them if they keep its new name. -/
theorem carried_name_iff (h : (d.columns.map Column.name).Nodup) {i : Nat} {c : Column}
    (hc : d.columns[i]? = some c) :
    carried (d.renamings names) c.name = names[i]?.getD c.name ↔ KeepsName (d.renamings names) i := by
  have hget : (d.renamings names)[i]? = names[i]?.map fun n => (c.name, n) := getElem?_renamings hc
  cases hn : names[i]? with
  | some n =>
    rw [hn] at hget
    exact carried_eq_iff (nodup_renamings h) hget
  | none =>
    rw [hn, Option.map_none] at hget
    have hname : (d.columns.map Column.name)[i]? = some c.name := by rw [List.getElem?_map, hc, Option.map_some]
    have hlt := (List.getElem?_eq_some_iff.mp hname).1
    have hfree : c.name ∉ (d.renamings names).map Prod.fst := by
      intro hmem
      obtain ⟨p, hp, hpc⟩ := List.mem_map.mp hmem
      obtain ⟨m, hm⟩ := List.mem_iff_getElem?.mp hp
      obtain ⟨hold, hnew⟩ := List.getElem?_zip_eq_some.mp hm
      have hmi : i = m := (List.getElem?_inj hlt h).mp (by rw [hname, hold, hpc])
      rw [← hmi, hn] at hnew
      cases hnew
    refine ⟨fun _ => keepsName_of_not_handsOn ?_, fun _ => carried_of_not_mem hfree⟩
    rintro j ⟨-, p, q, hp, -⟩
    rw [hget] at hp
    cases hp

end Records

/-- An explicit column list gives the columns their names by position and changes nothing else of them. The
records of lineage follow their columns just when no column that has records hands them on, over the later columns
whose old names are new ones of earlier columns, to a name that is not its own new one. -/
theorem renameColumns_follows_iff {d : Definition} (h : (d.columns.map Column.name).Nodup) (names : List String) :
    (∀ i : Nat, (d.renameColumns names).columns[i]? =
      d.columns[i]?.map fun c => { c with name := names[i]?.getD c.name }) ∧
    (d.LineageFollows names ↔
      ∀ (i : Nat) (c : Column), d.columns[i]? = some c → (∃ r ∈ d.lineage, r.targetColumn = c.name) →
        KeepsName (d.renamings names) i) := by
  refine ⟨getElem?_renamed d.columns names, ?_⟩
  constructor
  · rintro hfollows i c hc ⟨r, hr, hrc⟩
    obtain ⟨m, hm⟩ := List.mem_iff_getElem?.mp hr
    obtain ⟨c', hc', hrecord⟩ := hfollows m r i c hm hc hrc
    rw [show (d.renameColumns names).columns[i]? = _ from getElem?_renamed .., hc] at hc'
    rw [lineage_renameColumns, List.getElem?_map, hm, ← Option.some.inj hc'] at hrecord
    have htarget : carried (d.renamings names) r.targetColumn = names[i]?.getD c.name :=
      congrArg LineageRecord.targetColumn (Option.some.inj hrecord)
    rw [hrc] at htarget
    exact (carried_name_iff h hc).mp htarget
  · intro hkeeps m r i c hm hc hrc
    have hcarried := (carried_name_iff h hc).mpr (hkeeps i c hc ⟨r, List.mem_of_getElem? hm, hrc⟩)
    refine ⟨{ c with name := names[i]?.getD c.name }, ?_, ?_⟩
    · rw [show (d.renameColumns names).columns[i]? = _ from getElem?_renamed .., hc]
      rfl
    · rw [lineage_renameColumns, List.getElem?_map, hm, Option.map_some, hrc, hcarried]

theorem renameColumns_follows_iff_shifted :
    let d : Definition := ⟨"v", .view, [.mapped "a", .mapped "b", .mapped "c"], [.uses "t"],
      [⟨"t", "x", "a", false⟩, ⟨"t", "y", "b", false⟩, ⟨"t", "z", "c", false⟩]⟩
    (d.columns.map Column.name).Nodup ∧ d.LineageFollows ["k", "a", "b"] := by
  intro d
  have h : (d.columns.map Column.name).Nodup := by decide
  have hpairwise : (d.renamings ["k", "a", "b"]).Pairwise fun p q => p.2 ≠ q.1 := by decide
  exact ⟨h, (renameColumns_follows_iff h _).2.mpr fun i _ _ _ => keepsName_of_pairwise hpairwise i⟩

/-- Two columns that swap their names: the record of the first one has the name of the second one when that name
is taken away. -/
theorem swapped_names_merge :
    let d : Definition := ⟨"v", .view, [.mapped "a", .mapped "b"], [.uses "t"],
      [⟨"t", "x", "a", false⟩, ⟨"t", "y", "b", false⟩]⟩
    (d.columns.map Column.name).Nodup ∧ (∀ r ∈ d.lineage, r.targetColumn ∈ d.columns.map Column.name) ∧
      ¬ d.LineageFollows ["b", "a"] := by
  intro d
  refine ⟨by decide, by decide, fun hfollows => ?_⟩
  obtain ⟨c, hc, hr⟩ := hfollows 0 ⟨"t", "x", "a", false⟩ 0 (.mapped "a") rfl rfl rfl
  obtain rfl := Option.some.inj hc
  exact absurd hr (by decide)

end SqlLineage.Definition
