import SqlLineage.Proofs.Case.Letter
import SqlLineage.Proofs.Script.Stubs
import SqlLineage.Proofs.Select.GroupingKeys

/-! # Lineage is anchored in its owner

A lineage record says from where a column of its owner comes: it ends in one of the owner's columns, and it
begins in a table that the owner refers to, both letter for letter. Three later passes change what the records
say. An explicit column list renames targets, a common table expression that moves takes its references along,
and in the end every reference is spelled as the definition that it leads to.

* `Definition.Anchored`: both ends of all records of a definition.
* `Definition.Anchored.renameColumns`, `Definition.Anchored.mapReferenced`: the later passes keep it.
* `Select.anchored_read`: what a query body gives is anchored from the start.
* `Extraction.lineage_anchored`: so are all definitions of a script. -/

namespace SqlLineage
set_option autoImplicit false

/-- Lineage leads from tables that the definition refers to, to columns that it has. -/
structure Definition.Anchored (d : Definition) : Prop where
  target_mem : ∀ r ∈ d.lineage, r.targetColumn ∈ d.columns.map Column.name
  source_mem : ∀ r ∈ d.lineage, r.sourceTable ∈ d.references.map Reference.table

/-! ## The later passes -/

namespace Definition

/-- Column by column, the targets follow: `done` are the columns that have their new names already. -/
theorem target_mem_foldl_retarget (done cs : List Column) (names : List String) (rs : List LineageRecord)
    (h : ∀ r ∈ rs, r.targetColumn ∈ (done ++ cs).map Column.name) :
    ∀ r ∈ ((cs.map Column.name).zip names).foldl (fun rs p => retarget p.1 p.2 rs) rs,
      r.targetColumn ∈ (done ++ renamed cs names).map Column.name := by
  induction cs generalizing done names rs with
  | nil =>
    intro r hr
    simpa [renamed] using h r hr
  | cons c cs ih =>
    cases names with
    | nil => exact h
    | cons n names =>
      have hstep : ∀ r ∈ retarget c.name n rs,
          r.targetColumn ∈ ((done ++ [{ c with name := n }]) ++ cs).map Column.name := by
        intro r hr
        obtain ⟨s, hs, rfl⟩ := List.mem_map.mp hr
        have hold := h s hs
        simp only [List.map_append, List.map_cons, List.mem_append, List.mem_cons] at hold ⊢
        by_cases hn : s.targetColumn = c.name
        · rw [if_pos hn]
          exact .inl (.inr (.inl rfl))
        · rw [if_neg hn]
          rcases hold with hold | hold | hold
          · exact .inl (.inl hold)
          · exact absurd hold hn
          · exact .inr hold
      have hrest := ih (done ++ [{ c with name := n }]) names (retarget c.name n rs) hstep
      rw [List.append_assoc] at hrest
      exact hrest

theorem Anchored.renameColumns {d : Definition} (h : d.Anchored) (names : List String) :
    (d.renameColumns names).Anchored where
  target_mem := target_mem_foldl_retarget [] d.columns names d.lineage h.target_mem
  source_mem := by
    intro r hr
    have hsource : r.sourceTable ∈ (d.renameColumns names).lineage.map LineageRecord.sourceTable :=
      List.mem_map_of_mem hr
    rw [Definition.renameColumns, map_foldl_retarget fun _ _ => rfl] at hsource
    obtain ⟨s, hs, hsr⟩ := List.mem_map.mp hsource
    rw [references_renameColumns, ← hsr]
    exact h.source_mem s hs

theorem Anchored.mapReferenced {d : Definition} (h : d.Anchored) (f : String → String) :
    (d.mapReferenced f).Anchored where
  target_mem := by
    intro r hr
    obtain ⟨s, hs, rfl⟩ := List.mem_map.mp hr
    exact h.target_mem s hs
  source_mem := by
    intro r hr
    obtain ⟨s, hs, rfl⟩ := List.mem_map.mp hr
    obtain ⟨t, ht, hts⟩ := List.mem_map.mp (h.source_mem s hs)
    show f s.sourceTable ∈ _
    rw [← hts]
    exact List.mem_map_of_mem (List.mem_map_of_mem ht)

theorem Anchored.respelled {d : Definition} (h : d.Anchored) (f : String → String) : (d.respelled f).Anchored :=
  ⟨(h.mapReferenced f).target_mem, (h.mapReferenced f).source_mem⟩

theorem anchored_of_no_lineage {d : Definition} (h : d.lineage = []) : d.Anchored where
  target_mem := by
    intro r hr
    rw [h] at hr
    cases hr
  source_mem := by
    intro r hr
    rw [h] at hr
    cases hr

end Definition

/-! ## Query bodies -/

namespace Select
open SqlLineage.Text

namespace Projection
variable {env : Environment} {scope : Scope}

/-- Every record ends in a column that was put out. -/
def Ended (p : Projection) : Prop :=
  ∀ r ∈ p.lineage, r.targetColumn ∈ p.columns.map Column.name

theorem Ended.append {p : Projection} (h : p.Ended) {cs : List Column} {rs : List LineageRecord}
    (hrs : ∀ r ∈ rs, r.targetColumn ∈ p.columns.map Column.name ∨ r.targetColumn ∈ cs.map Column.name)
    (os : List TableColumn) (as : List Nat) : Ended ⟨p.columns ++ cs, p.lineage ++ rs, os, as⟩ := by
  intro r hr
  rw [List.map_append, List.mem_append]
  rcases List.mem_append.mp hr with hr | hr
  · exact .inl (h r hr)
  · exact hrs r hr

theorem addStarColumn_ended {p : Projection} (h : p.Ended) : p.addStarColumn.Ended := by
  intro r hr
  rw [lineage_addStarColumn] at hr
  have hold := h r hr
  unfold addStarColumn
  split
  · exact hold
  · rw [List.map_append]
    exact List.mem_append_left _ hold

theorem star_mem_addStarColumn (p : Projection) :
    Column.starName ∈ p.addStarColumn.columns.map Column.name := by
  unfold addStarColumn
  split
  · next hany =>
    obtain ⟨c, hc, hstar⟩ := List.any_eq_true.mp hany
    -- the star has no case, so what passes for it is spelled like it
    rw [← eq_of_sameFold_signs (by simp [Column.starName, isSign]) hstar]
    exact List.mem_map_of_mem hc
  · rw [List.map_append]
    exact List.mem_append_right _ (List.mem_singleton.mpr rfl)

theorem Ended.addTable {p : Projection} (h : p.Ended) (table : String) : (p.addTable env table).Ended := by
  unfold Projection.addTable
  split
  · next d _ =>
    apply h.append
    intro r hr
    obtain ⟨c, hc, rfl⟩ := List.mem_map.mp hr
    refine .inr (List.mem_map.mpr ⟨Column.mapped c.name, List.mem_map_of_mem hc, rfl⟩)
  · have hstar := addStarColumn_ended h
    intro r hr
    rcases List.mem_append.mp hr with hr | hr
    · exact hstar r hr
    · rw [List.mem_singleton.mp hr]
      exact star_mem_addStarColumn p

theorem Ended.addExpr {p : Projection} (h : p.Ended) (alias? : Option String) (body : List Token) :
    (p.addExpr env scope alias? body).Ended := by
  rw [Projection.addExpr]
  dsimp only
  split
  · exact h
  · next name _ =>
    apply h.append
    intro r hr
    obtain ⟨s, -, rfl⟩ := List.mem_map.mp hr
    refine .inr ?_
    show name ∈ _
    split <;> exact List.mem_singleton.mpr rfl

theorem ended_read (env : Environment) (scope : Scope) (ts : List Token) (select : Nat) :
    (read env scope ts select).Ended := by
  refine read_induction (P := Ended) (fun r hr => ?_) (fun p hp => addStarColumn_ended hp)
    (fun p hp _ t _ => hp.addTable t) (fun p as hp => hp) (fun p alias? body hp => hp.addExpr alias? body) ts select
  cases hr

end Projection

theorem anchored_read (env : Environment) (ts : List Token) (name : String) (kind : Definition.Kind) :
    (read env ts name kind).definition.Anchored where
  target_mem := by
    unfold read
    split
    · next select _ =>
      dsimp only
      rw [map_markKeys fun _ => rfl]
      exact Projection.ended_read env (scopeOf env ts) ts select
    · intro r hr
      cases hr
  source_mem := by
    intro r hr
    rw [references_read, List.map_map]
    exact List.mem_map.mpr ⟨r.sourceTable, sourceTable_mem_read r hr, rfl⟩

end Select

/-! ## Scripts -/

theorem Statement.anchored_allRead : AllRead Definition.Anchored where
  block _ _ := Definition.anchored_of_no_lineage rfl
  bare _ := Definition.anchored_of_no_lineage rfl
  query env ts name kind names _ := (Select.anchored_read env ts name kind).renameColumns names

namespace Inventory

theorem anchored_ofStatements (resultName : String) (texts : List String) :
    ∀ d ∈ (ofStatements resultName texts).registry.slots, d.Anchored :=
  forall_ofStatements Statement.anchored_allRead (fun f _ hd => ⟨hd.mapReferenced f, hd.respelled f⟩) resultName texts

theorem anchored_finish {inv : Inventory} (h : inv.registry.Coherent)
    (hslots : ∀ d ∈ inv.registry.slots, d.Anchored) : ∀ d ∈ inv.finish.definitions, d.Anchored := by
  intro d hd
  rw [definitions_finish, slots_inferStubs h] at hd
  obtain ⟨o, ho, rfl⟩ := List.mem_map.mp hd
  refine Definition.Anchored.mapReferenced ?_ _
  rcases List.mem_append.mp ho with ho | ho
  · exact hslots o ho
  · obtain ⟨m, -, rfl⟩ := List.mem_map.mp ho
    exact Definition.anchored_of_no_lineage rfl

end Inventory

/-- In the extraction of a script, every lineage record of a definition ends in one of its columns and begins in
one of the tables that it refers to. -/
theorem Extraction.lineage_anchored (script resultName : String) :
    ∀ d ∈ (ofScript script resultName).definitions, ∀ r ∈ d.lineage,
      (∃ c ∈ d.columns, c.name = r.targetColumn) ∧ ∃ k ∈ d.references, k.table = r.sourceTable := by
  intro d hd r hr
  have h := Inventory.anchored_finish (Inventory.coherent_ofStatements resultName _)
    (Inventory.anchored_ofStatements resultName _) d hd
  exact ⟨List.mem_map.mp (h.target_mem r hr), List.mem_map.mp (h.source_mem r hr)⟩

/-- A column list, a common table expression that gives way, and names that differ in case only. -/
theorem Extraction.lineage_anchored_moved :
    let script := "CREATE VIEW v (p, q) AS WITH a AS (SELECT T.x, t.x AS X FROM t) SELECT a.x, a.X FROM a; " ++
      "CREATE TABLE a (x INT)"
    let d : Definition := ⟨"v", .view, [.mapped "p", .mapped "q"], [.uses "a 2"],
      [⟨"a 2", "x", "p", false⟩, ⟨"a 2", "X", "q", false⟩]⟩
    let r : LineageRecord := ⟨"a 2", "X", "q", false⟩
    d ∈ (ofScript script "Query Result").definitions ∧ r ∈ d.lineage ∧
      (∃ c ∈ d.columns, c.name = r.targetColumn) ∧ ∃ k ∈ d.references, k.table = r.sourceTable := by
  intro script d r
  have hd : d ∈ (ofScript script "Query Result").definitions := by decide +kernel
  have hr : r ∈ d.lineage := by decide
  exact ⟨hd, hr, lineage_anchored script "Query Result" d hd r hr⟩

end SqlLineage
