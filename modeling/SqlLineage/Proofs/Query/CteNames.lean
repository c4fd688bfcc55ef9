import SqlLineage.Proofs.Script.Trace

/-! # What common table expressions cost

A common table expression is filed under a name that is free when its definition begins, but only after
that definition has been unwound. In between a nested one can take the same name.

* `Query.Apart`: no nested common table expression takes the name chosen for the one around it.
* `Query.nodup_filings_iff`: all filings of a query have different names just when it is `Apart`.
* `Query.redefinitions_unwind`: the redefinition notices of a query are those of its filings.
* `Query.keeps_definitions_iff`: whatever came before is kept in any case; every common table expression
  gets a slot of its own, and no notice says otherwise, just when the query is `Apart`. -/

namespace SqlLineage
open SqlLineage.Text
set_option autoImplicit false

/-! ## Notices of one kind -/

def Inventory.noticesOf (inv : Inventory) (kind : Notice.Kind) : List Notice :=
  inv.notices.filter (·.kind = kind)

def Inventory.redefinitions (inv : Inventory) : List Notice :=
  inv.notices.filter (·.kind = .redefinition)

namespace Inventory

theorem noticesOf_report_of_ne {inv : Inventory} {n : Notice} {kind : Notice.Kind} (h : n.kind ≠ kind) :
    (inv.report n).noticesOf kind = inv.noticesOf kind := by
  simp [noticesOf, report, h]

theorem noticesOf_absorb {inv : Inventory} {r : Reading} {kind : Notice.Kind} (h : ∀ n ∈ r.notices, n.kind ≠ kind) :
    (inv.absorb r).noticesOf kind = inv.noticesOf kind := by
  have hnone : r.notices.filter (·.kind = kind) = [] := by
    rw [List.filter_eq_nil_iff]
    intro n hn
    simpa using h n hn
  rw [noticesOf, absorb, List.filter_append, hnone, List.append_nil, noticesOf]

theorem redefinitions_report {inv : Inventory} {n : Notice} (h : n.kind ≠ .redefinition) :
    (inv.report n).redefinitions = inv.redefinitions :=
  noticesOf_report_of_ne h

theorem redefinitions_define (inv : Inventory) (d : Definition) :
    (inv.define d).redefinitions =
      inv.redefinitions ++ (inv.registry.define d).replaced.toList.map Notice.replaced := by
  unfold redefinitions define
  rw [List.filter_append]
  cases (inv.registry.define d).replaced <;> rfl

end Inventory

theorem Select.kind_of_mem_notices_read {env : Environment} {ts : List Token} {name : String}
    {kind : Definition.Kind} {n : Notice} (h : n ∈ (Select.read env ts name kind).notices) :
    n.kind = .unparsedBody := by
  unfold Select.read at h
  split at h
  · cases h
  · rw [List.mem_singleton.mp h]
    rfl

theorem Inventory.redefinitions_absorb (inv : Inventory) (env : Environment) (ts : List Token) (name : String)
    (kind : Definition.Kind) :
    (inv.absorb (Select.read env ts name kind)).redefinitions = inv.redefinitions :=
  noticesOf_absorb fun n hn => by simp [Select.kind_of_mem_notices_read hn]

theorem Inventory.redefinitions_enter (inv : Inventory) (owner : String) (head : Cte) :
    (inv.enter owner head).redefinitions = inv.redefinitions := by
  unfold enter
  split
  · rfl
  · exact redefinitions_report (by simp [Notice.unclosedCte])

namespace Query

theorem redefinitions_unwind (q : Query) (name : String) (kind : Definition.Kind) (inv : Inventory)
    (ctes : CteBindings) :
    (q.unwind name kind inv ctes).inventory.redefinitions =
      inv.redefinitions ++
        (inv.registry.replacedBy ((q.filings ⟨inv.registry, ctes⟩).map Filing.definition)).map Notice.replaced := by
  induction q generalizing name kind inv ctes with
  | body ts =>
    rw [unwind, filings, Inventory.redefinitions_absorb]
    simp [Registry.replacedBy]
  | cte head definition rest ihd ihr =>
    have hd := ihd (inv.registry.unusedName head.name) .cte (inv.enter name head)
      (Environment.within ⟨inv.registry, ctes⟩ head).ctes
    rw [environment_enter, Inventory.redefinitions_enter, Inventory.registry_enter] at hd
    obtain ⟨hfiled, hafter⟩ := filed_unwindDefinition name inv ctes head definition
    have hreg := (definition.registry_unwind (inv.registry.unusedName head.name) .cte (inv.enter name head)
      (Environment.within ⟨inv.registry, ctes⟩ head).ctes)
    rw [environment_enter, Inventory.registry_enter] at hreg
    rw [unwind_cte, ihr, hafter, hfiled, unwindDefinition, Inventory.redefinitions_define, hd, hreg, filings,
      List.map_append, List.map_cons, Registry.replacedBy_append, Registry.replacedBy]
    rw [Inventory.registry_define, hreg]
    simp only [List.map_append, List.append_assoc]

/-! ## Names taken twice -/

/-- No common table expression inside a definition takes the name that was chosen for the one that is
defined. -/
def Apart (env : Environment) : Query → Prop
  | .body _ => True
  | .cte head definition rest =>
    definition.Apart (env.within head) ∧
      (∀ f ∈ definition.filings (env.within head), upper f.name ≠ upper (env.registry.unusedName head.name)) ∧
      rest.Apart (filing env head definition).after

/-- Two filings can only have one name if one of them stands inside the definition of the other. -/
theorem nodup_filings_iff (q : Query) {env : Environment} (h : env.registry.Coherent) :
    ((q.filings env).map fun f => upper f.name).Nodup ↔ q.Apart env := by
  induction q generalizing env with
  | body ts => simp [filings, Apart]
  | cte head definition rest ihd ihr =>
    have hafter := coherent_after h head definition
    -- what is filed behind the definition sees all names in it taken
    have hfresh : ∀ f ∈ definition.filings (env.within head) ++ [filing env head definition],
        ∀ g ∈ rest.filings (filing env head definition).after, upper f.name ≠ upper g.name := by
      intro f hf g hg hfg
      have hfree := rest.free_of_mem_filings hafter g hg
      rw [← Registry.defines_congr _ hfg, defines_after h head definition f hf] at hfree
      cases hfree
    rw [filings, Apart, List.map_append, List.map_cons, List.nodup_append, List.nodup_cons,
      ihd (by rwa [env.registry_within]), ihr hafter]
    constructor
    · rintro ⟨hd, ⟨-, hr⟩, hapart⟩
      refine ⟨hd, ?_, hr⟩
      intro f hf
      exact hapart _ (List.mem_map_of_mem hf) _ (List.mem_cons_self ..)
    · rintro ⟨hd, hname, hr⟩
      refine ⟨hd, ⟨?_, hr⟩, ?_⟩
      · intro hmem
        obtain ⟨g, hg, hgn⟩ := List.mem_map.mp hmem
        exact hfresh _ (List.mem_append_right _ (List.mem_singleton_self _)) g hg hgn.symm
      · intro a ha b hb
        obtain ⟨f, hf, rfl⟩ := List.mem_map.mp ha
        rcases List.mem_cons.mp hb with rfl | hb
        · exact hname f hf
        · obtain ⟨g, hg, rfl⟩ := List.mem_map.mp hb
          exact hfresh f (List.mem_append_left _ hf) g hg

/-- Unwinding a query in any inventory that operations can reach keeps all definitions that were there,
and no two definitions get one name. Each common table expression is appended in a slot of its own, and
no redefinition is reported, just when no nested one takes the name of the one around it. -/
theorem keeps_definitions_iff (ops : List Operation) (ts : List Token) (name : String)
    (kind : Definition.Kind) (ctes : CteBindings) :
    let inv := Operation.runAll .empty ops
    let q := Query.ofTokens ts
    let fs := q.filings ⟨inv.registry, ctes⟩
    let after := (q.unwind name kind inv ctes).inventory
    fs.map Filing.head = q.heads ∧
    inv.registry.slots <+: after.registry.slots ∧
    (after.registry.slots.map fun d => upper d.name).Nodup ∧
    (after.registry.slots = inv.registry.slots ++ fs.map Filing.definition ↔ q.Apart ⟨inv.registry, ctes⟩) ∧
    (after.redefinitions = inv.redefinitions ↔ q.Apart ⟨inv.registry, ctes⟩) := by
  intro inv q fs after
  have h : inv.registry.Coherent := Operation.coherent_runAll ops
  have hafter : after.registry = inv.registry.fileAll (fs.map Filing.definition) :=
    q.registry_unwind name kind inv ctes
  have hnodup : (after.registry.slots.map fun d => upper d.name).Nodup :=
    hafter ▸ (h.fileAll _).nodup_upper
  have hnames : (fs.map Filing.definition).map (fun d => upper d.name) = fs.map fun f => upper f.name := by
    rw [List.map_map]
    exact List.map_congr_left fun f _ => by simp
  have hcte : ∀ d ∈ fs.map Filing.definition, d.kind = .cte ∧ inv.registry.defines d.name = false := by
    intro d hd
    obtain ⟨f, hf, rfl⟩ := List.mem_map.mp hd
    rw [f.name_definition]
    exact ⟨f.kind_definition, q.free_of_mem_filings h f hf⟩
  have hapart : ((fs.map Filing.definition).map fun d => upper d.name).Nodup ↔ q.Apart ⟨inv.registry, ctes⟩ := by
    rw [hnames]
    exact q.nodup_filings_iff h
  refine ⟨q.map_head_filings _, ?_, hnodup, ?_, ?_⟩
  · rw [hafter]
    exact h.prefix_fileAll h List.prefix_rfl hcte
  · rw [← hapart]
    constructor
    · intro hslots
      rw [hslots, List.map_append] at hnodup
      exact (List.nodup_append.mp hnodup).2.1
    · intro hn
      rw [hafter]
      exact h.slots_fileAll_of_nodup (fun d hd => (hcte d hd).2) hn
  · rw [← hapart, q.redefinitions_unwind, List.append_right_eq_self, List.map_eq_nil_iff,
      h.replacedBy_eq_nil_iff fun d hd => (hcte d hd).1]
    exact ⟨fun hn => hn.2, fun hn => ⟨fun d hd => (hcte d hd).2, hn⟩⟩

/-- A nested common table expression of the same name is lost to the one around it. -/
theorem loses_nested_of_same_name :
    let q := Query.ofTokens (Token.scan
      "WITH a AS (WITH a AS (SELECT t.x FROM t) SELECT a.x FROM a) SELECT a.x FROM a")
    let after := (q.unwind "Query Result" .view (Operation.runAll .empty []) .empty).inventory
    q.heads.map Cte.name = ["a", "a"] ∧ after.registry.slots.map Definition.name = ["a"] ∧
      after.redefinitions.map Notice.subject = ["a"] := by
  decide +kernel

end Query
end SqlLineage
