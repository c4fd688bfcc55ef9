import SqlLineage.Proofs.Script.Stubs
import SqlLineage.Settings

/-! # Well-formed diagrams

* `Diagram.WellFormed`: the identifiers of nodes are distinct in any case, and edges lead from node to
  node.
* `Edge.ends_ofDefinition`: one end of an edge is the definition that it was drawn for, and the other end
  is a name that the definition refers to. So the diagram is well formed if the definitions are closed
  under reference, which is what stubs are for. -/

namespace SqlLineage
open SqlLineage.Text
set_option autoImplicit false

/-- A picture that can be drawn: no two nodes can be taken for each other, and no edge hangs in the air. -/
structure Diagram.WellFormed (g : Diagram) : Prop where
  nodup_upper : (g.nodes.map fun n => upper n.id).Nodup
  source_mem : ∀ e ∈ g.edges, e.source ∈ g.nodes.map Node.id
  target_mem : ∀ e ∈ g.edges, e.target ∈ g.nodes.map Node.id

theorem Diagram.WellFormed.nodup_id {g : Diagram} (h : g.WellFormed) : (g.nodes.map Node.id).Nodup := by
  have hm := h.nodup_upper
  rw [← Function.comp_def upper Node.id, ← List.map_map] at hm
  exact List.Nodup.of_map upper hm

/-! ## The ends of an edge -/

theorem Edge.ends_ofReference {d : Definition} {i : Nat} {r : Reference} {e : Edge}
    (h : ofReference? d i r = some e) :
    (e.source = d.name ∧ e.target = r.table) ∨ (e.source = r.table ∧ e.target = d.name) := by
  unfold ofReference? at h
  split at h
  · obtain rfl := Option.some.inj h
    exact .inl ⟨rfl, rfl⟩
  · split at h
    · obtain rfl := Option.some.inj h
      exact .inr ⟨rfl, rfl⟩
    · cases h

theorem Edge.ends_ofDefinition {kinds : OrderedMap String Definition.Kind} {d : Definition} {e : Edge}
    (h : e ∈ ofDefinition kinds d) :
    (e.source = d.name ∧ e.target ∈ d.referenced) ∨ (e.source ∈ d.referenced ∧ e.target = d.name) := by
  rcases List.mem_append.mp h with h | h
  · obtain ⟨p, hp, rfl⟩ := List.mem_map.mp h
    have hr : p.1 ∈ d.lineage := List.fst_mem_of_mem_zipIdx hp
    exact .inr ⟨List.mem_append_right _ (List.mem_map_of_mem hr), rfl⟩
  · obtain ⟨p, hp, he⟩ := List.mem_filterMap.mp h
    have hr : p.1.table ∈ d.referenced :=
      List.mem_append_left _ (List.mem_map_of_mem (List.fst_mem_of_mem_zipIdx hp))
    rcases ends_ofReference he with ⟨hs, ht⟩ | ⟨hs, ht⟩
    · exact .inl ⟨hs, ht ▸ hr⟩
    · exact .inr ⟨hs ▸ hr, ht⟩

/-! ## Well-formed pictures -/

namespace Diagram

theorem wellFormed_ofDefinitions (layout : Layout) {ds : List Definition} (notices : List Notice)
    (hnodup : (ds.map fun d => upper d.name).Nodup)
    (hclosed : ∀ d ∈ ds, ∀ name ∈ d.referenced, ∃ e ∈ ds, e.name = name) :
    (ofDefinitions layout ds notices).WellFormed := by
  have hid : (ofDefinitions layout ds notices).nodes.map Node.id = ds.map Definition.name := by
    simp [ofDefinitions, Node.ofDefinition]
  have hends : ∀ e ∈ (ofDefinitions layout ds notices).edges,
      e.source ∈ ds.map Definition.name ∧ e.target ∈ ds.map Definition.name := by
    intro e he
    obtain ⟨d, hd, he⟩ := List.mem_flatMap.mp he
    have hown : d.name ∈ ds.map Definition.name := List.mem_map_of_mem hd
    have hother : ∀ name ∈ d.referenced, name ∈ ds.map Definition.name := fun name hn =>
      List.mem_map.mpr (hclosed d hd name hn)
    rcases Edge.ends_ofDefinition he with ⟨hs, ht⟩ | ⟨hs, ht⟩
    · exact ⟨hs ▸ hown, hother _ ht⟩
    · exact ⟨hother _ hs, ht ▸ hown⟩
  refine ⟨?_, ?_, ?_⟩
  · rw [ofDefinitions, List.map_map]
    exact hnodup
  · intro e he
    rw [hid]
    exact (hends e he).1
  · intro e he
    rw [hid]
    exact (hends e he).2

theorem wellFormed_finish (layout : Layout) {inv : Inventory} (h : inv.registry.Coherent) :
    (ofExtraction layout inv.finish).WellFormed :=
  wellFormed_ofDefinitions layout _ (Inventory.coherent_inferStubs h).nodup_upper
    fun _ hd _ hn => Inventory.closed_inferStubs h hd hn

/-- The diagram of any script under any settings is well formed, and so is the one of whatever a sequence
of operations has found. -/
theorem wellFormed_ofScript_and_runAll :
    (∀ (script : String) (s : Settings), (ofScript script s).WellFormed) ∧
      ∀ (layout : Layout) (ops : List Operation),
        (ofExtraction layout (Operation.runAll .empty ops).finish).WellFormed := by
  refine ⟨fun script s => ?_, fun layout ops => ?_⟩
  · exact wellFormed_finish s.layout (Inventory.coherent_ofStatements _ _)
  · exact wellFormed_finish layout (Operation.coherent_runAll ops)

end Diagram
end SqlLineage
