import SqlLineage.Proofs.Registry.Usage
import SqlLineage.Proofs.Script.Stubs

/-! # Two ways to look a name up

A registry files a name under its full upper case, where `é` becomes `É` and `ß` becomes `SS`. An extraction compares
names up to the case of ASCII letters. So the registry finds whatever the extraction finds, and more.

* `Text.upper_eq_iff_of_isAscii`: the two comparisons are the same one for texts of ASCII characters.
* `Registry.Coherent.find?_slots_eq_some_iff`: the first slot of a name up to ASCII case is the one that the index
  leads to, if that has the name up to ASCII case.
* `Operation.find?_finish`: both ways compared, behind any operations. -/

namespace SqlLineage
open SqlLineage.Text
set_option autoImplicit false

/-! ## ASCII texts -/

namespace Text

/-- A text of ASCII characters only. -/
def IsAscii (s : String) : Prop :=
  ∀ c ∈ s.toList, c.toNat < 0x80

instance : DecidablePred IsAscii := fun s => inferInstanceAs (Decidable (∀ c ∈ s.toList, c.toNat < 0x80))

theorem upper_of_isAscii {s : String} (h : IsAscii s) : upper s = foldCase s := by
  have hchar : ∀ c ∈ s.toList, upperChar c = [c.toUpper] := by
    intro c hc
    rw [upperChar, if_pos (h c hc)]
  rw [← String.toList_inj, toList_upper, toList_foldCase, List.flatMap_congr hchar, List.map_eq_flatMap]

theorem upper_eq_iff_of_isAscii {a b : String} (ha : IsAscii a) (hb : IsAscii b) :
    upper a = upper b ↔ sameFold a b = true := by
  rw [upper_of_isAscii ha, upper_of_isAscii hb, sameFold_iff]

end Text

/-! ## Slots by name -/

theorem Registry.Coherent.find?_slots_eq_some_iff {r : Registry} (h : r.Coherent) {name : String} {d : Definition} :
    (r.slots.find? fun e => sameFold e.name name) = some d ↔ r.lookup name = some d ∧ sameFold d.name name = true := by
  have hlookup : ∀ e, (r.slots.find? fun e => sameFold e.name name) = some e →
      r.lookup name = some e ∧ sameFold e.name name = true := by
    intro e he
    have hsame : sameFold e.name name = true := by simpa using List.find?_some he
    exact ⟨h.lookup_eq_some_iff.mpr ⟨List.mem_of_find?_eq_some he, upper_eq_of_sameFold hsame⟩, hsame⟩
  refine ⟨hlookup d, ?_⟩
  rintro ⟨hd, hsame⟩
  -- something is found, and the registry has nothing else of that name
  have hsome : (r.slots.find? fun e => sameFold e.name name).isSome = true :=
    List.find?_isSome.mpr ⟨d, (h.lookup_eq_some_iff.mp hd).1, hsame⟩
  obtain ⟨e, he⟩ := Option.isSome_iff_exists.mp hsome
  rw [he, ← hd, (hlookup e he).1]

/-! ## Behind any operations -/

namespace Operation

theorem find?_finish_eq_some_iff (ops : List Operation) {name : String} {d : Definition} :
    (runAll .empty ops).inferStubs.finish.find? name = some d ↔
      (runAll .empty ops).inferStubs.registry.lookup name = some d ∧ sameFold d.name name = true := by
  have h := Inventory.coherent_inferStubs (coherent_runAll ops)
  -- the stubs that `finish` adds are there already
  have hsame := (Inventory.inferStubs_eq_self_iff h).mpr (Inventory.resolved_inferStubs (coherent_runAll ops))
  rw [Extraction.find?, Inventory.definitions_finish, hsame]
  exact h.find?_slots_eq_some_iff

theorem find?_finish_of_isAscii (ops : List Operation) {name : String} (hname : IsAscii name)
    (hdefs : ∀ d ∈ (runAll .empty ops).inferStubs.registry.slots, IsAscii d.name) :
    (runAll .empty ops).inferStubs.finish.find? name = (runAll .empty ops).inferStubs.registry.lookup name := by
  have h := Inventory.coherent_inferStubs (coherent_runAll ops)
  refine Option.ext fun d => (find?_finish_eq_some_iff ops).trans (and_iff_left_of_imp fun hd => ?_)
  obtain ⟨hmem, hupper⟩ := h.lookup_eq_some_iff.mp hd
  exact (upper_eq_iff_of_isAscii (hdefs d hmem) hname).mp hupper

/-- Once stubs have been added to a reachable inventory, the extraction finds the definition that the registry finds
if that is called by the name up to ASCII case, and else nothing. So the two agree on the names whose definition, if
there is one, is called by them up to ASCII case. -/
theorem find?_finish (ops : List Operation) (name : String) :
    let inv := (runAll .empty ops).inferStubs
    (∀ d, inv.finish.find? name = some d ↔ inv.registry.lookup name = some d ∧ sameFold d.name name = true) ∧
      (inv.finish.find? name = inv.registry.lookup name ↔
        ∀ d, inv.registry.lookup name = some d → sameFold d.name name = true) := by
  intro inv
  refine ⟨fun d => find?_finish_eq_some_iff ops, ?_, ?_⟩
  · intro heq d hd
    rw [← heq] at hd
    exact ((find?_finish_eq_some_iff ops).mp hd).2
  · intro hsame
    exact Option.ext fun d => (find?_finish_eq_some_iff ops).trans (and_iff_left_of_imp (hsame d))

/-- When a table `É` is defined, as by `CREATE TABLE É`, the name `é` leads the registry to it and the extraction to
nothing. -/
theorem find?_finish_accent :
    let inv := (runAll .empty [.define (.bare "É" .table)]).inferStubs
    inv.registry.lookup "é" = some (.bare "É" .table) ∧ inv.finish.find? "é" = none := by
  decide +kernel

end Operation
end SqlLineage
