import SqlLineage.Proofs.Script.Trace

/-! # What filing a definition does

Filing a definition into an inventory that operations can reach does one of three things, and touches nothing else.

* `Appends`: the name is free, and the definition gets a slot behind all others.
* `Moves`: a common table expression has the name, and the definition is none. The common table expression stays in
  its slot under the first free name after its own, all references to it follow, and the definition is appended.
* `Replaces`: any other definition has the name. The new one takes its slot, and one notice names the old one.
* `Operation.define_exactly_one`: just one of them happens, and looking the name up finds the definition. -/

namespace SqlLineage
open SqlLineage.Text
set_option autoImplicit false

/-! ## References to one name -/

/-- `d'` says what `d` says, except that it refers to `new` where `d` refers to exactly `old`; it may have another
name. -/
structure Definition.Redirected (old new : String) (d d' : Definition) : Prop where
  kind : d'.kind = d.kind
  columns : d'.columns = d.columns
  references : d'.references = d.references.map fun r => if r.table = old then { r with table := new } else r
  lineage : d'.lineage = d.lineage.map fun r => if r.sourceTable = old then { r with sourceTable := new } else r

theorem Definition.redirected_mapReferenced (old new : String) (d : Definition) :
    Redirected old new d (d.mapReferenced fun n => if n = old then new else n) where
  kind := rfl
  columns := rfl
  references := by
    refine List.map_congr_left fun r _ => ?_
    by_cases h : r.table = old
    · simp [h]
    · simp [h]
  lineage := by
    refine List.map_congr_left fun r _ => ?_
    by_cases h : r.sourceTable = old
    · simp [h]
    · simp [h]

theorem Definition.Redirected.withName {old new : String} {d d' : Definition} (h : Redirected old new d d')
    (name : String) : Redirected old new d { d' with name := name } :=
  ⟨h.kind, h.columns, h.references, h.lineage⟩

/-! ## The three outcomes -/

section Outcomes
variable (inv : Inventory) (d : Definition) (out : Outcome)

structure Appends : Prop where
  free : ¬ Taken inv.registry.slots d.name
  slots : out.inventory.registry.slots = inv.registry.slots ++ [d]
  slot : out.slot? = some inv.registry.slots.length
  notices : out.inventory.notices = inv.notices

/-- The common table expression `old` in slot `i` gives way and is called `new` then. -/
structure Moves (i : Nat) (old : Definition) (new : String) : Prop where
  held : inv.registry.slots[i]? = some old
  name : upper old.name = upper d.name
  kinds : old.kind = .cte ∧ d.kind ≠ .cte
  free : FirstFree inv.registry.slots old.name new
  length : out.inventory.registry.slots.length = inv.registry.slots.length + 1
  moved : ∃ e, out.inventory.registry.slots[i]? = some e ∧ e.name = new ∧ old.Redirected old.name new e
  others : ∀ j o, j ≠ i → inv.registry.slots[j]? = some o →
    ∃ e, out.inventory.registry.slots[j]? = some e ∧ e.name = o.name ∧ o.Redirected old.name new e
  filed : ∃ e, out.inventory.registry.slots[inv.registry.slots.length]? = some e ∧ e.name = d.name ∧
    d.Redirected old.name new e
  slot : out.slot? = some inv.registry.slots.length
  notices : out.inventory.notices = inv.notices

/-- The definition `old` in slot `i` is replaced. -/
structure Replaces (i : Nat) (old : Definition) : Prop where
  held : inv.registry.slots[i]? = some old
  name : upper old.name = upper d.name
  kinds : old.kind = .cte → d.kind = .cte
  slots : out.inventory.registry.slots = inv.registry.slots.set i d
  slot : out.slot? = some i
  notices : ∃ message, out.inventory.notices = inv.notices ++ [⟨.redefinition, old.name, message⟩]

end Outcomes

/-! ## They exclude each other -/

section Exclusion
variable {inv : Inventory} {d : Definition} {out : Outcome} {i j : Nat} {old old' : Definition} {new : String}

theorem Appends.not_moves (h : Appends inv d out) : ¬ Moves inv d out i old new := by
  intro hm
  exact h.free ⟨old, List.mem_of_getElem? hm.held, hm.name⟩

theorem Appends.not_replaces (h : Appends inv d out) : ¬ Replaces inv d out i old := by
  intro hr
  exact h.free ⟨old, List.mem_of_getElem? hr.held, hr.name⟩

/-- One definition at most has the name, and its kind says which of the two happens. -/
theorem Moves.not_replaces (hc : inv.registry.Coherent) (h : Moves inv d out i old new) :
    ¬ Replaces inv d out j old' := by
  intro hr
  obtain rfl := hc.slot_unique h.held hr.held (h.name.trans hr.name.symm)
  obtain rfl : old = old' := Option.some.inj (h.held ▸ hr.held)
  exact h.kinds.2 (hr.kinds h.kinds.1)

end Exclusion

/-! ## One of them happens -/

namespace Operation

theorem moves_run {inv : Inventory} (h : inv.registry.Coherent) {d old : Definition} {i : Nat}
    (hf : inv.registry.find? d.name = some (i, old)) (hold : old.kind = .cte) (hd : d.kind ≠ .cte)
    (hdef : inv.registry.define d = ⟨(inv.registry.rename i old.name (inv.registry.unusedName old.name)).append
      (d.redirect old.name (inv.registry.unusedName old.name)), inv.registry.slots.length, none⟩) :
    Moves inv d ((Operation.define d).run inv) i old (inv.registry.unusedName old.name) := by
  obtain ⟨hi, hn⟩ := h.find?_eq_some_iff.mp hf
  have hslot : ∀ j, ((Operation.define d).run inv).inventory.registry.slots[j]? =
      if j = inv.registry.slots.length then
        some (d.mapReferenced fun n => if n = old.name then inv.registry.unusedName old.name else n)
      else inv.registry.slots[j]?.map
        (·.respelled fun n => if n = old.name then inv.registry.unusedName old.name else n) := by
    intro j
    have hg := h.getElem?_define d j
    rwa [Registry.respellOne_of_moves hf hold hd, congrArg Registry.Filed.slot hdef] at hg
  have hlt : ∀ {j : Nat} {o : Definition}, inv.registry.slots[j]? = some o → j ≠ inv.registry.slots.length :=
    fun hj => Nat.ne_of_lt (List.getElem?_eq_some_iff.mp hj).1
  refine ⟨hi, hn, ⟨hold, hd⟩, h.firstFree_unusedName old.name, ?length, ?moved, ?others, ?filed, ?slot, ?notices⟩
  case length =>
    show (inv.registry.define d).registry.slots.length = _
    rw [hdef, Registry.slots_append, List.length_append, Registry.length_slots_rename]
    rfl
  case moved =>
    have hs := hslot i
    rw [if_neg (hlt hi), hi] at hs
    exact ⟨_, hs, if_pos rfl, (Definition.redirected_mapReferenced _ _ old).withName _⟩
  case others =>
    intro j o hji hj
    have hs := hslot j
    rw [if_neg (hlt hj), hj] at hs
    -- only the common table expression itself has the old name
    have hne : o.name ≠ old.name := fun hno => hji (h.slot_unique hj hi (by rw [hno]))
    exact ⟨_, hs, if_neg hne, (Definition.redirected_mapReferenced _ _ o).withName _⟩
  case filed =>
    have hs := hslot inv.registry.slots.length
    rw [if_pos rfl] at hs
    exact ⟨_, hs, rfl, Definition.redirected_mapReferenced _ _ d⟩
  case slot => exact congrArg (fun f => some f.slot) hdef
  case notices =>
    show inv.notices ++ ((inv.registry.define d).replaced.map Notice.replaced).toList = inv.notices
    rw [hdef]
    exact List.append_nil _

theorem one_of_three {inv : Inventory} (h : inv.registry.Coherent) (d : Definition) :
    Appends inv d ((Operation.define d).run inv) ∨
      (∃ i old new, Moves inv d ((Operation.define d).run inv) i old new) ∨
      ∃ i old, Replaces inv d ((Operation.define d).run inv) i old := by
  have hreg : ((Operation.define d).run inv).inventory.registry = (inv.registry.define d).registry := rfl
  have hslot : ((Operation.define d).run inv).slot? = some (inv.registry.define d).slot := rfl
  have hnotices : ((Operation.define d).run inv).inventory.notices =
      inv.notices ++ ((inv.registry.define d).replaced.map Notice.replaced).toList := rfl
  rcases Registry.define_cases inv.registry d with ⟨hf, hd⟩ | ⟨i, old, hf, hold, hk, hd⟩ | ⟨i, old, hf, hk, hd⟩
  · refine .inl ⟨?_, by rw [hreg, hd, Registry.slots_append], by rw [hslot, hd], by rw [hnotices, hd]; simp⟩
    rintro ⟨e, he, hn⟩
    exact h.find?_eq_none_iff.mp hf e he hn
  · exact .inr (.inl ⟨i, old, _, moves_run h hf hold hk hd⟩)
  · obtain ⟨hi, hn⟩ := h.find?_eq_some_iff.mp hf
    exact .inr (.inr ⟨i, old, hi, hn, hk, by rw [hreg, hd], by rw [hslot, hd], _, by rw [hnotices, hd]; rfl⟩)

/-- The slot that filing returns holds the definition, and its name leads there. -/
theorem lookup_filed {inv : Inventory} (h : inv.registry.Coherent) (d : Definition) :
    ∃ slot e, ((Operation.define d).run inv).slot? = some slot ∧
      ((Operation.define d).run inv).inventory.registry.slots[slot]? = some e ∧
      ((Operation.define d).run inv).inventory.registry.lookup d.name = some e ∧
      e.name = d.name ∧ e.kind = d.kind ∧ e.columns = d.columns := by
  have hs := h.getElem?_define d (inv.registry.define d).slot
  rw [if_pos rfl] at hs
  exact ⟨_, _, rfl, hs, (h.define d).lookup_eq_some_iff.mpr ⟨List.mem_of_getElem? hs, rfl⟩, rfl, rfl, rfl⟩

/-- Filing a definition into an inventory that operations can reach appends it, or moves the common table expression
that has its name, or replaces the definition that has its name: just one of the three. In each case the slot that is
returned holds the definition, its name leads there, and so does every other name to the definition that has it; what
has been observed stays as it is. -/
theorem define_exactly_one (ops : List Operation) (d : Definition) :
    let inv := runAll .empty ops
    let out := (Operation.define d).run inv
    let appends := Appends inv d out
    let moves := ∃ i old new, Moves inv d out i old new
    let replaces := ∃ i old, Replaces inv d out i old
    (appends ∧ ¬ moves ∧ ¬ replaces ∨ ¬ appends ∧ moves ∧ ¬ replaces ∨ ¬ appends ∧ ¬ moves ∧ replaces) ∧
      (∃ slot e, out.slot? = some slot ∧ out.inventory.registry.slots[slot]? = some e ∧
        out.inventory.registry.lookup d.name = some e ∧ e.name = d.name ∧ e.kind = d.kind ∧ e.columns = d.columns) ∧
      (∀ name e, out.inventory.registry.lookup name = some e ↔
        e ∈ out.inventory.registry.slots ∧ upper e.name = upper name) ∧
      out.inventory.usage = inv.usage := by
  intro inv out appends moves replaces
  have h : inv.registry.Coherent := coherent_runAll ops
  refine ⟨?_, lookup_filed h d, fun name e => (h.define d).lookup_eq_some_iff, rfl⟩
  rcases one_of_three h d with ha | ⟨i, old, new, hm⟩ | ⟨i, old, hr⟩
  · exact .inl ⟨ha, fun ⟨_, _, _, hm⟩ => ha.not_moves hm, fun ⟨_, _, hr⟩ => ha.not_replaces hr⟩
  · exact .inr (.inl ⟨fun ha => ha.not_moves hm, ⟨i, old, new, hm⟩, fun ⟨_, _, hr⟩ => hm.not_replaces h hr⟩)
  · exact .inr (.inr ⟨fun ha => ha.not_replaces hr, fun ⟨_, _, _, hm⟩ => hm.not_replaces h hr, ⟨i, old, hr⟩⟩)

/-- A table takes the name of a common table expression for the second time, and the moved one refers to itself. -/
example :
    let cte : Definition := ⟨"a", .cte, [], [.uses "a"], [⟨"a", "x", "x", false⟩]⟩
    let table : Definition := ⟨"A", .table, [], [.uses "a", .uses "A"], []⟩
    ((runAll .empty [.define cte, .define ⟨"a 2", .view, [], [], []⟩, .define table]).registry.slots) =
      [⟨"a 3", .cte, [], [.uses "a 3"], [⟨"a 3", "x", "x", false⟩]⟩, ⟨"a 2", .view, [], [], []⟩,
        ⟨"A", .table, [], [.uses "a 3", .uses "A"], []⟩] := by
  decide +kernel

end Operation
end SqlLineage
