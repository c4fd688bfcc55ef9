import SqlLineage.Extraction
import SqlLineage.Proofs.Checked.Access
import SqlLineage.Proofs.Script.Trace

/-! # Filing without faults

The index of a registry leads to slots, and a slot that is not there is a fault. In a coherent registry there is none.

* `Checked.lookup_eq`, `Checked.unusedName_eq`: names are looked up without a fault.
* `Checked.define_eq`: definitions are filed without a fault.
* `Checked.finish_eq`: stubs are added, and the result is put together without a fault. -/

namespace SqlLineage
open SqlLineage.Text
set_option autoImplicit false

namespace Checked

/-! ## Looking names up -/

def lookup (r : Registry) (name : String) : Checked (Option Definition) :=
  match r.index.find? (upper name) with
  | none => .ok none
  | some i => some <$> get r.slots i

def canonicalName (r : Registry) (name : String) : Checked String :=
  (fun d? => (d?.map Definition.name).getD name) <$> lookup r name

def unusedName (r : Registry) (base : String) : Checked String := do
  match ← lookup r base with
  | none => .ok base
  | some _ => (·.getD base) <$> (r.candidates base).findM? fun n => Option.isNone <$> lookup r n

section Lookup
variable {r : Registry} (h : r.Coherent)
include h

theorem lookup_eq (name : String) : lookup r name = .ok (r.lookup name) := by
  unfold lookup Registry.lookup Registry.find?
  cases hi : r.index.find? (upper name) with
  | none => rfl
  | some i =>
    obtain ⟨d, hd, -⟩ := h.slot_of_key _ i hi
    dsimp only [Option.bind_some]
    rw [get_eq hd, hd]
    rfl

theorem canonicalName_eq (name : String) : canonicalName r name = .ok (r.canonicalName name) := by
  rw [canonicalName, lookup_eq h]
  rfl

theorem unusedName_eq (base : String) : unusedName r base = .ok (r.unusedName base) := by
  have hfree : ∀ n ∈ r.candidates base, Option.isNone <$> lookup r n = .ok !r.defines n := by
    intro n _
    rw [lookup_eq h, map_ok, Registry.defines]
    cases r.lookup n <;> rfl
  unfold unusedName Registry.unusedName Registry.defines
  rw [lookup_eq h, ok_bind]
  cases r.lookup base with
  | none => rfl
  | some d =>
    dsimp only
    rw [findM?_eq hfree]
    rfl

end Lookup

/-! ## Filing -/

/-- Puts a definition into a new slot, which is the last one. -/
def append (r : Registry) (d : Definition) : Checked (Registry × Nat) := do
  let slots := r.slots ++ [d]
  let slot ← sub slots.length 1
  .ok (⟨slots, r.index.insert (upper d.name) slot⟩, slot)

theorem append_eq (r : Registry) (d : Definition) : append r d = .ok (r.append d, r.slots.length) := by
  have hlength : (r.slots ++ [d]).length = r.slots.length + 1 := List.length_append
  rw [append, hlength, sub_eq (Nat.le_add_left 1 _), ok_bind, Nat.add_sub_cancel]
  rfl

def rename (r : Registry) (i : Nat) (old new : String) : Checked Registry := do
  let _ ← get r.slots i
  .ok (r.rename i old new)

def define (r : Registry) (d : Definition) : Checked Registry.Filed :=
  match r.index.find? (upper d.name) with
  | none => (fun a => ⟨a.1, a.2, none⟩) <$> append r d
  | some i => do
    let old ← get r.slots i
    if old.kind = .cte ∧ d.kind ≠ .cte then do
      let new ← unusedName r old.name
      let renamed ← rename r i old.name new
      (fun a => ⟨a.1, a.2, none⟩) <$> append renamed (d.redirect old.name new)
    else .ok ⟨⟨r.slots.set i d, r.index⟩, i, some old⟩

theorem define_eq {r : Registry} (h : r.Coherent) (d : Definition) : define r d = .ok (r.define d) := by
  unfold define Registry.define Registry.find?
  cases hi : r.index.find? (upper d.name) with
  | none =>
    dsimp only [Option.bind_none]
    rw [append_eq]
    rfl
  | some i =>
    obtain ⟨old, hold, -⟩ := h.slot_of_key _ i hi
    dsimp only [Option.bind_some]
    rw [get_eq hold, ok_bind, hold]
    dsimp only [Option.map_some]
    split
    · rw [unusedName_eq h, ok_bind, rename, get_eq hold, ok_bind, ok_bind, append_eq, map_ok, Registry.rename,
        List.length_map, List.length_modify]
    · rfl

def defineIn (inv : Inventory) (d : Definition) : Checked Inventory :=
  (fun filed => { inv with
    registry := filed.registry
    notices := inv.notices ++ (filed.replaced.map Notice.replaced).toList }) <$> define inv.registry d

theorem defineIn_eq {inv : Inventory} (h : inv.registry.Coherent) (d : Definition) :
    defineIn inv d = .ok (inv.define d) := by
  rw [defineIn, define_eq h]
  rfl

/-! ## The result -/

def addStub (inv : Inventory) (name : String) : Checked Inventory :=
  match Inventory.stubColumns ((inv.usage.columns? name).getD []) with
  | [] => defineIn (inv.report (.unobserved name)) ⟨name, .stub, [Column.unknownSchema], [], []⟩
  | columns => defineIn inv ⟨name, .stub, columns, [], []⟩

/-- What is found, when every reference is spelled as the definition it leads to. -/
def extraction (inv : Inventory) : Checked Extraction := do
  let discovered ← inv.usage.tables.values.mapM fun u => (fun n => (n, u.columns)) <$> canonicalName inv.registry u.table
  .ok ⟨inv.registry.slots, .ofList discovered, inv.notices⟩

def finish (inv : Inventory) : Checked Extraction := do
  let stubbed ← inv.missing.foldlM addStub inv
  extraction stubbed.canonicalize

theorem addStub_eq {inv : Inventory} (h : inv.registry.Coherent) (name : String) :
    addStub inv name = .ok (inv.addStub name) := by
  unfold addStub Inventory.addStub
  cases Inventory.stubColumns ((inv.usage.columns? name).getD []) with
  | nil =>
    have hreported : (inv.report (.unobserved name)).registry.Coherent := h
    exact defineIn_eq hreported _
  | cons c cs => exact defineIn_eq h _

theorem extraction_eq {inv : Inventory} (h : inv.registry.Coherent) :
    extraction inv = .ok ⟨inv.registry.slots,
      .ofList (inv.usage.tables.values.map fun u => (inv.registry.canonicalName u.table, u.columns)), inv.notices⟩ := by
  have hnames := mapM_eq (l := inv.usage.tables.values)
    (f := fun u => (fun n => (n, u.columns)) <$> canonicalName inv.registry u.table)
    (g := fun u => (inv.registry.canonicalName u.table, u.columns))
    (fun u _ => by rw [canonicalName_eq h, map_ok])
  rw [extraction, hnames, ok_bind]

theorem finish_eq {inv : Inventory} (h : inv.registry.Coherent) : finish inv = .ok inv.finish := by
  have hstubs := (foldlM_invariant (P := fun i : Inventory => i.registry.Coherent) (l := inv.missing)
    (fun i hi name _ => ⟨addStub_eq hi name, Inventory.coherent_addStub hi name⟩) h).1
  rw [finish, hstubs, ok_bind]
  exact extraction_eq (Inventory.coherent_inferStubs h)

end Checked
end SqlLineage
