import SqlLineage.Proofs.Checked.Query
import SqlLineage.Proofs.Checked.Scan
import SqlLineage.Proofs.Checked.Statement

/-! # Extraction without faults

* `Checked.ofScript`: the whole way from a script to what it says, with every access checked.
* `Checked.addText_eq`: one statement is added without a fault.
* `Checked.extraction_total`: no script leads to a fault, and every query is read by calls on fewer tokens and a loop
  that gets on. -/

namespace SqlLineage
set_option autoImplicit false

namespace Checked

/-! ## One statement -/

def addQuery (inv : Inventory) (ts : List Token) (name : String) (kind : Definition.Kind)
    (f : Definition → Definition) : Checked Inventory := do
  let u ← unwind ts name kind inv .empty
  defineIn u.inventory (f u.definition)

def addTo (resultName : String) (inv : Inventory) : Statement → Checked Inventory
  | .createTable name (.columns b) => do
    let inv := if b.closed then inv else inv.report (.unclosedBlock name)
    let r ← block b name
    defineIn (inv.absorb r) r.definition
  | .createTable name (.query ts) => addQuery inv ts name .table id
  | .createTable name .empty => defineIn inv (.bare name .table)
  | .createView name columns ts => addQuery inv ts name .view (·.renameColumns columns)
  | .query ts => do
    let name ← unusedName inv.registry resultName
    addQuery inv ts name .view id

def addText (resultName : String) (inv : Inventory) (text : String) : Checked Inventory := do
  let ts ← scan text
  match ← statement? ts with
  | some s => addTo resultName inv s
  | none => .ok (inv.report (.skipped (Statement.summary text)))

section Statement
variable {inv : Inventory} (h : inv.registry.Coherent)
include h

theorem addQuery_eq (ts : List Token) (name : String) (kind : Definition.Kind) (f : Definition → Definition) :
    addQuery inv ts name kind f = .ok (Statement.addQuery inv ts name kind f) := by
  rw [addQuery, unwind_eq ts name kind inv .empty h, ok_bind]
  exact defineIn_eq (Inventory.coherent_unwind _ name kind .empty h) _

theorem addTo_eq (resultName : String) (s : Statement) :
    addTo resultName inv s = .ok (s.addTo resultName inv) := by
  cases s with
  | createTable name body =>
    cases body with
    | columns b =>
      rw [addTo, block_eq, ok_bind]
      refine defineIn_eq ?_ _
      rw [Inventory.registry_absorb]
      split <;> exact h
    | query ts => rw [addTo, Statement.addTo, addQuery_eq h]
    | empty => rw [addTo, Statement.addTo, defineIn_eq h]
  | createView name columns ts => rw [addTo, Statement.addTo, addQuery_eq h]
  | query ts => rw [addTo, Statement.addTo, unusedName_eq h, ok_bind, addQuery_eq h]

theorem addText_eq (resultName text : String) :
    addText resultName inv text = .ok (Statement.addText resultName inv text) := by
  rw [addText, scan_eq, ok_bind, statement?_eq, ok_bind, Statement.addText]
  cases Statement.ofTokens? (Token.scan text) with
  | none => rfl
  | some s => exact addTo_eq h resultName s

end Statement

/-! ## Whole scripts -/

def ofScript (script resultName : String) : Checked Extraction := do
  let stripped ← strip script
  let inv ← (Script.statements stripped).foldlM (addText resultName) .empty
  finish inv

theorem ofScript_eq (script resultName : String) :
    ofScript script resultName = .ok (Extraction.ofScript script resultName) := by
  obtain ⟨hread, hcoherent⟩ := foldlM_invariant (P := fun inv : Inventory => inv.registry.Coherent)
    (f := addText resultName) (g := Statement.addText resultName) (l := Script.statements (Comment.strip script))
    (fun inv h text _ => ⟨addText_eq h resultName text, by
      rw [Statement.registry_addText]
      exact h.fileAll _⟩)
    (b := .empty) Registry.coherent_empty
  rw [ofScript, strip_eq, ok_bind, hread, ok_bind]
  exact finish_eq hcoherent

/-- No script leads to a fault: with every access checked, it says what it says without the checks. The queries in it
are read by a loop over the tokens, in which the index behind a common table expression is beyond the one it was read
at, and by recursive calls on the bodies, which are slices with fewer tokens. -/
theorem extraction_total :
    (∀ script resultName : String, ofScript script resultName = .ok (Extraction.ofScript script resultName)) ∧
    ∀ (recursive : Bool) (ts : List Token) (start : Nat) (c : CteAt), readCte recursive ts start = .ok (some c) →
      start < c.next ∧ c.body <:+: ts ∧ c.body.length < ts.length := by
  refine ⟨ofScript_eq, fun recursive ts start c h => ?_⟩
  obtain ⟨-, hnext, hbody⟩ := readCte_shrinks h
  exact ⟨hnext, readCte_infix h, hbody⟩

end Checked
end SqlLineage
