import SqlLineage.Extraction
import SqlLineage.Proofs.Query.Trace
import SqlLineage.Session

/-! # The trace of a script

What the statements of a script file, one definition after the other, told apart by where it comes from.

* `Entry`: a common table expression, or the definition that a statement declares.
* `Statement.entries`, `Script.entries`: all entries in order. `Inventory.registry_ofStatements` says that
  filing them one by one gives the registry of the script.
* `Statement.AllRead`: what is so of everything that statements are read as. If respelling keeps it, it is so of the
  whole registry of a script, by `Inventory.forall_ofStatements`.
* `Inventory.coherent_ofStatements`, `Operation.coherent_runAll`: the registry of a script, and that of any
  sequence of operations, is coherent. -/

namespace SqlLineage
set_option autoImplicit false

/-- A definition that a statement files. -/
inductive Entry where
  | cte (filing : Filing)
  | declared (definition : Definition)

namespace Entry

def definition : Entry → Definition
  | .cte f => f.definition
  | .declared d => d

@[simp] theorem definition_cte (f : Filing) : (Entry.cte f).definition = f.definition := rfl

theorem comp_definition_cte : Entry.definition ∘ Entry.cte = Filing.definition := rfl

end Entry

@[simp] theorem Inventory.registry_define (inv : Inventory) (d : Definition) :
    (inv.define d).registry = (inv.registry.define d).registry := rfl

/-! ## One statement -/

namespace Statement

/-- The entries of a statement whose definition is a query, changed by `f`. -/
def queryEntries (r : Registry) (ts : List Token) (name : String) (kind : Definition.Kind)
    (f : Definition → Definition) : List Entry :=
  let q := Query.ofTokens ts
  let seen := q.seen ⟨r, .empty⟩
  (q.filings ⟨r, .empty⟩).map .cte ++ [.declared (f (Select.read seen q.mainBody name kind).definition)]

def entries (resultName : String) (r : Registry) : Statement → List Entry
  | .createTable name (.columns block) => [.declared (block.read name).definition]
  | .createTable name (.query ts) => queryEntries r ts name .table id
  | .createTable name .empty => [.declared (.bare name .table)]
  | .createView name columns ts => queryEntries r ts name .view (·.renameColumns columns)
  | .query ts => queryEntries r ts (r.unusedName resultName) .view id

/-- The entries of the text of a statement; a text that is no statement has none. -/
def textEntries (resultName : String) (r : Registry) (text : String) : List Entry :=
  match ofTokens? (Token.scan text) with
  | some s => s.entries resultName r
  | none => []

theorem registry_addQuery (inv : Inventory) (ts : List Token) (name : String) (kind : Definition.Kind)
    (f : Definition → Definition) :
    (addQuery inv ts name kind f).registry =
      inv.registry.fileAll ((queryEntries inv.registry ts name kind f).map Entry.definition) := by
  have hr := (Query.ofTokens ts).registry_unwind name kind inv .empty
  have hd := ((Query.ofTokens ts).unwind_eq name kind inv .empty).2
  rw [addQuery, queryEntries, List.map_append, List.map_map, Entry.comp_definition_cte,
    Registry.fileAll_append, Inventory.registry_define, hr, hd]
  rfl

theorem registry_addTo (resultName : String) (inv : Inventory) (s : Statement) :
    (s.addTo resultName inv).registry =
      inv.registry.fileAll ((s.entries resultName inv.registry).map Entry.definition) := by
  cases s with
  | createTable name body =>
    cases body with
    | columns block =>
      rw [addTo, entries, Inventory.registry_define, Inventory.registry_absorb]
      split <;> rfl
    | query ts =>
      rw [addTo, entries]
      exact registry_addQuery inv ts name .table id
    | empty => rfl
  | createView name columns ts =>
    rw [addTo, entries]
    exact registry_addQuery inv ts name .view _
  | query ts =>
    rw [addTo, entries]
    exact registry_addQuery inv ts _ .view id

theorem registry_addText (resultName : String) (inv : Inventory) (text : String) :
    (addText resultName inv text).registry =
      inv.registry.fileAll ((textEntries resultName inv.registry text).map Entry.definition) := by
  unfold addText textEntries
  cases ofTokens? (Token.scan text) with
  | none => rfl
  | some s => exact registry_addTo resultName inv s

/-- Whatever statements are read as is `P`: column blocks, tables without a body, and query bodies under any column
names. -/
structure AllRead (P : Definition → Prop) : Prop where
  block : ∀ (b : ColumnBlock) (name : String), P (b.read name).definition
  bare : ∀ name, P (.bare name .table)
  query : ∀ env ts name kind names, kind ≠ .stub → P ((Select.read env ts name kind).definition.renameColumns names)

theorem AllRead.entries {P : Definition → Prop} (h : AllRead P) (resultName : String) (r : Registry) (s : Statement) :
    ∀ e ∈ s.entries resultName r, P e.definition := by
  have hentries : ∀ (ts : List Token) (name : String) (kind : Definition.Kind) (names : List String),
      kind ≠ .stub → ∀ e ∈ queryEntries r ts name kind (·.renameColumns names), P e.definition := by
    intro ts name kind names hk e he
    rcases List.mem_append.mp he with he | he
    · obtain ⟨f, -, rfl⟩ := List.mem_map.mp he
      exact h.query f.environment f.body f.name .cte f.head.columns (by rintro ⟨⟩)
    · rw [List.mem_singleton.mp he]
      exact h.query _ _ name kind names hk
  have hid : (id : Definition → Definition) = (·.renameColumns []) :=
    funext fun d => (Definition.renameColumns_nil d).symm
  cases s with
  | createTable name body =>
    cases body with
    | columns block =>
      intro e he
      rw [List.mem_singleton.mp he]
      exact h.block block name
    | query ts =>
      rw [Statement.entries, hid]
      exact hentries ts name .table [] (by rintro ⟨⟩)
    | empty =>
      intro e he
      rw [List.mem_singleton.mp he]
      exact h.bare name
  | createView name columns ts =>
    rw [Statement.entries]
    exact hentries ts name .view columns (by rintro ⟨⟩)
  | query ts =>
    rw [Statement.entries, hid]
    exact hentries ts _ .view [] (by rintro ⟨⟩)

end Statement

/-! ## Whole scripts -/

namespace Script

def entries (resultName : String) (r : Registry) : List String → List Entry
  | [] => []
  | text :: texts =>
    let es := Statement.textEntries resultName r text
    es ++ entries resultName (r.fileAll (es.map Entry.definition)) texts

theorem forall_entries {P : Definition → Prop} (h : Statement.AllRead P) (resultName : String) (r : Registry)
    (texts : List String) : ∀ e ∈ entries resultName r texts, P e.definition := by
  induction texts generalizing r with
  | nil =>
    intro e he
    cases he
  | cons text texts ih =>
    intro e he
    rcases List.mem_append.mp he with he | he
    · unfold Statement.textEntries at he
      split at he
      · exact h.entries resultName r _ e he
      · cases he
    · exact ih _ e he

end Script

namespace Inventory

theorem registry_foldl_addText (resultName : String) (texts : List String) (inv : Inventory) :
    (texts.foldl (Statement.addText resultName) inv).registry =
      inv.registry.fileAll ((Script.entries resultName inv.registry texts).map Entry.definition) := by
  induction texts generalizing inv with
  | nil => rfl
  | cons text texts ih =>
    rw [List.foldl_cons, ih, Script.entries, List.map_append, Registry.fileAll_append,
      Statement.registry_addText]

theorem registry_ofStatements (resultName : String) (texts : List String) :
    (ofStatements resultName texts).registry =
      Registry.empty.fileAll ((Script.entries resultName .empty texts).map Entry.definition) :=
  registry_foldl_addText resultName texts .empty

theorem coherent_ofStatements (resultName : String) (texts : List String) :
    (ofStatements resultName texts).registry.Coherent := by
  rw [registry_ofStatements]
  exact Registry.coherent_empty.fileAll _

/-- What is so of all that statements are read as, and kept by respelling, is so of everything in the registry of a
script. -/
theorem forall_ofStatements {P : Definition → Prop} (h : Statement.AllRead P)
    (hP : ∀ f d, P d → P (d.mapReferenced f) ∧ P (d.respelled f)) (resultName : String) (texts : List String) :
    ∀ d ∈ (ofStatements resultName texts).registry.slots, P d := by
  rw [registry_ofStatements]
  refine Registry.coherent_empty.forall_fileAll hP (fun d hd => ?_) fun d hd => ?_
  · cases hd
  · obtain ⟨e, he, rfl⟩ := List.mem_map.mp hd
    exact Script.forall_entries h resultName .empty texts e he

/-! ## Operations -/

theorem coherent_unwind (q : Query) (name : String) (kind : Definition.Kind) {inv : Inventory}
    (ctes : CteBindings) (h : inv.registry.Coherent) :
    (q.unwind name kind inv ctes).inventory.registry.Coherent := by
  rw [q.registry_unwind]
  exact h.fileAll _

theorem coherent_addStub {inv : Inventory} (h : inv.registry.Coherent) (name : String) :
    (inv.addStub name).registry.Coherent := by
  unfold addStub
  split <;> exact h.define _

theorem coherent_inferStubs {inv : Inventory} (h : inv.registry.Coherent) : inv.inferStubs.registry.Coherent := by
  have hall : ∀ (names : List String) (i : Inventory), i.registry.Coherent →
      (names.foldl addStub i).registry.Coherent := by
    intro names
    induction names with
    | nil => exact fun i hi => hi
    | cons name names ih => exact fun i hi => ih _ (coherent_addStub hi name)
  exact (hall inv.missing inv h).mapReferenced _

end Inventory

namespace Operation

theorem coherent_fileIf (file : Bool) {inv : Inventory} (h : inv.registry.Coherent) (d : Definition)
    (ctes? : Option CteBindings) : (fileIf file inv d ctes?).inventory.registry.Coherent := by
  unfold fileIf
  split
  · exact h.define d
  · exact h

theorem coherent_run {inv : Inventory} (h : inv.registry.Coherent) (op : Operation) :
    (op.run inv).inventory.registry.Coherent := by
  cases op with
  | define d => exact h.define d
  | observe use => exact h
  | report n => exact h
  | query ts name kind ctes columns file =>
    exact coherent_fileIf file (Inventory.coherent_unwind _ name kind ctes h) _ _
  | block b name file =>
    have ha : (inv.absorb (b.read name)).registry.Coherent := h
    exact coherent_fileIf file ha _ none
  | inferStubs => exact Inventory.coherent_inferStubs h

theorem coherent_runAll (ops : List Operation) : (runAll .empty ops).registry.Coherent := by
  have hall : ∀ inv : Inventory, inv.registry.Coherent → (runAll inv ops).registry.Coherent := by
    induction ops with
    | nil => exact fun inv h => h
    | cons op ops ih => exact fun inv h => ih _ (coherent_run h op)
  exact hall .empty Registry.coherent_empty

end Operation
end SqlLineage
