import SqlLineage.Proofs.Query.CteNames
import SqlLineage.Proofs.Registry.Spelling
import SqlLineage.Proofs.Script.StubColumns

/-! # What becomes of every statement

* `Statement.declaration`: the one definition that a statement makes itself, and everything found before that is
  filed. `Statement.registry_declaration` says that only common table expressions are filed before it.
* `Script.turns`: the texts of a script, each with what was found before it.
* `Registry.Stands`: a definition is there, with its name, its kind and its columns. It stays so until its name is
  filed again, see `Script.stands_turns`.
* `Extraction.last_declaration_wins`: every text is skipped or makes one definition, and of the statements that
  declare one name the last one has it in the result. -/

namespace SqlLineage
open SqlLineage.Text
set_option autoImplicit false

/-! ## The definition of a statement -/

/-- The definition that a statement makes itself, and everything found before it is filed. -/
structure Declaration where
  inventory : Inventory
  definition : Definition

namespace Declaration

/-- What the registry does with the definition. -/
def filed (d : Declaration) : Registry.Filed :=
  d.inventory.registry.define d.definition

/-- What is found behind the statement. -/
def after (d : Declaration) : Inventory :=
  d.inventory.define d.definition

end Declaration

namespace Statement

/-- The name that a statement declares. A bare query declares none. -/
def declared? : Statement → Option String
  | .createTable name _ => some name
  | .createView name _ _ => some name
  | .query _ => none

def kind : Statement → Definition.Kind
  | .createTable _ _ => .table
  | .createView _ _ _ => .view
  | .query _ => .view

def queryDeclaration (inv : Inventory) (ts : List Token) (name : String) (kind : Definition.Kind)
    (f : Definition → Definition) : Declaration :=
  let u := (Query.ofTokens ts).unwind name kind inv .empty
  ⟨u.inventory, f u.definition⟩

def declaration (resultName : String) (inv : Inventory) : Statement → Declaration
  | .createTable name (.columns block) =>
    let r := block.read name
    ⟨(if block.closed then inv else inv.report (.unclosedBlock name)).absorb r, r.definition⟩
  | .createTable name (.query ts) => queryDeclaration inv ts name .table id
  | .createTable name .empty => ⟨inv, .bare name .table⟩
  | .createView name columns ts => queryDeclaration inv ts name .view (·.renameColumns columns)
  | .query ts => queryDeclaration inv ts (inv.registry.unusedName resultName) .view id

/-- The query of a statement, if it has one. -/
def query? : Statement → Option Query
  | .createTable _ (.query ts) => some (.ofTokens ts)
  | .createTable _ _ => none
  | .createView _ _ ts => some (.ofTokens ts)
  | .query ts => some (.ofTokens ts)

/-- The common table expressions of a statement that begins with the registry `r`. -/
def ctes (r : Registry) (s : Statement) : List Definition :=
  (s.query?.toList.flatMap fun q => q.filings ⟨r, .empty⟩).map Filing.definition

theorem kind_ne_cte (s : Statement) : s.kind ≠ .cte := by
  cases s <;> rintro ⟨⟩

section Declaration
variable (resultName : String) (inv : Inventory) (s : Statement)

/-- All that a statement files itself is its declaration. -/
theorem addTo_eq : s.addTo resultName inv = (s.declaration resultName inv).after := by
  cases s with
  | createTable name body => cases body <;> rfl
  | createView name columns ts => rfl
  | query ts => rfl

theorem kind_definition : (s.declaration resultName inv).definition.kind = s.kind := by
  have hquery : ∀ (ts : List Token) (name : String) (kind : Definition.Kind),
      ((Query.ofTokens ts).unwind name kind inv .empty).definition.kind = kind := by
    intro ts name kind
    rw [((Query.ofTokens ts).unwind_eq name kind inv .empty).2, Select.kind_read]
  cases s with
  | createTable name body =>
    cases body with
    | columns block => rfl
    | query ts => exact hquery ts name .table
    | empty => rfl
  | createView name columns ts => exact hquery ts name .view
  | query ts => exact hquery ts _ .view

theorem name_definition : (s.declaration resultName inv).definition.name =
    s.declared?.getD (inv.registry.unusedName resultName) := by
  have hquery : ∀ (ts : List Token) (name : String) (kind : Definition.Kind),
      ((Query.ofTokens ts).unwind name kind inv .empty).definition.name = name := by
    intro ts name kind
    rw [((Query.ofTokens ts).unwind_eq name kind inv .empty).2, Select.name_read]
  cases s with
  | createTable name body =>
    cases body with
    | columns block => rfl
    | query ts => exact hquery ts name .table
    | empty => rfl
  | createView name columns ts => exact hquery ts name .view
  | query ts => exact hquery ts _ .view

/-- Before its own definition a statement files its common table expressions and nothing else. -/
theorem registry_declaration :
    (s.declaration resultName inv).inventory.registry = inv.registry.fileAll (s.ctes inv.registry) := by
  have hquery : ∀ (ts : List Token) (name : String) (kind : Definition.Kind) (f : Definition → Definition),
      (queryDeclaration inv ts name kind f).inventory.registry = inv.registry.fileAll
        (([Query.ofTokens ts].flatMap fun q => q.filings ⟨inv.registry, .empty⟩).map Filing.definition) := by
    intro ts name kind f
    rw [List.flatMap_singleton]
    exact (Query.ofTokens ts).registry_unwind name kind inv .empty
  cases s with
  | createTable name body =>
    cases body with
    | columns block =>
      rw [declaration, Inventory.registry_absorb]
      split <;> rfl
    | query ts => exact hquery ts name .table id
    | empty => rfl
  | createView name columns ts => exact hquery ts name .view _
  | query ts => exact hquery ts _ .view id

/-- The redefinitions that are reported before the definition of the statement is filed are those among its common
table expressions. -/
theorem redefinitions_declaration :
    (s.declaration resultName inv).inventory.redefinitions =
      inv.redefinitions ++ (inv.registry.replacedBy (s.ctes inv.registry)).map Notice.replaced := by
  have hquery : ∀ (ts : List Token) (name : String) (kind : Definition.Kind) (f : Definition → Definition),
      (queryDeclaration inv ts name kind f).inventory.redefinitions = inv.redefinitions ++
        (inv.registry.replacedBy (([Query.ofTokens ts].flatMap fun q =>
          q.filings ⟨inv.registry, .empty⟩).map Filing.definition)).map Notice.replaced := by
    intro ts name kind f
    rw [List.flatMap_singleton]
    exact (Query.ofTokens ts).redefinitions_unwind name kind inv .empty
  have hnone : inv.redefinitions = inv.redefinitions ++ (inv.registry.replacedBy []).map Notice.replaced :=
    (List.append_nil _).symm
  cases s with
  | createTable name body =>
    cases body with
    | columns block =>
      refine Eq.trans ?_ hnone
      rw [declaration]
      refine (Inventory.noticesOf_absorb fun n hn => by simp [(ColumnBlock.mem_notices_read hn).1]).trans ?_
      split
      · rfl
      · exact Inventory.redefinitions_report (by rintro ⟨⟩)
    | query ts => exact hquery ts name .table id
    | empty => exact hnone
  | createView name columns ts => exact hquery ts name .view _
  | query ts => exact hquery ts _ .view id

end Declaration

/-- Common table expressions take names that are free before their statement. -/
theorem free_of_mem_ctes {r : Registry} (h : r.Coherent) (s : Statement) :
    ∀ d ∈ s.ctes r, d.kind = .cte ∧ r.defines d.name = false := by
  intro d hd
  obtain ⟨f, hf, rfl⟩ := List.mem_map.mp hd
  obtain ⟨q, -, hf⟩ := List.mem_flatMap.mp hf
  rw [f.name_definition]
  exact ⟨f.kind_definition, q.free_of_mem_filings h f hf⟩

/-- So whether a table or view has a name is the same before them and behind them. -/
theorem lookup_fileAll_ctes {r : Registry} (h : r.Coherent) (s : Statement) {name : String} {d : Definition}
    (hd : d.kind ≠ .cte) : (r.fileAll (s.ctes r)).lookup name = some d ↔ r.lookup name = some d := by
  rw [(h.fileAll _).lookup_eq_some_iff, h.lookup_eq_some_iff]
  refine and_congr_left fun _ => ⟨fun hin => ?_, fun hin => ?_⟩
  · exact (Registry.mem_fileAll_ctes (fun c hc => (s.free_of_mem_ctes h c hc).1) hin).resolve_right hd
  · exact (h.prefix_fileAll h (List.prefix_refl _) (s.free_of_mem_ctes h)).subset hin

end Statement

namespace Registry

/-- Filing a table or view replaces something just when a table or view has the name. -/
theorem replaced_define_of_table (r : Registry) {d : Definition} (hd : d.kind ≠ .cte) :
    (r.define d).replaced = (r.lookup d.name).filter (·.kind ≠ .cte) := by
  rcases define_cases r d with ⟨hf, hdef⟩ | ⟨i, old, hf, hold, -, hdef⟩ | ⟨i, old, hf, hkind, hdef⟩
  · rw [hdef, lookup, hf]
    rfl
  · rw [hdef, lookup, hf, Option.map_some, Option.filter_some_neg (by simpa using hold)]
  · have hold : old.kind ≠ .cte := fun hcte => hd (hkind hcte)
    rw [hdef, lookup, hf, Option.map_some, Option.filter_some_pos (by simpa using hold)]

/-! ## Definitions that stay -/

/-- A definition with the name, the kind and the columns of `d` is there. -/
def Stands (r : Registry) (d : Definition) : Prop :=
  ∃ D ∈ r.slots, D.name = d.name ∧ D.kind = d.kind ∧ D.columns = d.columns

variable {r : Registry}

theorem Coherent.stands_define_self (h : r.Coherent) (d : Definition) : (r.define d).registry.Stands d := by
  have hslot := h.getElem?_define d (r.define d).slot
  rw [if_pos rfl] at hslot
  exact ⟨_, List.mem_of_getElem? hslot, rfl, rfl, rfl⟩

/-- Filing a definition of another name changes at most what a definition refers to. -/
theorem Coherent.stands_define (h : r.Coherent) {d x : Definition} (hd : r.Stands d)
    (hx : upper d.name ≠ upper x.name) : (r.define x).registry.Stands d := by
  obtain ⟨D, hD, hname, hkind, hcolumns⟩ := hd
  obtain ⟨i, hi⟩ := List.mem_iff_getElem?.mp hD
  obtain ⟨hne, D', hD', hsame⟩ := h.stays_define hi (hname ▸ hx)
  have hslot := h.getElem?_define x i
  rw [if_neg hne, hi, hD'] at hslot
  obtain rfl := Option.some.inj hslot
  exact ⟨_, List.mem_of_getElem? hD', hsame.trans hname, hkind, hcolumns⟩

theorem Coherent.stands_fileAll (h : r.Coherent) {d : Definition} {xs : List Definition} (hd : r.Stands d)
    (hxs : ∀ x ∈ xs, upper d.name ≠ upper x.name) : (r.fileAll xs).Stands d := by
  induction xs generalizing r with
  | nil => exact hd
  | cons x xs ih =>
    obtain ⟨hx, hxs⟩ := List.forall_mem_cons.mp hxs
    exact ih (h.define x) (h.stands_define hd hx) hxs

theorem Stands.defines (h : r.Coherent) {d : Definition} (hd : r.Stands d) : r.defines d.name = true := by
  obtain ⟨D, hD, hname, -⟩ := hd
  exact h.defines_iff.mpr ⟨D, hD, by rw [hname]⟩

end Registry

/-- In the result no other definition has the name. -/
theorem Inventory.filter_definitions {inv : Inventory} (h : inv.registry.Coherent) {d : Definition}
    (hd : inv.registry.Stands d) :
    ∃ D, inv.finish.definitions.filter (fun D => upper D.name = upper d.name) = [D] ∧
      D.name = d.name ∧ D.kind = d.kind ∧ D.columns = d.columns := by
  obtain ⟨D, hD, hname, hkind, hcolumns⟩ := hd
  have hnodup := (coherent_inferStubs h).nodup_upper
  rw [definitions_finish]
  have hmem : D.mapReferenced inv.stubbed.canonicalName ∈ inv.inferStubs.registry.slots := by
    rw [slots_inferStubs h]
    exact List.mem_map_of_mem (List.mem_append_left _ hD)
  refine ⟨D.mapReferenced inv.stubbed.canonicalName, ?_, hname, hkind, hcolumns⟩
  obtain ⟨before, after, hsplit⟩ := List.append_of_mem hmem
  rw [hsplit, List.map_append, List.map_cons, List.nodup_middle, List.nodup_cons, ← List.map_append] at hnodup
  have hothers : ∀ E ∈ before ++ after, upper E.name ≠ upper d.name := by
    intro E hE hsame
    refine hnodup.1 (List.mem_map.mpr ⟨E, hE, ?_⟩)
    rw [hsame, Definition.name_mapReferenced, hname]
  rw [hsplit, List.filter_append, List.filter_cons_of_pos (by simp [hname]),
    List.filter_eq_nil_iff.mpr fun E hE => by simpa using hothers E (List.mem_append_left _ hE),
    List.filter_eq_nil_iff.mpr fun E hE => by simpa using hothers E (List.mem_append_right _ hE)]
  rfl

/-! ## The texts of a script -/

/-- One text of a script, and what was found before it. -/
structure Turn where
  before : Inventory
  text : String

namespace Turn

def statement? (t : Turn) : Option Statement :=
  Statement.ofTokens? (Token.scan t.text)

def after (resultName : String) (t : Turn) : Inventory :=
  Statement.addText resultName t.before t.text

/-- Whether the text declares the name, in any case. -/
def declares (name : String) (t : Turn) : Bool :=
  (t.statement?.bind Statement.declared?).any fun n => upper n == upper name

theorem declares_congr {a b : String} (h : upper a = upper b) (t : Turn) : t.declares a = t.declares b := by
  rw [declares, declares, h]

/-- What the common table expressions of the text replace. -/
def displaced (t : Turn) : List Definition :=
  t.statement?.toList.flatMap fun s => t.before.registry.replacedBy (s.ctes t.before.registry)

/-- What the definition that the text makes itself replaces. -/
def replaced? (resultName : String) (t : Turn) : Option Definition :=
  t.statement?.bind fun s => (s.declaration resultName t.before).filed.replaced

/-- Whether the text declares a name that a table or view has. -/
def redeclares (t : Turn) : Bool :=
  (t.statement?.bind Statement.declared?).any fun n =>
    (t.before.registry.lookup n).any fun d => d.kind ≠ .cte

theorem after_of_none {t : Turn} (resultName : String) (h : t.statement? = none) :
    t.after resultName = t.before.report (.skipped (Statement.summary t.text)) := by
  rw [statement?] at h
  rw [after, Statement.addText, h]

theorem after_of_some {t : Turn} (resultName : String) {s : Statement} (h : t.statement? = some s) :
    t.after resultName = (s.declaration resultName t.before).after := by
  rw [statement?] at h
  rw [after, Statement.addText, h]
  exact s.addTo_eq resultName t.before

theorem coherent_after {t : Turn} (resultName : String) (h : t.before.registry.Coherent) :
    (t.after resultName).registry.Coherent := by
  rw [after, Statement.registry_addText]
  exact h.fileAll _

/-- The name of the definition is the one that is declared, or one that nothing has. -/
theorem declared_or_free {t : Turn} (resultName : String) {s : Statement} (h : t.statement? = some s) :
    (∀ name, upper (s.declaration resultName t.before).definition.name = upper name → t.declares name = true) ∨
      s.declared? = none ∧ t.before.registry.defines (s.declaration resultName t.before).definition.name = false := by
  rw [s.name_definition]
  cases hs : s.declared? with
  | some n =>
    refine .inl fun name hname => ?_
    simpa [declares, h, hs] using hname
  | none => exact .inr ⟨rfl, Registry.defines_unusedName _ _⟩

theorem stands_after {t : Turn} (resultName : String) (h : t.before.registry.Coherent) {d : Definition}
    (hd : t.before.registry.Stands d) (hdeclares : t.declares d.name = false) :
    (t.after resultName).registry.Stands d := by
  cases hs : t.statement? with
  | none =>
    rw [after_of_none resultName hs]
    exact hd
  | some s =>
    -- all that the statement files has a name that is free, or that it declares
    have hfree : ∀ x : Definition, t.before.registry.defines x.name = false → upper d.name ≠ upper x.name := by
      intro x hx hsame
      rw [← Registry.defines_congr _ hsame, hd.defines h] at hx
      cases hx
    have hctes := h.stands_fileAll hd fun x hx => hfree x (s.free_of_mem_ctes h x hx).2
    rw [after_of_some resultName hs]
    rw [← s.registry_declaration resultName] at hctes
    have hcoh : (s.declaration resultName t.before).inventory.registry.Coherent := by
      rw [s.registry_declaration]
      exact h.fileAll _
    refine hcoh.stands_define hctes ?_
    rcases declared_or_free resultName hs with hdeclared | ⟨-, hnone⟩
    · intro hsame
      rw [hdeclared d.name hsame.symm] at hdeclares
      cases hdeclares
    · exact hfree _ hnone

/-- What the definition of a text replaces is the table or view that has the name before. -/
theorem replaced?_eq {t : Turn} (resultName : String) (h : t.before.registry.Coherent) {s : Statement}
    (hs : t.statement? = some s) :
    t.replaced? resultName =
      (t.before.registry.lookup (s.declaration resultName t.before).definition.name).filter (·.kind ≠ .cte) := by
  have hkind : (s.declaration resultName t.before).definition.kind ≠ .cte := by
    rw [s.kind_definition]
    exact s.kind_ne_cte
  rw [replaced?, hs, Option.bind_some, Declaration.filed, Registry.replaced_define_of_table _ hkind,
    s.registry_declaration]
  ext d
  simp only [Option.filter_eq_some_iff, decide_eq_true_eq]
  exact and_congr_left fun hd => s.lookup_fileAll_ctes h hd

/-- A bare query replaces nothing, and a declaration does so just when it declares a name once more. -/
theorem length_replaced? {t : Turn} (resultName : String) (h : t.before.registry.Coherent) :
    (t.replaced? resultName).toList.length = if t.redeclares then 1 else 0 := by
  cases hs : t.statement? with
  | none => simp [replaced?, redeclares, hs]
  | some s =>
    rw [replaced?_eq resultName h hs, redeclares, hs, Option.bind_some, s.name_definition]
    cases hdeclared : s.declared? with
    | some n =>
      rw [Option.getD_some, Option.any_some]
      cases t.before.registry.lookup n with
      | none => rfl
      | some d => by_cases hd : d.kind = .cte <;> simp [hd]
    | none =>
      have hfree := Registry.defines_unusedName t.before.registry resultName
      rw [Registry.defines, Option.isSome_eq_false_iff, Option.isNone_iff_eq_none] at hfree
      rw [Option.getD_none, hfree]
      rfl

/-- A bare query changes what the definitions before it refer to at most. -/
theorem keeps_of_query {t : Turn} (resultName : String) (h : t.before.registry.Coherent) {s : Statement}
    (hs : t.statement? = some s) (hdeclared : s.declared? = none) :
    t.replaced? resultName = none ∧
    ∀ (i : Nat) (old : Definition), t.before.registry.slots[i]? = some old →
      ∃ new : Definition, (t.after resultName).registry.slots[i]? = some new ∧
        new.name = old.name ∧ new.kind = old.kind ∧ new.columns = old.columns := by
  have hname : (s.declaration resultName t.before).definition.name = t.before.registry.unusedName resultName := by
    rw [s.name_definition, hdeclared, Option.getD_none]
  have hfree := Registry.defines_unusedName t.before.registry resultName
  have hcoh : (s.declaration resultName t.before).inventory.registry.Coherent := by
    rw [s.registry_declaration]
    exact h.fileAll _
  constructor
  · rw [Registry.defines, Option.isSome_eq_false_iff, Option.isNone_iff_eq_none] at hfree
    rw [replaced?_eq resultName h hs, hname, hfree]
    rfl
  · intro i old hi
    have hprefix := h.prefix_fileAll h (List.prefix_refl _) (s.free_of_mem_ctes h)
    rw [← s.registry_declaration resultName] at hprefix
    have hin := List.prefix_iff_getElem?.mp hprefix i (List.getElem?_eq_some_iff.mp hi).1
    rw [← List.getElem?_eq_getElem, hi] at hin
    have hne := h.defines_eq_false_iff.mp hfree old (List.mem_of_getElem? hi)
    obtain ⟨hslot, new, hnew, hsame⟩ := hcoh.stays_define hin (hname ▸ hne)
    have hg := hcoh.getElem?_define (s.declaration resultName t.before).definition i
    rw [if_neg hslot, hin, hnew] at hg
    rw [after_of_some resultName hs]
    obtain rfl := Option.some.inj hg
    exact ⟨_, hnew, hsame, rfl, rfl⟩

theorem redefinitions_after (t : Turn) (resultName : String) :
    (t.after resultName).redefinitions =
      t.before.redefinitions ++ (t.displaced ++ (t.replaced? resultName).toList).map Notice.replaced := by
  cases hs : t.statement? with
  | none =>
    rw [after_of_none resultName hs, Inventory.redefinitions_report (by rintro ⟨⟩)]
    simp [displaced, replaced?, hs]
  | some s =>
    rw [after_of_some resultName hs, Declaration.after, Inventory.redefinitions_define, s.redefinitions_declaration,
      displaced, replaced?, hs, Option.toList_some, List.flatMap_singleton, Option.bind_some, List.map_append,
      List.append_assoc]
    rfl

end Turn

namespace Script

/-- The texts, each with what is found before it; `inv` is found before the first one. -/
def turns (resultName : String) (inv : Inventory) : List String → List Turn
  | [] => []
  | text :: texts => ⟨inv, text⟩ :: turns resultName (Statement.addText resultName inv text) texts

theorem map_text_turns (resultName : String) (inv : Inventory) (texts : List String) :
    (turns resultName inv texts).map Turn.text = texts := by
  induction texts generalizing inv with
  | nil => rfl
  | cons text texts ih => rw [turns, List.map_cons, ih]

theorem coherent_turns (resultName : String) {inv : Inventory} (h : inv.registry.Coherent) (texts : List String) :
    ∀ t ∈ turns resultName inv texts, t.before.registry.Coherent := by
  induction texts generalizing inv with
  | nil =>
    intro t ht
    cases ht
  | cons text texts ih =>
    intro t ht
    rcases List.mem_cons.mp ht with rfl | ht
    · exact h
    · exact ih (Turn.coherent_after (t := ⟨inv, text⟩) resultName h) t ht

section Runs
variable (resultName : String) {inv : Inventory} (h : inv.registry.Coherent)
include h

/-- A definition stands until its name is declared again. -/
theorem stands_turns {texts : List String} {d : Definition} (hd : inv.registry.Stands d)
    (hnone : ∀ t ∈ turns resultName inv texts, t.declares d.name = false) :
    (texts.foldl (Statement.addText resultName) inv).registry.Stands d := by
  induction texts generalizing inv with
  | nil => exact hd
  | cons text texts ih =>
    obtain ⟨ht, hrest⟩ := List.forall_mem_cons.mp hnone
    have hstep : ((⟨inv, text⟩ : Turn).after resultName).registry.Stands d := Turn.stands_after resultName h hd ht
    exact ih (Turn.coherent_after (t := ⟨inv, text⟩) resultName h) hstep hrest

/-- The definition of the last text that declares a name stands in the end. -/
theorem stands_last {texts : List String} {name : String} {t : Turn}
    (ht : ((turns resultName inv texts).filter (·.declares name)).getLast? = some t) :
    ∃ s, t.statement? = some s ∧ upper (s.declaration resultName t.before).definition.name = upper name ∧
      (texts.foldl (Statement.addText resultName) inv).registry.Stands
        (s.declaration resultName t.before).definition := by
  induction texts generalizing inv with
  | nil => cases ht
  | cons text texts ih =>
    have hcoh := Turn.coherent_after (t := ⟨inv, text⟩) resultName h
    cases hlater : ((turns resultName (Statement.addText resultName inv text) texts).filter
        (·.declares name)).getLast? with
    | some t' =>
      obtain rfl : t' = t := by
        rw [turns, ← List.singleton_append, List.filter_append, List.getLast?_append, hlater] at ht
        exact Option.some.inj ht
      exact ih hcoh hlater
    | none =>
      -- no later text declares the name, so it is this one, and its definition stays
      have hnone := List.getLast?_eq_none_iff.mp hlater
      rw [List.filter_eq_nil_iff] at hnone
      by_cases hdeclares : (⟨inv, text⟩ : Turn).declares name = true
      · rw [turns, List.filter_cons_of_pos hdeclares, List.filter_eq_nil_iff.mpr hnone,
          List.getLast?_singleton] at ht
        obtain rfl := Option.some.inj ht
        obtain ⟨n, hn, hname⟩ := (Option.any_eq_true _ _).mp hdeclares
        obtain ⟨s, hs, hdeclared⟩ := Option.bind_eq_some_iff.mp hn
        have hown : upper (s.declaration resultName inv).definition.name = upper name := by
          rw [s.name_definition, hdeclared]
          simpa using hname
        refine ⟨s, hs, hown, stands_turns resultName hcoh ?_ fun u hu => ?_⟩
        · rw [Turn.after_of_some resultName hs]
          refine Registry.Coherent.stands_define_self ?_ _
          rw [s.registry_declaration]
          exact h.fileAll _
        · rw [Turn.declares_congr hown]
          exact Bool.not_eq_true _ ▸ hnone u hu
      · rw [turns, List.filter_cons_of_neg hdeclares, List.filter_eq_nil_iff.mpr hnone] at ht
        cases ht

end Runs

theorem redefinitions_turns (resultName : String) (inv : Inventory) (texts : List String) :
    (texts.foldl (Statement.addText resultName) inv).redefinitions =
      inv.redefinitions ++ (turns resultName inv texts).flatMap fun t =>
        (t.displaced ++ (t.replaced? resultName).toList).map Notice.replaced := by
  induction texts generalizing inv with
  | nil => exact (List.append_nil _).symm
  | cons text texts ih =>
    have hstep := Turn.redefinitions_after ⟨inv, text⟩ resultName
    rw [Turn.after] at hstep
    rw [List.foldl_cons, ih, hstep, turns, List.flatMap_cons, List.append_assoc]

theorem length_replaced_turns (resultName : String) {inv : Inventory} (h : inv.registry.Coherent)
    (texts : List String) :
    ((turns resultName inv texts).flatMap fun t => (t.replaced? resultName).toList).length =
      ((turns resultName inv texts).filter Turn.redeclares).length := by
  induction texts generalizing inv with
  | nil => rfl
  | cons text texts ih =>
    have hrest := ih (Turn.coherent_after (t := ⟨inv, text⟩) resultName h)
    rw [Turn.after] at hrest
    rw [turns, List.flatMap_cons, List.length_append, hrest, Turn.length_replaced? resultName h, List.filter_cons]
    by_cases hr : (⟨inv, text⟩ : Turn).redeclares = true
    · rw [if_pos hr, if_pos hr, List.length_cons, Nat.add_comm]
    · rw [if_neg hr, if_neg hr, Nat.zero_add]

end Script

/-- The notices that come with stubs say that a schema is unknown. -/
theorem Inventory.noticesOf_finish {inv : Inventory} (h : inv.registry.Coherent) {kind : Notice.Kind}
    (hkind : kind ≠ .unknownSchema) : inv.finish.notices.filter (·.kind = kind) = inv.noticesOf kind := by
  have hstubs : ((inv.missing.filter fun n => (inv.usage.columns? n).getD [] = []).map Notice.unobserved).filter
      (·.kind = kind) = [] := by
    rw [List.filter_eq_nil_iff]
    intro n hn
    obtain ⟨name, -, rfl⟩ := List.mem_map.mp hn
    simp [Notice.unobserved, hkind.symm]
  rw [finish, notices_inferStubs h, List.filter_append, hstubs, List.append_nil, noticesOf]

theorem Inventory.redefinitions_finish {inv : Inventory} (h : inv.registry.Coherent) :
    inv.finish.notices.filter (·.kind = .redefinition) = inv.redefinitions :=
  noticesOf_finish h (by decide)

/-- Every text of a script is skipped, or it makes one definition that is no common table expression. A bare query
leaves all that is there before, apart from what it refers to. Of the statements that declare one name, in any
case, the last one has it in the result. One redefinition is reported for every declaration of a name that a table
or view has, and apart from these only common table expressions of one statement replace each other. -/
theorem Extraction.last_declaration_wins (script resultName : String) :
    let e : Extraction := ofScript script resultName
    let texts := Script.statements (Comment.strip script)
    let turns := Script.turns resultName .empty texts
    turns.map Turn.text = texts ∧
    (∀ t ∈ turns,
      (t.statement? = none → t.after resultName = t.before.report (.skipped (Statement.summary t.text))) ∧
      ∀ s, t.statement? = some s →
        let d := s.declaration resultName t.before
        t.after resultName = d.inventory.define d.definition ∧ d.definition.kind = s.kind ∧ s.kind ≠ .cte ∧
        d.inventory.registry = t.before.registry.fileAll (s.ctes t.before.registry) ∧
        (∀ c ∈ s.ctes t.before.registry, c.kind = .cte) ∧
        (s.declared? = none → t.replaced? resultName = none ∧
          ∀ (i : Nat) (old : Definition), t.before.registry.slots[i]? = some old →
            ∃ new : Definition, (t.after resultName).registry.slots[i]? = some new ∧
              new.name = old.name ∧ new.kind = old.kind ∧ new.columns = old.columns)) ∧
    (∀ name, (∃ t ∈ turns, t.declares name = true) →
      ∃ t s, (turns.filter (·.declares name)).getLast? = some t ∧ t.statement? = some s ∧
        let d := (s.declaration resultName t.before).definition
        ∃ D, e.definitions.filter (fun D => upper D.name = upper name) = [D] ∧
          D.name = d.name ∧ D.kind = d.kind ∧ D.columns = d.columns) ∧
    e.notices.filter (·.kind = .redefinition) =
      turns.flatMap (fun t => (t.displaced ++ (t.replaced? resultName).toList).map Notice.replaced) ∧
    (turns.flatMap fun t => (t.replaced? resultName).toList).length = (turns.filter Turn.redeclares).length := by
  intro e texts turns
  have hempty : Inventory.empty.registry.Coherent := Registry.coherent_empty
  have hcoh := Inventory.coherent_ofStatements resultName texts
  refine ⟨Script.map_text_turns resultName .empty texts, fun t ht => ⟨t.after_of_none resultName, fun s hs => ?_⟩,
    fun name hname => ?_, ?_, Script.length_replaced_turns resultName hempty texts⟩
  · have hbefore := Script.coherent_turns resultName hempty texts t ht
    have hctes := s.free_of_mem_ctes hbefore
    refine ⟨t.after_of_some resultName hs, s.kind_definition resultName t.before, s.kind_ne_cte,
      s.registry_declaration resultName t.before, fun c hc => (hctes c hc).1, fun hdeclared => ?_⟩
    exact t.keeps_of_query resultName hbefore hs hdeclared
  · obtain ⟨t, ht, hdeclares⟩ := hname
    have hlast : turns.filter (·.declares name) ≠ [] :=
      List.ne_nil_of_mem (List.mem_filter.mpr ⟨ht, hdeclares⟩)
    obtain ⟨u, hu⟩ := Option.ne_none_iff_exists'.mp (mt List.getLast?_eq_none_iff.mp hlast)
    obtain ⟨s, hs, hown, hstands⟩ := Script.stands_last resultName hempty hu
    refine ⟨u, s, hu, hs, ?_⟩
    rw [← hown]
    exact Inventory.filter_definitions hcoh hstands
  · have hrun := Script.redefinitions_turns resultName .empty texts
    rw [← Inventory.ofStatements, ← Inventory.redefinitions_finish hcoh,
      show Inventory.empty.redefinitions = [] from rfl, List.nil_append] at hrun
    exact hrun

end SqlLineage
