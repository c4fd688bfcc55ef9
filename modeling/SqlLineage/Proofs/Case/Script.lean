import SqlLineage.Proofs.Case.Outline
import SqlLineage.Proofs.Case.Select
import SqlLineage.Settings

/-! # Scripts that differ in case only

* `CaseView.full`: the view that sees everything but case. It is meant for scripts in which no spelling tells names
  apart that are the same in capitals.
* `CaseView.kept_full`: no step breaks it.
* `Extraction.definitions_fold_eq`: two scripts lead to the same definitions, and two such scripts say the same of them.
* `Extraction.spellings_told_apart`: without the condition they do not. -/

namespace SqlLineage
open SqlLineage.Text
set_option autoImplicit false

/-! ## All that a script says -/

/-- The definition of a query body whose columns are called `names` looks at no spelling that matters. -/
structure Select.EvenAs (env : Environment) (ts : List Token) (name : String) (kind : Definition.Kind)
    (names : List String) : Prop where
  body : Select.Even env ts
  columns : (Select.read env ts name kind).definition.EvenUnder names

theorem Select.evenAs_iff {env : Environment} {ts : List Token} {name : String} {kind : Definition.Kind}
    {names : List String} : Select.EvenAs env ts name kind names ↔
      Select.Even env ts ∧ (Select.read env ts name kind).definition.EvenUnder names :=
  ⟨fun h => ⟨h.body, h.columns⟩, fun h => ⟨h.1, h.2⟩⟩

/-- Names, columns, references and lineage in capitals. Wherever a spelling is looked at, among the tables of a body,
the sources of an item, an explicit column list and its columns, the references to a common table expression that gives
way, it must not be only the case that tells it from another one, and nothing else may be spelled like a
placeholder. -/
def CaseView.full : CaseView where
  slot := fun _ => Definition.fold
  name_slot := fun _ _ => rfl
  observed := fun o => [o.fold]
  Reads := Select.EvenAs
  Declares := fun block name => ∀ c ∈ (block.read name).definition.columns, c.isPlaceholder = false
  Files := Registry.Even

instance (env : Environment) (ts : List Token) (name : String) (kind : Definition.Kind) (names : List String) :
    Decidable (CaseView.full.Reads env ts name kind names) :=
  decidable_of_iff _ Select.evenAs_iff.symm

instance (block : ColumnBlock) (name : String) : Decidable (CaseView.full.Declares block name) :=
  inferInstanceAs (Decidable (∀ c ∈ (block.read name).definition.columns, c.isPlaceholder = false))

instance (r : Registry) (d : Definition) : Decidable (CaseView.full.Files r d) :=
  inferInstanceAs (Decidable (r.Even d))

theorem flatMap_observed_full (os : List TableColumn) :
    os.flatMap CaseView.full.observed = os.map TableColumn.fold :=
  List.map_eq_flatMap.symm

theorem Definition.fold_renameColumns {d d' : Definition} {names names' : List String} (hd : d'.fold = d.fold)
    (hnames : names'.map foldCase = names.map foldCase) (h : d.EvenUnder names) (h' : d'.EvenUnder names')
    (hplain : (∀ c ∈ d.columns, c.isPlaceholder = false) ∨ d.lineage = [])
    (hplain' : (∀ c ∈ d'.columns, c.isPlaceholder = false) ∨ d'.lineage = []) :
    (d'.renameColumns names').fold = (d.renameColumns names).fold := by
  rw [← renameColumns_fold h' hplain', hd, hnames, renameColumns_fold h hplain]

theorem CaseView.kept_full : CaseView.full.Kept where
  bare := by
    intro name name' kind hname
    show (Definition.bare name' kind).fold = (Definition.bare name kind).fold
    simp only [Definition.bare, Definition.fold, hname]
  read := by
    intro env env' ts ts' name name' kind names names' henv hts hname hnames h h'
    have henv : env'.fold = env.fold := henv
    have hread := Select.read_fold h.body name kind
    have hread' := Select.read_fold h'.body name' kind
    rw [henv, hts, hname] at hread'
    constructor
    · exact Definition.fold_renameColumns (hread'.1.symm.trans hread.1) hnames h.columns h'.columns
        (Select.plain_columns_read env ts name kind) (Select.plain_columns_read env' ts' name' kind)
    · rw [flatMap_observed_full, flatMap_observed_full]
      exact hread'.2.symm.trans hread.2
  declare := by
    intro block block' name name' hblock hname h h'
    have hread := ColumnBlock.read_fold h
    have hread' := ColumnBlock.read_fold h'
    rw [hblock, hname] at hread'
    constructor
    · exact hread'.1.symm.trans hread.1
    · rw [flatMap_observed_full, flatMap_observed_full]
      exact hread'.2.symm.trans hread.2
  define := by
    intro r r' d d' _ _ hr hd h h'
    have hr : r'.fold = r.fold := hr
    have hd : d'.fold = d.fold := hd
    show (r'.define d').registry.fold = (r.define d).registry.fold
    rw [← Registry.define_fold h', hr, hd, Registry.define_fold h]
  cte := by
    intro r d hd p _ _ hne
    exact absurd hd hne

/-! ## Stubs -/

namespace Inventory

def fold (inv : Inventory) : Inventory :=
  ⟨inv.registry.fold, inv.usage.fold, []⟩

theorem missing_fold (inv : Inventory) : inv.fold.missing = inv.missing.map foldCase := by
  have hreferenced : inv.fold.registry.slots.flatMap Definition.referenced =
      (inv.registry.slots.flatMap Definition.referenced).map foldCase := by
    show (inv.registry.slots.map Definition.fold).flatMap Definition.referenced = _
    rw [List.flatMap_map, List.map_flatMap]
    exact List.flatMap_congr fun d _ => d.referenced_fold
  have hindex : (fun name => (inv.fold.registry.index.find? (upper name)).isNone) ∘ foldCase =
      fun name => (inv.registry.index.find? (upper name)).isNone := by
    funext name
    rw [Function.comp_apply, upper_foldCase]
    rfl
  rw [missing, hreferenced, List.filter_map, hindex, missing]
  exact foldl_addMissing_fold _ []

theorem stubColumns_fold (observed : List String) :
    (stubColumns (observed.map foldCase)).map Column.fold = (stubColumns observed).map Column.fold := by
  have hstar : ∀ name : String, foldCase name = Column.starName ↔ name = Column.starName := by
    intro name
    rw [← String.toList_inj, toList_foldCase, ← String.toList_inj]
    exact map_toUpper_eq_iff (by simp [Column.starName, isSign])
  simp only [stubColumns, List.filter_map, Function.comp_def, ne_eq, hstar, ← List.map_append, List.map_map,
    Column.fold_observed]

theorem stub_fold (inv : Inventory) (name : String) : (inv.fold.stub (foldCase name)).fold = (inv.stub name).fold := by
  have hobserved : (inv.fold.usage.columns? (foldCase name)).getD [] =
      ((inv.usage.columns? name).getD []).map foldCase := by
    rw [fold, Usage.columns?_fold]
    cases inv.usage.columns? name <;> rfl
  have hempty : stubColumns (((inv.usage.columns? name).getD []).map foldCase) = [] ↔
      stubColumns ((inv.usage.columns? name).getD []) = [] := by
    rw [← List.map_eq_nil_iff (f := Column.fold), stubColumns_fold, List.map_eq_nil_iff]
  simp only [stub, hobserved, hempty, Definition.fold, foldCase_foldCase]
  split
  · rfl
  · rw [stubColumns_fold]

/-- Stubs take free names, so nothing gives way to them. -/
theorem evenAll_of_free {r : Registry} (h : r.Coherent) {ds : List Definition}
    (hfree : ∀ d ∈ ds, r.defines d.name = false) (hnodup : (ds.map fun d => upper d.name).Nodup) :
    CaseView.full.EvenAll r ds := by
  induction ds generalizing r with
  | nil => trivial
  | cons d ds ih =>
    rw [List.map_cons, List.nodup_cons] at hnodup
    have hd := hfree d (List.mem_cons_self ..)
    refine ⟨?_, ih (h.define d) (fun e he => ?_) hnodup.2⟩
    · intro p hp
      rw [Registry.defines, Registry.lookup, Option.isSome_map, Option.isSome_eq_false_iff,
        Option.isNone_iff_eq_none] at hd
      rw [hd] at hp
      cases hp
    · refine (h.defines_define_of_free hd).mpr ⟨hfree e (List.mem_cons_of_mem _ he), ?_⟩
      intro hn
      exact hnodup.1 (hn ▸ List.mem_map_of_mem he)

theorem evenAll_stubs {inv : Inventory} (h : inv.registry.Coherent) :
    CaseView.full.EvenAll inv.registry (inv.missing.map inv.stub) :=
  evenAll_of_free h (fun _ hd => defines_of_mem_stubs hd) inv.nodup_stubs

section Finish
variable {inv inv' : Inventory}

theorem fold_stubbed (hr : inv'.registry.fold = inv.registry.fold) (hu : inv'.usage.fold = inv.usage.fold)
    (h : inv.registry.Coherent) (h' : inv'.registry.Coherent) : inv'.stubbed.fold = inv.stubbed.fold := by
  have hinv : inv'.fold = inv.fold := by
    rw [fold, fold, hr, hu]
  have hmissing : inv'.missing.map foldCase = inv.missing.map foldCase := by
    rw [← missing_fold, hinv, missing_fold]
  have hstubs : ∀ i : Inventory, (i.missing.map i.stub).map Definition.fold =
      (i.missing.map foldCase).map fun name => (i.fold.stub name).fold := by
    intro i
    rw [List.map_map, List.map_map]
    exact List.map_congr_left fun name _ => (i.stub_fold name).symm
  refine CaseView.fileAll_eq CaseView.kept_full hr h h' ?_ (evenAll_stubs h) (evenAll_stubs h')
  show (inv'.missing.map inv'.stub).map Definition.fold = (inv.missing.map inv.stub).map Definition.fold
  rw [hstubs, hstubs, hmissing, hinv]

theorem fold_finish (hr : inv'.registry.fold = inv.registry.fold) (hu : inv'.usage.fold = inv.usage.fold)
    (h : inv.registry.Coherent) (h' : inv'.registry.Coherent) :
    inv'.finish.definitions.map Definition.fold = inv.finish.definitions.map Definition.fold := by
  have hdefinitions : ∀ i : Inventory, i.finish.definitions.map Definition.fold =
      i.stubbed.fold.slots.map (·.mapReferenced i.stubbed.fold.canonicalName) := by
    intro i
    rw [definitions_finish, registry_inferStubs]
    show (i.stubbed.slots.map _).map _ = (i.stubbed.slots.map Definition.fold).map _
    rw [List.map_map, List.map_map]
    refine List.map_congr_left fun d _ => ?_
    exact (Definition.mapReferenced_fold fun n _ => i.stubbed.canonicalName_fold n).symm
  rw [hdefinitions, hdefinitions, fold_stubbed hr hu h h']

end Finish
end Inventory

/-! ## Whole scripts -/

namespace Extraction

/-- No spelling of the script tells names apart that are the same in capitals. -/
def Even (script resultName : String) : Prop :=
  CaseView.full.EvenScript resultName .empty (Script.statements (Comment.strip script))

instance (script resultName : String) : Decidable (Even script resultName) :=
  CaseView.full.decidableEvenScript resultName .empty _

/-- Two scripts that differ in case only lead to definitions of the same kinds and, up to case, the same names, one by
one. If both are evenly spelled, these say the same up to case. -/
theorem definitions_fold_eq {script script' resultName : String} (hcase : sameFold script script' = true) :
    ((ofScript script' resultName).definitions.map fun d => (d.kind, foldCase d.name)) =
        (ofScript script resultName).definitions.map (fun d => (d.kind, foldCase d.name)) ∧
      (Even script resultName → Even script' resultName →
        (ofScript script' resultName).definitions.map Definition.fold =
          (ofScript script resultName).definitions.map Definition.fold) := by
  have hstatements : (Script.statements (Comment.strip script')).map foldCase =
      (Script.statements (Comment.strip script)).map foldCase := by
    rw [← Script.statements_foldCase, ← Comment.strip_foldCase, ← sameFold_iff.mp hcase, Comment.strip_foldCase,
      Script.statements_foldCase]
  have hcoherent : ∀ texts, (Inventory.ofStatements resultName texts).registry.Coherent :=
    Inventory.coherent_ofStatements resultName
  have hempty := Registry.coherent_empty
  rw [ofScript, ofScript]
  constructor
  · refine Inventory.outline_finish ?_ (hcoherent _) (hcoherent _)
    rw [Inventory.registry_ofStatements, Inventory.registry_ofStatements]
    exact (CaseView.script_eq CaseView.kept_outline rfl hempty hempty hstatements (CaseView.evenScript_outline ..)
      (CaseView.evenScript_outline ..)).1
  · intro h h'
    obtain ⟨hregistry, hobserved⟩ := CaseView.script_eq CaseView.kept_full rfl hempty hempty hstatements h h'
    rw [flatMap_observed_full, flatMap_observed_full] at hobserved
    refine Inventory.fold_finish ?_ ?_ (hcoherent _) (hcoherent _)
    · rw [Inventory.registry_ofStatements, Inventory.registry_ofStatements]
      exact hregistry
    · rw [Inventory.usage_ofStatements, Inventory.usage_ofStatements, ← Usage.recordAll_fold, hobserved,
        Usage.recordAll_fold]

/-- A view with a column list and a star, in two cases. -/
theorem definitions_fold_eq_capitals :
    sameFold "CREATE VIEW v(k) AS SELECT a.x FROM a; SELECT * FROM V"
        "create view V(K) as select A.X from A; select * from v" = true ∧
      Even "CREATE VIEW v(k) AS SELECT a.x FROM a; SELECT * FROM V" "q" ∧
      Even "create view V(K) as select A.X from A; select * from v" "q" ∧
      ((ofScript "create view V(K) as select A.X from A; select * from v" "q").definitions.map
          fun d => (d.kind, foldCase d.name)) =
        (ofScript "CREATE VIEW v(k) AS SELECT a.x FROM a; SELECT * FROM V" "q").definitions.map
          (fun d => (d.kind, foldCase d.name)) ∧
      (ofScript "create view V(K) as select A.X from A; select * from v" "q").definitions.map Definition.fold =
        (ofScript "CREATE VIEW v(k) AS SELECT a.x FROM a; SELECT * FROM V" "q").definitions.map Definition.fold := by
  have hcase : sameFold "CREATE VIEW v(k) AS SELECT a.x FROM a; SELECT * FROM V"
      "create view V(K) as select A.X from A; select * from v" = true := by decide +kernel
  have h : Even "CREATE VIEW v(k) AS SELECT a.x FROM a; SELECT * FROM V" "q" := by decide +kernel
  have h' : Even "create view V(K) as select A.X from A; select * from v" "q" := by decide +kernel
  obtain ⟨hnames, hfold⟩ := @definitions_fold_eq _ _ "q" hcase
  exact ⟨hcase, h, h', hnames, hfold h h'⟩

/-- Two spellings of one name are told apart among the tables of a body, among the sources of an item, in the records
that an explicit column list renames, in the references to what gives way, and in the words that stand for an unknown
schema. -/
theorem spellings_told_apart :
    let definitions (script : String) := (ofScript script Settings.standard.queryResultName).definitions
    (definitions "SELECT c FROM t, t").map (·.references.length) = [1, 0] ∧
      (definitions "SELECT c FROM t, T").map (·.references.length) = [2, 0] ∧
      (definitions "SELECT t.a + t.a FROM t").map (·.lineage.length) = [1, 0] ∧
      (definitions "SELECT t.a + t.A FROM t").map (·.lineage.length) = [2, 0] ∧
      (definitions "CREATE VIEW v(x, y) AS SELECT t.a, t.a FROM t").flatMap (·.lineage.map (·.targetColumn)) =
        ["x", "x"] ∧
      (definitions "CREATE VIEW v(x, y) AS SELECT t.a, t.A FROM t").flatMap (·.lineage.map (·.targetColumn)) =
        ["x", "y"] ∧
      (definitions "SELECT c FROM a; WITH a AS (SELECT 1) SELECT 2; CREATE TABLE a").flatMap Definition.referenced =
        ["a 2", "a 2"] ∧
      (definitions "SELECT c FROM A; WITH a AS (SELECT 1) SELECT 2; CREATE TABLE a").flatMap Definition.referenced =
        ["a", "a"] ∧
      (definitions "CREATE TABLE t (\"Unknown Schema\" Stub); SELECT * FROM t").map (·.columns.map (·.name)) =
        [["Unknown Schema"], ["*"]] ∧
      (definitions "CREATE TABLE t (\"Unknown Schema\" STUB); SELECT * FROM t").map (·.columns.map (·.name)) =
        [["Unknown Schema"], ["Unknown Schema"]] := by
  refine ⟨?_, ?_, ?_, ?_, ?_, ?_, ?_, ?_, ?_, ?_⟩ <;> decide +kernel

end Extraction
end SqlLineage
