import SqlLineage.Proofs.Case.Statement
import SqlLineage.Proofs.Query.Trace

/-! # Definitions in capitals

* `Definition.fold`, `Registry.fold`, `Usage.fold`: what is known of tables, with all names and types in capitals.
  The columns that stand for an unknown schema are told by their spelling, so they keep it.
* `Text.Uniform`: names of which no two differ in case only.
* `Registry.define_fold`: filing a definition in capitals gives the registry in capitals, if references that lead to a
  common table expression which gives way are spelled like it.
* `Usage.recordAll_fold`: what is observed, in capitals. -/

namespace SqlLineage
open SqlLineage.Text
set_option autoImplicit false

/-! ## Lists in which case tells nothing apart -/

theorem appendNew_map {α β : Type} [DecidableEq α] [DecidableEq β] (f : α → β) {xs : List α} {x : α}
    (h : ∀ y ∈ xs, f y = f x → y = x) : appendNew (xs.map f) (f x) = (appendNew xs x).map f := by
  have hmem : f x ∈ xs.map f ↔ x ∈ xs := by
    constructor
    · intro hx
      obtain ⟨y, hy, hyx⟩ := List.mem_map.mp hx
      exact h y hy hyx ▸ hy
    · exact List.mem_map_of_mem
  simp only [appendNew, hmem]
  split
  · rfl
  · rw [List.map_append, List.map_singleton]

theorem foldl_appendNew_map {α β : Type} [DecidableEq α] [DecidableEq β] (f : α → β) {xs ys : List α}
    (h : ∀ x ∈ xs ++ ys, ∀ y ∈ xs ++ ys, f x = f y → x = y) :
    (ys.map f).foldl appendNew (xs.map f) = (ys.foldl appendNew xs).map f := by
  induction ys generalizing xs with
  | nil => rfl
  | cons y ys ih =>
    rw [List.map_cons, List.foldl_cons, List.foldl_cons, appendNew_map f, ih]
    · have hsub : ∀ x ∈ appendNew xs y ++ ys, x ∈ xs ++ y :: ys := by
        intro x hx
        rw [List.mem_append, mem_appendNew] at hx
        simp only [List.mem_append, List.mem_cons]
        tauto
      exact fun x hx z hz => h x (hsub x hx) z (hsub z hz)
    · intro x hx
      exact h x (List.mem_append_left _ hx) y (List.mem_append_right _ (List.mem_cons_self ..))

/-- No two of the names differ in case only. -/
def Text.Uniform (names : List String) : Prop :=
  ∀ a ∈ names, ∀ b ∈ names, sameFold a b = true → a = b

instance (names : List String) : Decidable (Uniform names) :=
  inferInstanceAs (Decidable (∀ a ∈ names, ∀ b ∈ names, sameFold a b = true → a = b))

theorem Text.Uniform.eq {names : List String} (h : Uniform names) {a b : String} (ha : a ∈ names) (hb : b ∈ names)
    (hab : foldCase a = foldCase b) : a = b :=
  h a ha b hb (sameFold_iff.mpr hab)

/-! ## Columns, references and lineage -/

namespace Column

/-- The column in capitals. A placeholder is one by its spelling, so it stays. -/
def fold (c : Column) : Column :=
  if c.isPlaceholder then c else { c with name := foldCase c.name, declaredType := foldCase c.declaredType }

theorem ne_of_foldCase_ne {s : String} (hs : foldCase s ≠ s) (t : String) : foldCase t ≠ s := by
  rintro rfl
  exact hs (foldCase_foldCase t)

theorem isPlaceholder_of_name {c : Column} (h1 : c.name ≠ unknownSchema.name) (h2 : c.name ≠ unparsed.name) :
    c.isPlaceholder = false := by
  rw [isPlaceholder, beq_eq_false_iff_ne.mpr h1, beq_eq_false_iff_ne.mpr h2]
  rfl

theorem isPlaceholder_of_type {c : Column} (h1 : c.declaredType ≠ unknownSchema.declaredType)
    (h2 : c.declaredType ≠ unparsed.declaredType) : c.isPlaceholder = false := by
  rw [isPlaceholder, beq_eq_false_iff_ne.mpr h1, beq_eq_false_iff_ne.mpr h2, Bool.and_false, Bool.and_false]
  rfl

theorem fold_of_not_placeholder {c : Column} (h : c.isPlaceholder = false) :
    c.fold = { c with name := foldCase c.name, declaredType := foldCase c.declaredType } := by
  rw [fold, h]
  rfl

theorem isPlaceholder_foldCase (name type : String) (k1 k2 k3 k4 k5 : Bool) :
    isPlaceholder ⟨foldCase name, type, k1, k2, k3, k4, k5⟩ = false :=
  isPlaceholder_of_name (ne_of_foldCase_ne (by decide) name) (ne_of_foldCase_ne (by decide) name)

@[simp] theorem isPlaceholder_fold (c : Column) : c.fold.isPlaceholder = c.isPlaceholder := by
  unfold fold
  split
  · rfl
  · next h =>
    rw [Bool.not_eq_true] at h
    rw [h]
    exact isPlaceholder_foldCase ..

@[simp] theorem foldCase_name_fold (c : Column) : foldCase c.fold.name = foldCase c.name := by
  unfold fold
  split
  · rfl
  · exact foldCase_foldCase c.name

@[simp] theorem sameFold_name_fold (c : Column) (name : String) : sameFold c.fold.name name = sameFold c.name name := by
  rw [sameFold, foldCase_name_fold, sameFold]

@[simp] theorem fold_fold (c : Column) : c.fold.fold = c.fold := by
  by_cases h : c.isPlaceholder = true
  · rw [fold, isPlaceholder_fold, h, if_pos rfl]
  · rw [Bool.not_eq_true] at h
    rw [fold_of_not_placeholder (c.isPlaceholder_fold.trans h), fold_of_not_placeholder h]
    simp only [foldCase_foldCase]

@[simp] theorem isPlaceholder_mapped (name : String) : (mapped name).isPlaceholder = false :=
  isPlaceholder_of_type (by simp [mapped, unknownSchema]) (by simp [mapped, unparsed])

@[simp] theorem isPlaceholder_calculated (name : String) : (calculated name).isPlaceholder = false :=
  isPlaceholder_of_type (by simp [calculated, unknownSchema]) (by simp [calculated, unparsed])

@[simp] theorem isPlaceholder_observed (name : String) : (observed name).isPlaceholder = false :=
  isPlaceholder_of_type (by simp [observed, unknownSchema]) (by simp [observed, unparsed])

theorem fold_mapped {name name' : String} (h : foldCase name = foldCase name') :
    (mapped name).fold = (mapped name').fold := by
  rw [fold_of_not_placeholder (isPlaceholder_mapped name), fold_of_not_placeholder (isPlaceholder_mapped name')]
  simp only [mapped, h]

theorem fold_calculated {name name' : String} (h : foldCase name = foldCase name') :
    (calculated name).fold = (calculated name').fold := by
  rw [fold_of_not_placeholder (isPlaceholder_calculated name), fold_of_not_placeholder (isPlaceholder_calculated name')]
  simp only [calculated, h]

theorem fold_observed (name : String) : (observed (foldCase name)).fold = (observed name).fold := by
  rw [fold_of_not_placeholder (isPlaceholder_observed _), fold_of_not_placeholder (isPlaceholder_observed name)]
  simp only [observed, foldCase_foldCase]

/-- The type of a column with a new name is in capitals already, unless the column was a placeholder. -/
theorem fold_rename_fold {c : Column} {name : String} (h : ({ c with name := name } : Column).isPlaceholder = false) :
    ({ c.fold with name := foldCase name } : Column).fold = ({ c with name := name } : Column).fold := by
  rw [fold_of_not_placeholder h, fold_of_not_placeholder (isPlaceholder_foldCase ..)]
  unfold fold
  split <;> simp

def called (c : Column) (name type : String) : Column :=
  { c with name := name, declaredType := type }

/-- The change sets marks and looks at neither name nor type. -/
def MarksOnly (f : Column → Column) : Prop :=
  ∀ c name type, f (c.called name type) = (f c).called name type

section Marks
variable {f : Column → Column}

theorem MarksOnly.name_eq (h : MarksOnly f) (c : Column) : (f c).name = c.name := by
  have hsame := congrArg name (h c c.name c.declaredType)
  exact hsame

theorem MarksOnly.declaredType_eq (h : MarksOnly f) (c : Column) : (f c).declaredType = c.declaredType := by
  have hsame := congrArg declaredType (h c c.name c.declaredType)
  exact hsame

theorem MarksOnly.isPlaceholder_eq (h : MarksOnly f) (c : Column) : (f c).isPlaceholder = c.isPlaceholder := by
  rw [isPlaceholder, h.name_eq, h.declaredType_eq, isPlaceholder]

theorem MarksOnly.fold_eq (h : MarksOnly f) (c : Column) : (f c).fold = f c.fold := by
  rw [fold, h.isPlaceholder_eq, h.name_eq, h.declaredType_eq, fold]
  split
  · rfl
  · exact (h c (foldCase c.name) (foldCase c.declaredType)).symm

theorem MarksOnly.map_fold_update (h : MarksOnly f) (name : String) (cs : List Column) :
    (update name f cs).map fold = update name f (cs.map fold) := by
  induction cs with
  | nil => rfl
  | cons c cs ih =>
    simp only [List.map_cons, update, sameFold_name_fold]
    split
    · rw [List.map_cons, h.fold_eq]
    · rw [List.map_cons, ih]

end Marks

theorem update_foldCase (name : String) (f : Column → Column) (cs : List Column) :
    update (foldCase name) f cs = update name f cs := by
  induction cs with
  | nil => rfl
  | cons c cs ih => simp only [update, sameFold_foldCase_right, ih]

end Column

def Reference.fold (r : Reference) : Reference :=
  ⟨foldCase r.localColumn, foldCase r.table, foldCase r.column⟩

@[simp] theorem Reference.fold_fold (r : Reference) : r.fold.fold = r.fold := by
  simp only [fold, foldCase_foldCase]

def LineageRecord.fold (r : LineageRecord) : LineageRecord :=
  ⟨foldCase r.sourceTable, foldCase r.sourceColumn, foldCase r.targetColumn, r.isCalculated⟩

@[simp] theorem LineageRecord.fold_fold (r : LineageRecord) : r.fold.fold = r.fold := by
  simp only [fold, foldCase_foldCase]

/-! ## Definitions -/

namespace Definition

def fold (d : Definition) : Definition :=
  ⟨foldCase d.name, d.kind, d.columns.map Column.fold, d.references.map Reference.fold,
    d.lineage.map LineageRecord.fold⟩

@[simp] theorem name_fold (d : Definition) : d.fold.name = foldCase d.name := rfl

@[simp] theorem kind_fold (d : Definition) : d.fold.kind = d.kind := rfl

theorem referenced_fold (d : Definition) : d.fold.referenced = d.referenced.map foldCase := by
  rw [referenced, referenced, List.map_append, fold, List.map_map, List.map_map, List.map_map, List.map_map]
  rfl

@[simp] theorem hasKnownSchema_fold (d : Definition) : d.fold.hasKnownSchema = d.hasKnownSchema := by
  rw [hasKnownSchema, hasKnownSchema, fold, List.head?_map]
  cases d.columns.head? with
  | none => rfl
  | some c => exact congrArg (! ·) c.isPlaceholder_fold

theorem mapReferenced_fold {f f' : String → String} {d : Definition}
    (h : ∀ n ∈ d.referenced, f' (foldCase n) = foldCase (f n)) :
    d.fold.mapReferenced f' = (d.mapReferenced f).fold := by
  have hr : ∀ r ∈ d.references, f' (foldCase r.table) = foldCase (f r.table) := fun r hr =>
    h r.table (List.mem_append_left _ (List.mem_map_of_mem hr))
  have hl : ∀ r ∈ d.lineage, f' (foldCase r.sourceTable) = foldCase (f r.sourceTable) := fun r hr =>
    h r.sourceTable (List.mem_append_right _ (List.mem_map_of_mem hr))
  simp only [mapReferenced, fold, List.map_map, Definition.mk.injEq, true_and]
  refine ⟨List.map_congr_left fun r hr' => ?_, List.map_congr_left fun r hr' => ?_⟩
  · simp only [Function.comp_apply, Reference.fold, hr r hr']
  · simp only [Function.comp_apply, LineageRecord.fold, hl r hr']

/-- References in another case than `old` would stay behind. -/
theorem redirect_fold {d : Definition} {old : String} (h : ∀ n ∈ d.referenced, sameFold n old = true → n = old)
    (new : String) : d.fold.redirect (foldCase old) (foldCase new) = (d.redirect old new).fold := by
  refine mapReferenced_fold fun n hn => ?_
  have hiff : foldCase n = foldCase old ↔ n = old := ⟨fun hs => h n hn (sameFold_iff.mpr hs), congrArg foldCase⟩
  simp only [hiff]
  split <;> rfl

/-! ### Explicit column lists -/

theorem retarget_fold {old : String} {rs : List LineageRecord}
    (h : ∀ r ∈ rs, sameFold r.targetColumn old = true → r.targetColumn = old) (new : String) :
    retarget (foldCase old) (foldCase new) (rs.map LineageRecord.fold) =
      (retarget old new rs).map LineageRecord.fold := by
  rw [retarget, retarget, List.map_map, List.map_map]
  refine List.map_congr_left fun r hr => ?_
  have hiff : r.fold.targetColumn = foldCase old ↔ r.targetColumn = old :=
    ⟨fun hs => h r hr (sameFold_iff.mpr hs), congrArg foldCase⟩
  simp only [Function.comp_apply, hiff]
  split <;> rfl

/-- At each step the records that end in the old name in some case end in it as it is spelled. -/
def EvenTargets : List (String × String) → List LineageRecord → Prop
  | [], _ => True
  | p :: ps, rs =>
    (∀ r ∈ rs, sameFold r.targetColumn p.1 = true → r.targetColumn = p.1) ∧ EvenTargets ps (retarget p.1 p.2 rs)

instance decidableEvenTargets : ∀ (ps : List (String × String)) (rs : List LineageRecord), Decidable (EvenTargets ps rs)
  | [], _ => isTrue trivial
  | p :: ps, rs =>
    have := decidableEvenTargets ps (retarget p.1 p.2 rs)
    inferInstanceAs (Decidable (_ ∧ _))

theorem foldl_retarget_fold {ps : List (String × String)} {rs : List LineageRecord} (h : EvenTargets ps rs) :
    (ps.map fun p => (foldCase p.1, foldCase p.2)).foldl (fun rs p => retarget p.1 p.2 rs)
        (rs.map LineageRecord.fold) =
      (ps.foldl (fun rs p => retarget p.1 p.2 rs) rs).map LineageRecord.fold := by
  induction ps generalizing rs with
  | nil => rfl
  | cons p ps ih => rw [List.map_cons, List.foldl_cons, List.foldl_cons, retarget_fold h.1, ih h.2]

theorem renamed_fold {cs : List Column} {names : List String}
    (h : names ≠ [] → ∀ c ∈ renamed cs names, c.isPlaceholder = false) :
    (renamed (cs.map Column.fold) (names.map foldCase)).map Column.fold = (renamed cs names).map Column.fold := by
  induction cs generalizing names with
  | nil => rfl
  | cons c cs ih =>
    cases names with
    | nil =>
      show ((c :: cs).map Column.fold).map Column.fold = (c :: cs).map Column.fold
      rw [List.map_map]
      exact List.map_congr_left fun c _ => c.fold_fold
    | cons n names =>
      obtain ⟨hc, hcs⟩ := List.forall_mem_cons.mp (h (List.cons_ne_nil n names))
      show ({ c.fold with name := foldCase n } : Column).fold :: _ = ({ c with name := n } : Column).fold :: _
      rw [Column.fold_rename_fold hc, ih fun _ => hcs]

/-- An explicit column list takes effect in one way whatever the case, and makes no placeholder of a column. -/
structure EvenUnder (d : Definition) (names : List String) : Prop where
  targets : EvenTargets ((d.columns.map Column.name).zip names) d.lineage
  columns : names ≠ [] → ∀ c ∈ renamed d.columns names, c.isPlaceholder = false

theorem evenUnder_iff {d : Definition} {names : List String} : d.EvenUnder names ↔
    EvenTargets ((d.columns.map Column.name).zip names) d.lineage ∧
      (names ≠ [] → ∀ c ∈ renamed d.columns names, c.isPlaceholder = false) :=
  ⟨fun h => ⟨h.targets, h.columns⟩, fun h => ⟨h.1, h.2⟩⟩

instance (d : Definition) (names : List String) : Decidable (d.EvenUnder names) :=
  decidable_of_iff _ evenUnder_iff.symm

theorem map_name_fold {cs : List Column} (h : ∀ c ∈ cs, c.isPlaceholder = false) :
    (cs.map Column.fold).map Column.name = (cs.map Column.name).map foldCase := by
  rw [List.map_map, List.map_map]
  refine List.map_congr_left fun c hc => ?_
  rw [Function.comp_apply, Function.comp_apply, Column.fold_of_not_placeholder (h c hc)]

theorem fold_fold (d : Definition) : d.fold.fold = d.fold := by
  simp only [fold, foldCase_foldCase, List.map_map, Function.comp_def, Column.fold_fold, Reference.fold_fold,
    LineageRecord.fold_fold]

/-- An explicit column list takes effect in capitals. -/
theorem renameColumns_fold {d : Definition} {names : List String} (h : d.EvenUnder names)
    (hplain : (∀ c ∈ d.columns, c.isPlaceholder = false) ∨ d.lineage = []) :
    (d.fold.renameColumns (names.map foldCase)).fold = (d.renameColumns names).fold := by
  have hlineage : ((d.fold.columns.map Column.name).zip (names.map foldCase)).foldl
        (fun rs p => retarget p.1 p.2 rs) d.fold.lineage =
      (((d.columns.map Column.name).zip names).foldl (fun rs p => retarget p.1 p.2 rs) d.lineage).map
        LineageRecord.fold := by
    rcases hplain with hplain | hnone
    · have hzip : (d.fold.columns.map Column.name).zip (names.map foldCase) =
          ((d.columns.map Column.name).zip names).map fun p => (foldCase p.1, foldCase p.2) := by
        rw [fold, map_name_fold hplain, List.zip_map]
        rfl
      rw [hzip]
      exact foldl_retarget_fold h.targets
    · have hempty : ∀ ps : List (String × String),
          ps.foldl (fun rs p => retarget p.1 p.2 rs) ([] : List LineageRecord) = [] := by
        intro ps
        induction ps with
        | nil => rfl
        | cons p ps ih => exact ih
      rw [fold, hnone, List.map_nil, hempty, hempty, List.map_nil]
  rw [← fold_fold (d.renameColumns names)]
  simp only [renameColumns, hlineage]
  simp only [fold, renamed_fold h.columns, foldCase_foldCase, List.map_map, Function.comp_def, Column.fold_fold]

end Definition

/-! ## Registries -/

/-- The registry with `g` of every definition. -/
def Registry.mapSlots (g : Definition → Definition) (r : Registry) : Registry :=
  ⟨r.slots.map g, r.index⟩

def Registry.fold (r : Registry) : Registry :=
  r.mapSlots Definition.fold

namespace Registry
variable (r : Registry)

section Slots
variable {g : Definition → Definition}

theorem find?_mapSlots (name : String) :
    (r.mapSlots g).find? (foldCase name) = (r.find? name).map fun p => (p.1, g p.2) := by
  simp only [find?, mapSlots, upper_foldCase, List.getElem?_map]
  cases r.index.find? (upper name) with
  | none => rfl
  | some i =>
    simp only [Option.bind_some]
    cases r.slots[i]? <;> rfl

theorem lookup_mapSlots (name : String) : (r.mapSlots g).lookup (foldCase name) = (r.lookup name).map g := by
  rw [lookup, find?_mapSlots, Option.map_map, lookup, Option.map_map]
  rfl

theorem defines_mapSlots (name : String) : (r.mapSlots g).defines (foldCase name) = r.defines name := by
  rw [defines, lookup_mapSlots, Option.isSome_map, defines]

theorem canonicalName_mapSlots (hg : ∀ d, (g d).name = foldCase d.name) (name : String) :
    (r.mapSlots g).canonicalName (foldCase name) = foldCase (r.canonicalName name) := by
  rw [canonicalName, lookup_mapSlots, canonicalName]
  cases r.lookup name with
  | none => rfl
  | some d => exact hg d

theorem unusedName_mapSlots (base : String) :
    (r.mapSlots g).unusedName (foldCase base) = foldCase (r.unusedName base) := by
  have hcandidates : (r.mapSlots g).candidates (foldCase base) = (r.candidates base).map foldCase := by
    rw [candidates, candidates, List.map_map]
    refine List.map_congr_left fun k _ => ?_
    rw [Function.comp_apply, foldCase_append, foldCase_append, foldCase_toString]
    rfl
  rw [unusedName, defines_mapSlots, hcandidates, List.find?_map, unusedName]
  have hfree : (fun n => !(r.mapSlots g).defines n) ∘ foldCase = fun n => !r.defines n :=
    funext fun n => congrArg (! ·) (r.defines_mapSlots n)
  rw [hfree]
  split
  · cases (r.candidates base).find? fun n => !r.defines n <;> rfl
  · rfl

end Slots

theorem find?_fold (name : String) : r.fold.find? (foldCase name) = (r.find? name).map fun p => (p.1, p.2.fold) :=
  r.find?_mapSlots name

theorem lookup_fold (name : String) : r.fold.lookup (foldCase name) = (r.lookup name).map Definition.fold :=
  r.lookup_mapSlots name

theorem canonicalName_fold (name : String) : r.fold.canonicalName (foldCase name) = foldCase (r.canonicalName name) :=
  r.canonicalName_mapSlots Definition.name_fold name

theorem unusedName_fold (base : String) : r.fold.unusedName (foldCase base) = foldCase (r.unusedName base) :=
  r.unusedName_mapSlots base

theorem append_fold (d : Definition) : r.fold.append d.fold = (r.append d).fold := by
  simp [append, fold, mapSlots]

/-- If a common table expression gives way to `d`, the references to it are spelled like it. -/
def Even (d : Definition) : Prop :=
  ∀ p ∈ r.find? d.name, p.2.kind = .cte → d.kind ≠ .cte →
    ∀ e ∈ d :: r.slots, ∀ n ∈ e.referenced, sameFold n p.2.name = true → n = p.2.name

instance (d : Definition) : Decidable (r.Even d) :=
  inferInstanceAs (Decidable (∀ p ∈ r.find? d.name, p.2.kind = .cte → d.kind ≠ .cte →
    ∀ e ∈ d :: r.slots, ∀ n ∈ e.referenced, sameFold n p.2.name = true → n = p.2.name))

theorem rename_fold {old : String} (h : ∀ e ∈ r.slots, ∀ n ∈ e.referenced, sameFold n old = true → n = old) (i : Nat)
    (new : String) : r.fold.rename i (foldCase old) (foldCase new) = (r.rename i old new).fold := by
  simp only [rename, fold, mapSlots, upper_foldCase, Registry.mk.injEq, and_true]
  apply List.ext_getElem?
  intro j
  simp only [List.getElem?_map, List.getElem?_modify]
  cases hj : r.slots[j]? with
  | none => rfl
  | some d =>
    have hd := Definition.redirect_fold (h d (List.mem_of_getElem? hj)) new
    simp only [Option.map_some, Option.map_eq_map]
    by_cases hij : i = j
    · simp only [hij, if_true]
      simp only [Definition.fold, Definition.redirect, Definition.mapReferenced, Definition.mk.injEq] at hd
      simp [Definition.fold, Definition.redirect, Definition.mapReferenced, hd]
    · simp only [hij, if_false]
      rw [hd]

/-- Filing a definition in capitals. -/
theorem define_fold {r : Registry} {d : Definition} (h : r.Even d) :
    (r.fold.define d.fold).registry = (r.define d).registry.fold := by
  unfold define
  rw [Definition.name_fold, find?_fold]
  cases hf : r.find? d.name with
  | none => exact r.append_fold d
  | some p =>
    obtain ⟨i, old⟩ := p
    simp only [Option.map_some, Definition.kind_fold, Definition.name_fold, unusedName_fold]
    split
    · next hk =>
      have heven := h (i, old) hf hk.1 hk.2
      obtain ⟨hd, hslots⟩ := List.forall_mem_cons.mp heven
      rw [r.rename_fold hslots, Definition.redirect_fold hd, append_fold]
    · simp only [fold, mapSlots, List.map_set]

end Registry

/-! ## Environments -/

def CteBindings.fold (b : CteBindings) : CteBindings :=
  ⟨⟨b.names.entries.map fun e => (e.1, foldCase e.2)⟩⟩

def Environment.fold (env : Environment) : Environment :=
  ⟨env.registry.fold, env.ctes.fold⟩

def TableColumn.fold (o : TableColumn) : TableColumn :=
  ⟨foldCase o.table, foldCase o.column⟩

@[simp] theorem TableColumn.fold_fold (o : TableColumn) : o.fold.fold = o.fold := by
  simp only [fold, foldCase_foldCase]

namespace OrderedMap
variable {κ ν μ : Type} [DecidableEq κ]

theorem lookup_map_value (f : ν → μ) (es : List (κ × ν)) (k : κ) :
    (es.map fun e => (e.1, f e.2)).lookup k = (es.lookup k).map f := by
  induction es with
  | nil => rfl
  | cons e es ih =>
    rw [List.map_cons, List.lookup_cons, List.lookup_cons, ih]
    split <;> rfl

theorem set_map_value (f : ν → μ) (k : κ) (v : ν) (es : List (κ × ν)) :
    set k (f v) (es.map fun e => (e.1, f e.2)) = (set k v es).map fun e => (e.1, f e.2) := by
  induction es with
  | nil => rfl
  | cons e es ih =>
    simp only [List.map_cons, set, ih]
    split <;> rfl

end OrderedMap

namespace CteBindings

theorem filed?_fold (b : CteBindings) (name : String) :
    b.fold.filed? (foldCase name) = (b.filed? name).map foldCase := by
  rw [filed?, upper_foldCase]
  exact OrderedMap.lookup_map_value ..

theorem files_fold (b : CteBindings) (name : String) : b.fold.files (foldCase name) = b.files name := by
  simp [files, fold, OrderedMap.values, Function.comp_def]

theorem bind_fold (b : CteBindings) (name filed : String) :
    b.fold.bind (foldCase name) (foldCase filed) = (b.bind name filed).fold := by
  simp only [bind, fold, OrderedMap.insert, upper_foldCase, OrderedMap.set_map_value]

end CteBindings

namespace Environment

theorem resolve_mapSlots {g : Definition → Definition} (hg : ∀ d, (g d).name = foldCase d.name) (env : Environment)
    (name : String) :
    (⟨env.registry.mapSlots g, env.ctes.fold⟩ : Environment).resolve (foldCase name) = foldCase (env.resolve name) := by
  rw [resolve, CteBindings.filed?_fold, Registry.canonicalName_mapSlots _ hg, resolve]
  cases env.ctes.filed? name <;> rfl

theorem resolve_fold (env : Environment) (name : String) :
    env.fold.resolve (foldCase name) = foldCase (env.resolve name) :=
  resolve_mapSlots Definition.name_fold env name

theorem observed_fold (env : Environment) (table column : String) :
    env.fold.observed (foldCase table) (foldCase column) = (env.observed table column).map TableColumn.fold := by
  rw [observed, fold, CteBindings.files_fold, observed]
  split <;> rfl

end Environment

/-! ## Observations -/

def TableUsage.fold (u : TableUsage) : TableUsage :=
  ⟨foldCase u.table, u.columns.map foldCase⟩

def Usage.fold (u : Usage) : Usage :=
  ⟨⟨u.tables.entries.map fun e => (e.1, e.2.fold)⟩⟩

namespace Usage

theorem addColumn_fold (columns : List String) (column : String) :
    addColumn (columns.map foldCase) (foldCase column) = (addColumn columns column).map foldCase := by
  simp only [addColumn, List.any_map, Function.comp_def, sameFold_foldCase_left, sameFold_foldCase_right]
  split
  · rfl
  · rw [List.map_append, List.map_singleton]

theorem record_fold (u : Usage) (o : TableColumn) : u.fold.record o.fold = (u.record o).fold := by
  have hfind : u.fold.tables.find? (upper o.table) = (u.tables.find? (upper o.table)).map TableUsage.fold :=
    OrderedMap.lookup_map_value ..
  simp only [record, TableColumn.fold, isEmpty_foldCase, upper_foldCase, hfind]
  split
  · rfl
  · simp only [fold, OrderedMap.insert]
    rw [← OrderedMap.set_map_value]
    cases u.tables.find? (upper o.table) with
    | none => simp [TableUsage.fold, ← addColumn_fold]
    | some seen => simp [TableUsage.fold, ← addColumn_fold]

/-- What is observed, in capitals. -/
theorem recordAll_fold (u : Usage) (os : List TableColumn) :
    u.fold.recordAll (os.map TableColumn.fold) = (u.recordAll os).fold := by
  induction os generalizing u with
  | nil => rfl
  | cons o os ih =>
    rw [List.map_cons, recordAll, List.foldl_cons, record_fold]
    exact ih (u.record o)

theorem columns?_fold (u : Usage) (table : String) :
    u.fold.columns? (foldCase table) = (u.columns? table).map (List.map foldCase) := by
  have hfind : u.fold.tables.find? (upper table) = (u.tables.find? (upper table)).map TableUsage.fold :=
    OrderedMap.lookup_map_value ..
  rw [columns?, upper_foldCase, hfind, Option.map_map, columns?, Option.map_map]
  rfl

end Usage
end SqlLineage
