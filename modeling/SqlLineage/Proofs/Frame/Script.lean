import SqlLineage.Proofs.Frame.Select
import SqlLineage.Proofs.Script.Declarations

/-! # Statements behind other statements

What statements find is found in the same way behind an inventory of foreign names, as long as they find no foreign
name themselves.

* `Inventory.Beside`: an inventory that begins with a foreign one, and an inventory without it.
* `Inventory.Clear`: no name that is defined and no table that is used is foreign. What comes before a clear
  inventory is clear, since names stay, see `Inventory.Clear.of_grown`.
* `Inventory.Beside.unwind`, `addText`, `ofStatements`: the two stay side by side through a query, a statement and
  any number of statements. -/

namespace SqlLineage
open SqlLineage.Text
set_option autoImplicit false

variable {ks : List String}

/-! ## Observations -/

namespace OrderedMap
variable {κ ν : Type} [DecidableEq κ]

theorem set_append {k : κ} (v : ν) {es : List (κ × ν)} (h : ∀ e ∈ es, e.1 ≠ k) (es' : List (κ × ν)) :
    set k v (es ++ es') = es ++ set k v es' := by
  induction es with
  | nil => rfl
  | cons e es ih =>
    obtain ⟨he, hes⟩ := List.forall_mem_cons.mp h
    rw [List.cons_append, set, if_neg he, ih hes, List.cons_append]

end OrderedMap

namespace Usage

theorem recordAll_noted (u : Usage) (os : List TableColumn) : u.recordAll (Select.noted os) = u.recordAll os := by
  induction os generalizing u with
  | nil => rfl
  | cons o os ih =>
    rw [Select.noted, List.filter_cons]
    split
    · exact ih (u.record o)
    · next hc =>
      have hempty : u.record o = u := by
        rw [record, if_pos (by simpa using hc)]
      exact (ih u).trans (congrArg (·.recordAll os) hempty.symm)

theorem mem_keys_record {u : Usage} {o : TableColumn} {k : String} :
    k ∈ (u.record o).tables.keys ↔ k ∈ u.tables.keys ∨ o.column ≠ "" ∧ k = upper o.table := by
  unfold record
  by_cases hc : o.column = ""
  · rw [if_pos (by simpa using hc)]
    simp [hc]
  · rw [if_neg (by simpa using hc)]
    dsimp only
    rw [OrderedMap.keys_insert, mem_appendNew]
    simp [hc]

theorem mem_keys_recordAll {u : Usage} {os : List TableColumn} {k : String} :
    k ∈ (u.recordAll os).tables.keys ↔ k ∈ u.tables.keys ∨ ∃ o ∈ os, o.column ≠ "" ∧ k = upper o.table := by
  induction os generalizing u with
  | nil => simp [recordAll]
  | cons o os ih =>
    rw [recordAll, List.foldl_cons, ← recordAll, ih, mem_keys_record, or_assoc, List.exists_mem_cons_iff]

/-- The usage `u'` begins with the entries `front` of foreign tables, and its further entries are those of `u`. -/
structure Beside (ks : List String) (front : List (String × TableUsage)) (u u' : Usage) : Prop where
  foreign : ∀ e ∈ front, e.1 ∈ ks
  entries : u'.tables.entries = front ++ u.tables.entries

variable {front : List (String × TableUsage)} {u u' : Usage}

theorem Beside.record (h : Beside ks front u u') {o : TableColumn} (ho : o.column ≠ "" → ¬ Foreign ks o.table) :
    Beside ks front (u.record o) (u'.record o) where
  foreign := h.foreign
  entries := by
    unfold Usage.record
    by_cases hc : o.column = ""
    · rw [if_pos (by simpa using hc), if_pos (by simpa using hc), h.entries]
    · rw [if_neg (by simpa using hc), if_neg (by simpa using hc)]
      have hother : ∀ e ∈ front, e.1 ≠ upper o.table := by
        intro e he hkey
        have hforeign := h.foreign e he
        rw [hkey] at hforeign
        exact ho hc hforeign
      have hseen : u'.tables.find? (upper o.table) = u.tables.find? (upper o.table) := by
        have hnone : front.lookup (upper o.table) = none :=
          List.lookup_eq_none_iff.mpr fun e he => by simpa using (hother e he).symm
        rw [OrderedMap.find?, OrderedMap.find?, h.entries, List.lookup_append, hnone, Option.none_or]
      dsimp only
      rw [hseen, OrderedMap.insert, OrderedMap.insert, h.entries, OrderedMap.set_append _ hother]

theorem Beside.recordAll (h : Beside ks front u u') {os os' : List TableColumn}
    (hnoted : Select.noted os' = Select.noted os) (hos : ¬ Select.Intrudes ks os) :
    Beside ks front (u.recordAll os) (u'.recordAll os') := by
  rw [← recordAll_noted, ← recordAll_noted u', hnoted]
  refine List.foldl_rel (r := Beside ks front) h fun o ho c c' hc => hc.record fun hcolumn hforeign => ?_
  exact hos ⟨o, (List.mem_filter.mp ho).1, hcolumn, hforeign⟩

end Usage

/-! ## Inventories -/

namespace Inventory

/-- No name that is defined is foreign, and no table that is used. -/
structure Clear (ks : List String) (inv : Inventory) : Prop where
  registry : inv.registry.Clear ks
  usage : ∀ k ∈ inv.usage.tables.keys, k ∉ ks

/-- What was defined and used before still is, so it was clear. -/
theorem Clear.of_grown {inv inv₁ : Inventory} (h : inv.registry.Coherent) {ds : List Definition}
    {os : List TableColumn} (hr : inv₁.registry = inv.registry.fileAll ds) (hu : inv₁.usage = inv.usage.recordAll os)
    (hc : inv₁.Clear ks) : inv.Clear ks where
  registry := by
    intro n hn
    refine hc.registry n ?_
    rw [hr]
    exact h.defines_fileAll ds hn
  usage := by
    intro k hk
    refine hc.usage k ?_
    rw [hu]
    exact Usage.mem_keys_recordAll.mpr (.inl hk)

theorem Clear.of_define {inv : Inventory} (h : inv.registry.Coherent) {d : Definition} (hc : (inv.define d).Clear ks) :
    inv.Clear ks :=
  have hr : (inv.define d).registry = inv.registry.fileAll [d] := rfl
  have hu : (inv.define d).usage = inv.usage.recordAll [] := rfl
  Clear.of_grown h hr hu hc

theorem Clear.of_absorb {inv : Inventory} (h : inv.registry.Coherent) {r : Reading} (hc : (inv.absorb r).Clear ks) :
    inv.Clear ks ∧ ¬ Select.Intrudes ks r.observed := by
  have hr : (inv.absorb r).registry = inv.registry.fileAll [] := rfl
  have hu : (inv.absorb r).usage = inv.usage.recordAll r.observed := rfl
  refine ⟨Clear.of_grown h hr hu hc, ?_⟩
  rintro ⟨o, ho, hcolumn, hforeign⟩
  exact hc.usage _ (Usage.mem_keys_recordAll.mpr (.inr ⟨o, ho, hcolumn, rfl⟩)) hforeign

/-- The inventory `inv'` begins with what the inventory `front` has, and goes on with what `inv` has. -/
structure Beside (ks : List String) (front inv inv' : Inventory) : Prop where
  registry : Registry.Beside ks front.registry.slots inv.registry inv'.registry
  usage : Usage.Beside ks front.usage.tables.entries inv.usage inv'.usage
  notices : inv'.notices = front.notices ++ inv.notices

namespace Beside
variable {front inv inv' : Inventory}

theorem report (h : Beside ks front inv inv') (n : Notice) : Beside ks front (inv.report n) (inv'.report n) where
  registry := h.registry
  usage := h.usage
  notices := by rw [Inventory.report, Inventory.report, h.notices, List.append_assoc]

theorem absorb (h : Beside ks front inv inv') {r r' : Reading} (hobserved : Select.noted r'.observed = Select.noted r.observed)
    (hnotices : r'.notices = r.notices) (hclear : (inv.absorb r).Clear ks) :
    Beside ks front (inv.absorb r) (inv'.absorb r') where
  registry := h.registry
  usage := h.usage.recordAll hobserved (hclear.of_absorb h.registry.coherent).2
  notices := by
    rw [Inventory.absorb, Inventory.absorb, h.notices, hnotices, List.append_assoc]

theorem define (h : Beside ks front inv inv') {d d' : Definition} (hd : Definition.Alike ks d d')
    (hclear : (inv.define d).Clear ks) : Beside ks front (inv.define d) (inv'.define d') where
  registry := h.registry.define hd hclear.registry
  usage := h.usage
  notices := by
    have hreplaced := (h.registry.define_spec hd hclear.registry).2.2
    rw [Inventory.define, Inventory.define]
    dsimp only
    rw [h.notices, List.append_assoc]
    generalize (inv.registry.define d).replaced = old?, (inv'.registry.define d').replaced = old'? at hreplaced
    cases hreplaced with
    | none => rfl
    | some halike => rw [Option.map_some, Option.map_some, Notice.replaced, Notice.replaced, halike.name, halike.kind]

theorem environment (h : Beside ks front inv inv') (hclear : inv.Clear ks) {ctes : CteBindings}
    (hctes : ∀ v ∈ ctes.names.values, ¬ Foreign ks v) :
    Environment.Beside ks front.registry.slots ⟨inv.registry, ctes⟩ ⟨inv'.registry, ctes⟩ :=
  ⟨h.registry, hclear.registry, rfl, hctes⟩

/-! ## Queries -/

theorem enter (h : Beside ks front inv inv') (owner : String) (head : Cte) :
    Beside ks front (inv.enter owner head) (inv'.enter owner head) := by
  unfold Inventory.enter
  split
  · exact h
  · exact h.report _

/-- Unwinding a query does the same in both inventories. -/
theorem unwind (q : Query) (h : Beside ks front inv inv') (name : String) (kind : Definition.Kind) {ctes : CteBindings}
    (hctes : ∀ v ∈ ctes.names.values, ¬ Foreign ks v) (hclear : (q.unwind name kind inv ctes).inventory.Clear ks) :
    Beside ks front (q.unwind name kind inv ctes).inventory (q.unwind name kind inv' ctes).inventory ∧
    (q.unwind name kind inv' ctes).ctes = (q.unwind name kind inv ctes).ctes ∧
    (∀ v ∈ (q.unwind name kind inv ctes).ctes.names.values, ¬ Foreign ks v) ∧
    Definition.Alike ks (q.unwind name kind inv ctes).definition (q.unwind name kind inv' ctes).definition := by
  induction q generalizing inv inv' name kind ctes with
  | body ts =>
    have habsorb : (inv.absorb (Select.read ⟨inv.registry, ctes⟩ ts name kind)).Clear ks := hclear
    obtain ⟨hbefore, hintrudes⟩ := habsorb.of_absorb h.registry.coherent
    obtain ⟨halike, hobserved, hnotices⟩ :=
      (Select.beside_read (h.environment hbefore hctes) ts name kind).resolve_left hintrudes
    exact ⟨h.absorb hobserved hnotices habsorb, rfl, hctes, halike⟩
  | cte head definition rest ihd ihr =>
    rw [Query.unwind_cte] at hclear
    rw [Query.unwind_cte, Query.unwind_cte]
    -- what is clear in the end is clear behind the definition and before it, and so is the name that is chosen
    have hcoh := h.registry.coherent
    have hinner : (Query.unwindDefinition name inv ctes head definition).inventory.registry.Coherent :=
      coherent_unwind definition _ _ _ (by rwa [inv.registry_enter])
    have hnext := Clear.of_grown (hinner.define _) (rest.registry_unwind ..) (rest.usage_unwind ..) hclear
    have hdefinition := hnext.of_define hinner
    have hbefore : inv.Clear ks := by
      have henter := Clear.of_grown (by rwa [inv.registry_enter]) (definition.registry_unwind ..)
        (definition.usage_unwind ..) hdefinition
      exact ⟨inv.registry_enter name head ▸ henter.registry, inv.usage_enter name head ▸ henter.usage⟩
    have hname : ¬ Foreign ks (inv.registry.unusedName head.name) := by
      have hfiled := (Registry.Clear.of_define hinner hnext.registry).2
      rwa [Definition.name_renameColumns, Query.unwindDefinition, (definition.unwind_eq ..).2, Select.name_read] at hfiled
    have hsame := h.registry.unusedName_eq hbefore.registry hname
    have hwithin : ∀ v ∈ (Environment.within ⟨inv.registry, ctes⟩ head).ctes.names.values, ¬ Foreign ks v := by
      intro v hv
      rcases Environment.mem_values_within hv with rfl | hv
      · exact hname
      · exact hctes v hv
    have hbound : (Environment.within ⟨inv'.registry, ctes⟩ head).ctes =
        (Environment.within ⟨inv.registry, ctes⟩ head).ctes := by
      unfold Environment.within
      dsimp only
      rw [hsame]
      split <;> rfl
    obtain ⟨hbeside, hdctes, hdvalues, halike⟩ :=
      ihd (h.enter name head) (inv.registry.unusedName head.name) .cte hwithin hdefinition
    have hrun : Query.unwindDefinition name inv' ctes head definition =
        definition.unwind (inv.registry.unusedName head.name) .cte (inv'.enter name head)
          (Environment.within ⟨inv.registry, ctes⟩ head).ctes := by
      rw [Query.unwindDefinition, hsame, hbound]
    rw [hrun, hdctes, hsame]
    refine ihr (hbeside.define (halike.renameColumns head.columns) hnext) name kind (fun v hv => ?_) hclear
    rcases OrderedMap.mem_values_insert hv with rfl | hv
    · exact hname
    · exact hdvalues v hv

end Beside
end Inventory

/-! ## Statements -/

section Statements
variable {front inv inv' : Inventory} (resultName : String)

namespace Statement

theorem beside_queryDeclaration (h : Inventory.Beside ks front inv inv') (ts : List Token) (name : String)
    (kind : Definition.Kind) {f : Definition → Definition}
    (hf : ∀ d d', Definition.Alike ks d d' → Definition.Alike ks (f d) (f d'))
    (hclear : (queryDeclaration inv ts name kind f).inventory.Clear ks) :
    Inventory.Beside ks front (queryDeclaration inv ts name kind f).inventory
        (queryDeclaration inv' ts name kind f).inventory ∧
      Definition.Alike ks (queryDeclaration inv ts name kind f).definition
        (queryDeclaration inv' ts name kind f).definition := by
  have hnone : ∀ v ∈ CteBindings.empty.names.values, ¬ Foreign ks v := by
    intro v hv
    cases hv
  obtain ⟨hbeside, -, -, halike⟩ := h.unwind (Query.ofTokens ts) name kind hnone hclear
  exact ⟨hbeside, hf _ _ halike⟩

/-- A statement declares the same next to foreign definitions. -/
theorem beside_declaration (h : Inventory.Beside ks front inv inv') (s : Statement)
    (hclear : (s.declaration resultName inv).after.Clear ks) :
    Inventory.Beside ks front (s.declaration resultName inv).inventory (s.declaration resultName inv').inventory ∧
      Definition.Alike ks (s.declaration resultName inv).definition (s.declaration resultName inv').definition := by
  have hcoh : (s.declaration resultName inv).inventory.registry.Coherent := by
    rw [registry_declaration]
    exact h.registry.coherent.fileAll _
  have hdeclared := hclear.of_define hcoh
  cases s with
  | createTable name body =>
    cases body with
    | columns block =>
      refine ⟨?_, .refl _⟩
      rw [declaration, declaration]
      split
      · next hclosed =>
        rw [declaration, if_pos hclosed] at hdeclared
        exact h.absorb rfl rfl hdeclared
      · next hclosed =>
        rw [declaration, if_neg hclosed] at hdeclared
        exact (h.report _).absorb rfl rfl hdeclared
    | query ts => exact beside_queryDeclaration h ts name .table (fun _ _ hd => hd) hdeclared
    | empty => exact ⟨h, .refl _⟩
  | createView name columns ts =>
    exact beside_queryDeclaration h ts name .view (fun _ _ hd => hd.renameColumns columns) hdeclared
  | query ts =>
    -- the statement takes its name from the registry, and the name is there in the end
    have hname := (Registry.Clear.of_define hcoh hclear.registry).2
    rw [name_definition] at hname
    have hbefore : inv.Clear ks :=
      Inventory.Clear.of_grown h.registry.coherent ((Query.ofTokens ts).registry_unwind ..)
        ((Query.ofTokens ts).usage_unwind ..) hdeclared
    have hsame := h.registry.unusedName_eq hbefore.registry hname
    have hquery := beside_queryDeclaration h ts _ .view (fun _ _ hd => hd) hdeclared
    rw [declaration, declaration, hsame]
    exact hquery

theorem beside_addText (h : Inventory.Beside ks front inv inv') (text : String)
    (hclear : (addText resultName inv text).Clear ks) :
    Inventory.Beside ks front (addText resultName inv text) (addText resultName inv' text) := by
  unfold addText at hclear ⊢
  generalize ofTokens? (Token.scan text) = s? at hclear ⊢
  cases s? with
  | none => exact h.report _
  | some s =>
    dsimp only at hclear ⊢
    rw [addTo_eq] at hclear
    rw [addTo_eq, addTo_eq]
    obtain ⟨hbeside, halike⟩ := beside_declaration resultName h s hclear
    exact hbeside.define halike hclear

end Statement

namespace Inventory

/-- What is clear behind all texts is clear before them. -/
theorem Clear.of_foldl_addText (h : inv.registry.Coherent) {texts : List String}
    (hclear : (texts.foldl (Statement.addText resultName) inv).Clear ks) : inv.Clear ks := by
  induction texts generalizing inv with
  | nil => exact hclear
  | cons text texts ih =>
    have hregistry := Statement.registry_addText resultName inv text
    have hcoh : (Statement.addText resultName inv text).registry.Coherent := hregistry ▸ h.fileAll _
    exact Clear.of_grown h hregistry (Statement.usage_addText resultName inv text) (ih hcoh hclear)

theorem Beside.foldl_addText (h : Beside ks front inv inv') {texts : List String}
    (hclear : (texts.foldl (Statement.addText resultName) inv).Clear ks) :
    Beside ks front (texts.foldl (Statement.addText resultName) inv)
      (texts.foldl (Statement.addText resultName) inv') := by
  induction texts generalizing inv inv' with
  | nil => exact h
  | cons text texts ih =>
    have hcoh : (Statement.addText resultName inv text).registry.Coherent := by
      rw [Statement.registry_addText]
      exact h.registry.coherent.fileAll _
    exact ih (Statement.beside_addText resultName h text (Clear.of_foldl_addText resultName hcoh hclear)) hclear

/-- An inventory whose names are all foreign, and texts that find no foreign name: what they find comes behind. -/
theorem beside_ofStatements {before after : List String}
    (hsettled : ∀ d ∈ (ofStatements resultName before).registry.slots, d.Settled ks)
    (hforeign : ∀ k ∈ (ofStatements resultName before).usage.tables.keys, k ∈ ks)
    (hclear : (ofStatements resultName after).Clear ks) :
    Beside ks (ofStatements resultName before) (ofStatements resultName after)
      (ofStatements resultName (before ++ after)) := by
  have hstart : Beside ks (ofStatements resultName before) empty (ofStatements resultName before) := by
    refine ⟨.start (coherent_ofStatements resultName before) hsettled, ⟨fun e he => ?_, ?_⟩, ?_⟩
    · exact hforeign e.1 (List.mem_map_of_mem he)
    · exact (List.append_nil _).symm
    · exact (List.append_nil _).symm
  have hall := hstart.foldl_addText resultName hclear
  rw [ofStatements, ofStatements, ofStatements, List.foldl_append]
  exact hall

end Inventory
end Statements
end SqlLineage
