import SqlLineage.Proofs.Case.ColumnBlock
import SqlLineage.Proofs.Case.Scope
import SqlLineage.Proofs.Case.View
import SqlLineage.Proofs.Script.Stubs

/-! # Which definitions there are

Two scripts that differ in case only may differ in what their definitions say, but not in which definitions there are.
What a definition refers to matters only as far as nothing of that name is defined, since a stub comes of it.

* `Definition.unfiled`, `Definition.outline`: those names, and with them the kind and the name of the definition.
* `CaseView.outline`: the view that sees no more. `CaseView.kept_outline`: no step breaks it, whatever the script.
* `Inventory.outline_finish`: the definitions of two runs have the same kinds and names. -/

namespace SqlLineage
open SqlLineage.Text
set_option autoImplicit false

/-! ## Lists of distinct values -/

section Distinct
variable {α β : Type} [DecidableEq α] [DecidableEq β]

theorem foldl_appendNew_filter (p : α → Bool) (xs ys : List α) :
    (ys.filter p).foldl appendNew (xs.filter p) = (ys.foldl appendNew xs).filter p := by
  induction ys generalizing xs with
  | nil => rfl
  | cons y ys ih =>
    have hstep : (appendNew xs y).filter p = if p y then appendNew (xs.filter p) y else xs.filter p := by
      by_cases hp : p y = true <;> by_cases hy : y ∈ xs <;> simp [appendNew, List.mem_filter, hp, hy]
    rw [List.foldl_cons, ← ih, hstep, List.filter_cons]
    split <;> rfl

theorem foldl_appendNew_of_subset {xs ys : List α} (h : ∀ y ∈ ys, y ∈ xs) : ys.foldl appendNew xs = xs := by
  induction ys with
  | nil => rfl
  | cons y ys ih =>
    obtain ⟨hy, hys⟩ := List.forall_mem_cons.mp h
    rw [List.foldl_cons, appendNew, if_pos hy]
    exact ih hys

/-- What is the same value under `f` may be left out before or behind `f`. -/
theorem foldl_appendNew_map_foldl (f : α → β) (xs ys : List α) :
    ((ys.foldl appendNew xs).map f).foldl appendNew [] = ((xs ++ ys).map f).foldl appendNew [] := by
  induction ys generalizing xs with
  | nil => rw [List.append_nil, List.foldl_nil]
  | cons y ys ih =>
    rw [List.foldl_cons, ih, appendNew]
    split
    · next hy =>
      have hmem : f y ∈ (xs.map f).foldl appendNew [] := mem_foldl_appendNew.mpr (.inr (List.mem_map_of_mem hy))
      rw [List.map_append, List.map_append, List.foldl_append, List.foldl_append, List.map_cons, List.foldl_cons]
      rw [appendNew.eq_def ((xs.map f).foldl appendNew []) (f y), if_pos hmem]
    · rw [List.append_assoc, List.singleton_append]

end Distinct

namespace Inventory

theorem foldl_addMissing_fold (names seen : List String) :
    (names.map foldCase).foldl addMissing (seen.map foldCase) = (names.foldl addMissing seen).map foldCase := by
  induction names generalizing seen with
  | nil => rfl
  | cons name names ih =>
    have hstep : addMissing (seen.map foldCase) (foldCase name) = (addMissing seen name).map foldCase := by
      simp only [addMissing, List.any_map, Function.comp_def, upper_foldCase]
      split
      · rfl
      · rw [List.map_append, List.map_singleton]
    rw [List.map_cons, List.foldl_cons, List.foldl_cons, hstep, ih]

theorem foldl_addMissing_distinct (names seen : List String) :
    (names.foldl appendNew []).foldl addMissing seen = names.foldl addMissing seen := by
  have hall : ∀ xs : List String,
      (names.foldl appendNew xs).foldl addMissing seen = names.foldl addMissing (xs.foldl addMissing seen) := by
    induction names with
    | nil => exact fun xs => rfl
    | cons name names ih =>
      intro xs
      rw [List.foldl_cons, ih, appendNew]
      split
      · next hname =>
        obtain ⟨m, hm, hmn⟩ := exists_foldl_addMissing xs seen (.inr hname)
        have hany : (xs.foldl addMissing seen).any (fun n => upper n == upper name) = true :=
          List.any_eq_true.mpr ⟨m, hm, beq_iff_eq.mpr hmn⟩
        rw [List.foldl_cons, addMissing.eq_def (xs.foldl addMissing seen) name, if_pos hany]
      · rw [List.foldl_append, List.foldl_cons, List.foldl_nil, List.foldl_cons]
  exact hall []

theorem foldl_addMissing_flatMap (ds : List Definition) (f : Definition → List String) (seen : List String) :
    (ds.flatMap fun d => (f d).foldl appendNew []).foldl addMissing seen = (ds.flatMap f).foldl addMissing seen := by
  induction ds generalizing seen with
  | nil => rfl
  | cons d ds ih =>
    rw [List.flatMap_cons, List.flatMap_cons, List.foldl_append, List.foldl_append, foldl_addMissing_distinct, ih]

end Inventory

/-! ## Outlines -/

namespace Definition

/-- The names that the definition refers to, in capitals and once each. -/
def mentioned (d : Definition) : List String :=
  (d.referenced.map foldCase).foldl appendNew []

/-- Those of them that no key of the index stands for. -/
def unfiled (index : OrderedMap String Nat) (d : Definition) : List String :=
  d.mentioned.filter fun n => (index.find? (upper n)).isNone

def outline (index : OrderedMap String Nat) (d : Definition) : Definition :=
  ⟨foldCase d.name, d.kind, [], (d.unfiled index).map Reference.uses, []⟩

section Outline
variable {index index' : OrderedMap String Nat} {d d' : Definition}

theorem outline_eq_iff : d'.outline index = d.outline index ↔
    foldCase d'.name = foldCase d.name ∧ d'.kind = d.kind ∧ d'.unfiled index = d.unfiled index := by
  have huses : Function.Injective Reference.uses := fun a b h => congrArg Reference.table h
  simp only [outline, Definition.mk.injEq, huses.list_map.eq_iff, true_and, and_true]

theorem outline_of_mentioned_eq (hname : foldCase d'.name = foldCase d.name) (hkind : d'.kind = d.kind)
    (h : d'.mentioned = d.mentioned) : d'.outline index = d.outline index := by
  refine outline_eq_iff.mpr ⟨hname, hkind, ?_⟩
  rw [unfiled, h, unfiled]

/-- With more keys less is to be seen. -/
theorem outline_of_le (hle : ∀ k, (index.find? k).isSome = true → (index'.find? k).isSome = true)
    (h : d'.outline index = d.outline index) : d'.outline index' = d.outline index' := by
  obtain ⟨hname, hkind, hunfiled⟩ := outline_eq_iff.mp h
  have hmore : ∀ d : Definition, d.unfiled index' = (d.unfiled index).filter
      fun n => (index'.find? (upper n)).isNone := by
    intro d
    rw [unfiled, unfiled, List.filter_filter]
    refine List.filter_congr fun n _ => ?_
    rw [Bool.eq_iff_iff, Bool.and_eq_true, Option.isNone_iff_eq_none, Option.isNone_iff_eq_none]
    refine ⟨fun hn => ⟨hn, ?_⟩, And.left⟩
    by_contra hsome
    have hsome' := hle _ (Option.isSome_iff_ne_none.mpr hsome)
    rw [hn] at hsome'
    cases hsome'
  refine outline_eq_iff.mpr ⟨hname, hkind, ?_⟩
  rw [hmore, hunfiled, hmore]

/-- It cannot be seen that references to one filed name become references to another. -/
theorem unfiled_redirect {old new : String} (hold : (index.find? (upper old)).isSome = true)
    (hnew : (index.find? (upper new)).isSome = true) (d : Definition) :
    (d.redirect old new).unfiled index = d.unfiled index := by
  have hlist : ∀ ns : List String,
      ((ns.map fun n => if n = old then new else n).map foldCase).filter
          (fun n => (index.find? (upper n)).isNone) =
        (ns.map foldCase).filter fun n => (index.find? (upper n)).isNone := by
    intro ns
    induction ns with
    | nil => rfl
    | cons n ns ih =>
      simp only [List.map_cons, List.filter_cons, upper_foldCase, ih]
      by_cases hn : n = old
      · rw [if_pos hn, hn, ← Option.not_isSome, ← Option.not_isSome, hold, hnew]
        rfl
      · rw [if_neg hn]
  rw [unfiled, mentioned, ← foldl_appendNew_filter, unfiled, mentioned, ← foldl_appendNew_filter, redirect,
    referenced_mapReferenced, hlist]

theorem outline_redirect {old new : String} (hold : (index.find? (upper old)).isSome = true)
    (hnew : (index.find? (upper new)).isSome = true) (d : Definition) :
    (d.redirect old new).outline index = d.outline index :=
  outline_eq_iff.mpr ⟨rfl, rfl, unfiled_redirect hold hnew d⟩

end Outline
end Definition

/-- The kinds and names of definitions, and what they refer to but nothing defines. -/
def CaseView.outline : CaseView where
  slot := Definition.outline
  name_slot := fun _ _ => rfl
  observed := fun _ => []
  Reads := fun _ _ _ _ _ => True
  Declares := fun _ _ => True
  Files := fun _ _ => True

theorem flatMap_observed_outline (os : List TableColumn) : os.flatMap CaseView.outline.observed = [] :=
  List.flatMap_eq_nil_iff.mpr fun _ _ => rfl

/-! ## Filing -/

namespace Registry
open CaseView
variable {r r' : Registry} {d d' : Definition}

theorem outline_slots_of_le {index index' : OrderedMap String Nat} {ds ds' : List Definition}
    (hds : ds'.map (Definition.outline index) = ds.map (Definition.outline index))
    (hle : ∀ k, (index.find? k).isSome = true → (index'.find? k).isSome = true) :
    ds'.map (Definition.outline index') = ds.map (Definition.outline index') :=
  map_eq_of_map_eq hds fun _ _ _ _ h => Definition.outline_of_le hle h

/-- What looks the same by itself looks the same beside any keys. -/
theorem outline_filed (hd : outline.definition d' = outline.definition d) (index : OrderedMap String Nat) :
    d'.outline index = d.outline index :=
  Definition.outline_of_le (fun k hk => by cases hk) hd

theorem upper_eq_of_foldCase {name name' : String} (h : foldCase name' = foldCase name) : upper name' = upper name := by
  rw [← upper_foldCase, h, upper_foldCase]

/-- Registries that look the same have one index, and slot by slot definitions that look the same beside it. -/
theorem exists_slots_of_outline_eq (hr : outline.registry r' = outline.registry r) :
    ∃ slots', r' = ⟨slots', r.index⟩ ∧ slots'.length = r.slots.length ∧
      slots'.map (Definition.outline r.index) = r.slots.map (Definition.outline r.index) := by
  obtain ⟨hslots, hindex⟩ := Registry.mk.inj hr
  obtain ⟨slots', index'⟩ := r'
  obtain rfl : index' = r.index := hindex
  have hlength := congrArg List.length hslots
  rw [List.length_map, List.length_map] at hlength
  exact ⟨slots', rfl, hlength, hslots⟩

theorem outline_append (hr : outline.registry r' = outline.registry r)
    (hd : outline.definition d' = outline.definition d) :
    outline.registry (r'.append d') = outline.registry (r.append d) := by
  obtain ⟨slots', rfl, hlength, hslots⟩ := exists_slots_of_outline_eq hr
  have hname := upper_eq_of_foldCase (Definition.outline_eq_iff.mp hd).1
  have hle : ∀ k, (r.index.find? k).isSome = true →
      ((r.index.insert (upper d.name) r.slots.length).find? k).isSome = true := by
    intro k hk
    rw [OrderedMap.find?_insert]
    split
    · rfl
    · exact hk
  have hkept := outline_slots_of_le hslots hle
  have hown := outline_filed hd (r.index.insert (upper d.name) r.slots.length)
  simp only [registry, mapSlots, append, hname, hlength, List.map_append, List.map_singleton]
  exact congrArg (Registry.mk · _) (congrArg₂ (· ++ ·) hkept (congrArg ([·]) hown))

/-- The index behind a common table expression that gives way to `d`. -/
theorem find?_index_move (r : Registry) (i : Nat) (old new : String) (d : Definition) (k : String) :
    ((r.rename i old new).append (d.redirect old new)).index.find? k =
      if k = upper d.name then some r.slots.length else
        if k = upper new then some i else if k = upper old then none else r.index.find? k := by
  simp only [append, rename, OrderedMap.find?_insert, OrderedMap.find?_erase, Definition.name_redirect,
    List.length_map, List.length_modify]

/-- Beside an index that has both keys, it cannot be seen that references follow a definition that gets a new name. -/
theorem outline_slots_rename {index : OrderedMap String Nat} {slots' : List Definition}
    (hslots : slots'.map (Definition.outline index) = r.slots.map (Definition.outline index)) (i : Nat)
    {old old' new new' : String} (hold : foldCase old' = foldCase old) (hnew : foldCase new' = foldCase new)
    (holdKey : (index.find? (upper old)).isSome = true) (hnewKey : (index.find? (upper new)).isSome = true) :
    (Registry.rename ⟨slots', r.index⟩ i old' new').slots.map (Definition.outline index) =
      (r.rename i old new).slots.map (Definition.outline index) := by
  have holdKey' : (index.find? (upper old')).isSome = true := upper_eq_of_foldCase hold ▸ holdKey
  have hnewKey' : (index.find? (upper new')).isSome = true := upper_eq_of_foldCase hnew ▸ hnewKey
  apply List.ext_getElem?
  intro j
  have hj := congrArg (·[j]?) hslots
  simp only [List.getElem?_map] at hj
  simp only [List.getElem?_map, getElem?_slots_rename, Option.map_map]
  cases hs : r.slots[j]? with
  | none =>
    rw [hs] at hj
    rw [Option.map_eq_none_iff.mp hj]
    rfl
  | some e =>
    rw [hs] at hj
    obtain ⟨e', he', heq⟩ := Option.map_eq_some_iff.mp hj
    rw [he']
    simp only [Option.map_some, Function.comp_apply, Definition.outline_redirect holdKey' hnewKey',
      Definition.outline_redirect holdKey hnewKey]
    obtain ⟨-, hkind, hunfiled⟩ := Definition.outline_eq_iff.mp heq
    split
    · exact congrArg some (Definition.outline_eq_iff.mpr ⟨hnew, hkind, hunfiled⟩)
    · exact congrArg some heq

/-- What gives way and all references to it stay in sight of a key. -/
theorem outline_move (hr : outline.registry r' = outline.registry r)
    (hd : outline.definition d' = outline.definition d) {old old' new new' : String} (i : Nat)
    (hupper : upper old = upper d.name) (hold : foldCase old' = foldCase old) (hnew : foldCase new' = foldCase new) :
    outline.registry ((r'.rename i old' new').append (d'.redirect old' new')) =
      outline.registry ((r.rename i old new).append (d.redirect old new)) := by
  obtain ⟨slots', rfl, hlength, hslots⟩ := exists_slots_of_outline_eq hr
  have hfind := r.find?_index_move i old new d
  -- both registries have the same keys
  generalize hindex : ((r.rename i old new).append (d.redirect old new)).index = index at hfind
  have hindex' : ((Registry.rename ⟨slots', r.index⟩ i old' new').append (d'.redirect old' new')).index = index := by
    rw [← hindex]
    simp only [append, rename, Definition.name_redirect, List.length_map, List.length_modify, hlength,
      upper_eq_of_foldCase hold, upper_eq_of_foldCase hnew, upper_eq_of_foldCase (Definition.outline_eq_iff.mp hd).1]
  have hle : ∀ k, (r.index.find? k).isSome = true → (index.find? k).isSome = true := by
    intro k hk
    rw [hfind, hupper]
    split
    · rfl
    · split
      · rfl
      · exact hk
  have holdKey : (index.find? (upper old)).isSome = true := by
    rw [hfind, if_pos hupper]
    rfl
  have hnewKey : (index.find? (upper new)).isSome = true := by
    rw [hfind]
    split
    · rfl
    · rw [if_pos rfl]
      rfl
  have hown : (d'.redirect old' new').outline index = (d.redirect old new).outline index := by
    rw [Definition.outline_redirect (upper_eq_of_foldCase hold ▸ holdKey) (upper_eq_of_foldCase hnew ▸ hnewKey),
      Definition.outline_redirect holdKey hnewKey]
    exact outline_filed hd index
  have hkept := outline_slots_rename (outline_slots_of_le hslots hle) i hold hnew holdKey hnewKey
  simp only [registry, hindex, hindex']
  simp only [mapSlots, slots_append, List.map_append, hindex, hindex', List.map_singleton]
  exact congrArg (Registry.mk · _) (congrArg₂ (· ++ ·) hkept (congrArg ([·]) hown))

theorem outline_define (h : r.Coherent) (hr : outline.registry r' = outline.registry r)
    (hd : outline.definition d' = outline.definition d) :
    outline.registry (r'.define d').registry = outline.registry (r.define d).registry := by
  obtain ⟨hname, hkind, -⟩ := Definition.outline_eq_iff.mp hd
  have hfind : (r'.find? d'.name).map (fun p => (p.1, p.2.outline r'.index)) =
      (r.find? d.name).map fun p => (p.1, p.2.outline r.index) := by
    have hmapped := congrArg (·.find? (foldCase d.name)) hr
    simp only [registry] at hmapped
    rw [← r'.find?_mapSlots, ← r.find?_mapSlots, hname]
    exact hmapped
  have hindex := (Registry.mk.inj hr).2
  unfold define
  cases hf : r.find? d.name with
  | none =>
    rw [hf] at hfind
    rw [Option.map_eq_none_iff.mp hfind]
    exact outline_append hr hd
  | some p =>
    obtain ⟨i, old⟩ := p
    rw [hf] at hfind
    obtain ⟨⟨i', old'⟩, hf', heq⟩ := Option.map_eq_some_iff.mp hfind
    obtain ⟨rfl, hold⟩ := Prod.mk.inj heq
    have hindex : r'.index = r.index := hindex
    rw [hindex] at hold
    obtain ⟨holdName, holdKind, -⟩ := Definition.outline_eq_iff.mp hold
    rw [hf']
    dsimp only
    rw [holdKind, hkind]
    by_cases hk : old.kind = .cte ∧ d.kind ≠ .cte
    · rw [if_pos hk, if_pos hk]
      exact outline_move hr hd i' (h.find?_eq_some_iff.mp hf).2 holdName (unusedName_eq hr holdName)
    · rw [if_neg hk, if_neg hk]
      have hown := outline_filed hd r.index
      have hslots := (Registry.mk.inj hr).1
      simp only [registry, mapSlots, List.map_set, hindex] at hslots ⊢
      rw [show r'.slots.map (CaseView.outline.slot r.index) = r.slots.map (CaseView.outline.slot r.index) from hslots]
      exact congrArg (fun e => Registry.mk (List.set _ i' e) _) hown

end Registry

/-! ## Bodies and blocks -/

namespace Select

/-- A body refers to the tables that it names, and its lineage to no others. -/
theorem mentioned_read (env : Environment) (ts : List Token) (name : String) (kind : Definition.Kind) :
    (read env ts name kind).definition.mentioned =
      ((mentions ts).map fun m => foldCase (env.resolve m.table.text)).foldl appendNew [] := by
  have htables : (read env ts name kind).definition.references.map Reference.table = (scopeOf env ts).referenced := by
    rw [references_read, List.map_map]
    exact List.map_id _
  rw [Definition.mentioned, Definition.referenced, htables, List.map_append, List.foldl_append,
    foldl_appendNew_of_subset, scopeOf_eq, Scope.referenced_ofMentions, foldl_appendNew_map_foldl, List.nil_append,
    List.map_map]
  · rfl
  · intro n hn
    obtain ⟨t, ht, rfl⟩ := List.mem_map.mp hn
    obtain ⟨l, hl, rfl⟩ := List.mem_map.mp ht
    exact mem_foldl_appendNew.mpr (.inr (List.mem_map_of_mem (sourceTable_mem_read l hl)))

theorem mentioned_read_eq {env env' : Environment} (henv : CaseView.outline.environment env' =
    CaseView.outline.environment env) {ts ts' : List Token} (hts : ts'.map Token.fold = ts.map Token.fold)
    (name name' : String) (kind : Definition.Kind) :
    (read env' ts' name' kind).definition.mentioned = (read env ts name kind).definition.mentioned := by
  have hresolve : ∀ name name' : String, foldCase name' = foldCase name →
      foldCase (env'.resolve name') = foldCase (env.resolve name) := by
    intro name name' hname
    rw [← Environment.resolve_mapSlots (CaseView.outline.name_slot env'.registry.index), hname,
      ← Environment.resolve_mapSlots (CaseView.outline.name_slot env.registry.index)]
    exact congrArg (·.resolve (foldCase name)) henv
  have hmentions : (mentions ts').map Mention.fold = (mentions ts).map Mention.fold := by
    rw [← mentions_fold, hts, mentions_fold]
  have hnames : ((mentions ts').map fun m => foldCase (env'.resolve m.table.text)) =
      (mentions ts).map fun m => foldCase (env.resolve m.table.text) := by
    refine map_eq_of_map_eq hmentions fun m _ m' _ hm => ?_
    apply hresolve
    rw [← TableRef.text_fold, ← TableRef.text_fold, (Mention.mk.inj hm).1]
  rw [mentioned_read, mentioned_read, hnames]

end Select

namespace ColumnBlock

theorem referencesIn_fold (definition : List Token) :
    referencesIn (definition.map Token.fold) = (referencesIn definition).map Reference.fold := by
  unfold referencesIn
  rw [isConstraint_fold]
  split
  · rw [behindPair?_fold]
    cases behindPair? "FOREIGN" "KEY" definition with
    | none => rfl
    | some ts =>
      simp only [Option.map_some, Option.bind_some, foreignKey?_fold]
      cases foreignKey? ts <;> rfl
  · rw [headName?_fold, ← List.map_tail, declaredType?_fold]
    cases definition.head?.bind columnName? with
    | none => rfl
    | some name =>
      cases declaredType? definition.tail with
      | none => rfl
      | some type =>
        simp only [Option.map_some, columnReference?_fold]
        cases columnReference? name definition <;> rfl

/-- What a block refers to does not depend on the spelling of its columns. -/
theorem mentioned_read_eq {b b' : ColumnBlock} (hb : b'.fold = b.fold) (table table' : String) :
    (b'.read table').definition.mentioned = (b.read table).definition.mentioned := by
  have hfold : ∀ (b : ColumnBlock) (table : String), (b.read table).definition.referenced.map foldCase =
      ((definitionsOf b.fold.definitions).flatMap referencesIn).map Reference.table := by
    intro b table
    show ((b.draft table).references.map Reference.table ++ []).map foldCase = _
    rw [List.append_nil, references_draft, fold, definitionsOf_fold, List.flatMap_map]
    simp only [referencesIn_fold, List.map_flatMap, List.map_map]
    rfl
  rw [Definition.mentioned, hfold, hb, Definition.mentioned, hfold]

end ColumnBlock

/-! ## The view -/

theorem CaseView.kept_outline : CaseView.outline.Kept where
  bare := by
    intro name name' kind hname
    exact Definition.outline_of_mentioned_eq hname rfl rfl
  read := by
    intro env env' ts ts' name name' kind names names' henv hts hname _ _ _
    have hmentioned := Select.mentioned_read_eq henv hts name name' kind
    constructor
    · apply Definition.outline_of_mentioned_eq
      · rw [Definition.name_renameColumns, Definition.name_renameColumns, Select.name_read, Select.name_read, hname]
      · rw [Definition.kind_renameColumns, Definition.kind_renameColumns, Select.kind_read, Select.kind_read]
      · rw [Definition.mentioned, Definition.referenced_renameColumns, Definition.mentioned,
          Definition.referenced_renameColumns]
        exact hmentioned
    · rw [flatMap_observed_outline, flatMap_observed_outline]
  declare := by
    intro block block' name name' hblock hname _ _
    constructor
    · exact Definition.outline_of_mentioned_eq hname rfl (ColumnBlock.mentioned_read_eq hblock name name')
    · rw [flatMap_observed_outline, flatMap_observed_outline]
  define := by
    intro r r' d d' h _ hr hd _ _
    exact Registry.outline_define h hr hd
  cte := by
    intro r d _
    trivial

theorem CaseView.evenScript_outline (resultName : String) (r : Registry) (texts : List String) :
    CaseView.outline.EvenScript resultName r texts := by
  have hquery : ∀ (r : Registry) (ts : List Token) (name : String) (kind : Definition.Kind) (names : List String),
      CaseView.outline.EvenQuery r ts name kind names := fun _ _ _ _ _ => ⟨fun _ _ => trivial, trivial⟩
  have hall : ∀ (ds : List Definition) (r : Registry), CaseView.outline.EvenAll r ds := by
    intro ds
    induction ds with
    | nil => exact fun r => trivial
    | cons d ds ih => exact fun r => ⟨trivial, ih _⟩
  induction texts generalizing r with
  | nil => exact .nil r
  | cons text texts ih =>
    refine .cons ?_ (hall _ r) (ih _)
    unfold EvenText
    split
    · next s _ =>
      cases s with
      | createTable name body =>
        cases body with
        | columns block => trivial
        | query ts => exact hquery r ts name .table []
        | empty => trivial
      | createView name columns ts => exact hquery r ts name .view columns
      | query ts => exact hquery r ts _ .view []
    · trivial

/-! ## Stubs -/

namespace Inventory

/-- The names without a definition can be read off the outlines. -/
theorem missing_outline (inv : Inventory) : inv.missing.map foldCase =
    (inv.registry.slots.flatMap (Definition.unfiled inv.registry.index)).foldl addMissing [] := by
  have hunfiled : ∀ d : Definition, d.unfiled inv.registry.index =
      ((d.referenced.map foldCase).filter fun n => (inv.registry.index.find? (upper n)).isNone).foldl appendNew [] :=
    fun d => (foldl_appendNew_filter _ [] _).symm
  have hupper : (fun n => (inv.registry.index.find? (upper n)).isNone) ∘ foldCase =
      fun n => (inv.registry.index.find? (upper n)).isNone := by
    funext n
    rw [Function.comp_apply, upper_foldCase]
  have hlist : ((inv.registry.slots.flatMap Definition.referenced).filter fun n =>
      (inv.registry.index.find? (upper n)).isNone).map foldCase =
      inv.registry.slots.flatMap fun d => (d.referenced.map foldCase).filter fun n =>
        (inv.registry.index.find? (upper n)).isNone := by
    simp only [List.filter_map, hupper, List.filter_flatMap, List.map_flatMap]
  simp only [funext hunfiled, foldl_addMissing_flatMap]
  rw [← hlist, missing]
  exact (foldl_addMissing_fold _ []).symm

theorem outline_finish {inv inv' : Inventory}
    (hr : CaseView.outline.registry inv'.registry = CaseView.outline.registry inv.registry)
    (h : inv.registry.Coherent) (h' : inv'.registry.Coherent) :
    (inv'.finish.definitions.map fun d => (d.kind, foldCase d.name)) =
      inv.finish.definitions.map fun d => (d.kind, foldCase d.name) := by
  have hdefinitions : ∀ {inv : Inventory}, inv.registry.Coherent →
      (inv.finish.definitions.map fun d => (d.kind, foldCase d.name)) =
        (inv.registry.slots.map fun d => (d.kind, foldCase d.name)) ++
          (inv.missing.map foldCase).map fun name => (.stub, name) := by
    intro inv h
    rw [definitions_finish, slots_inferStubs h, List.map_map, List.map_append, List.map_map, List.map_map]
    rfl
  obtain ⟨hslots, hindex⟩ := Registry.mk.inj hr
  have hindex : inv'.registry.index = inv.registry.index := hindex
  rw [hindex] at hslots
  have hnames : (inv'.registry.slots.map fun d => (d.kind, foldCase d.name)) =
      inv.registry.slots.map fun d => (d.kind, foldCase d.name) := by
    refine map_eq_of_map_eq hslots fun d _ d' _ hd => ?_
    obtain ⟨hname, hkind, -⟩ := Definition.outline_eq_iff.mp hd
    rw [hname, hkind]
  have hunfiled : inv'.registry.slots.flatMap (Definition.unfiled inv.registry.index) =
      inv.registry.slots.flatMap (Definition.unfiled inv.registry.index) := by
    rw [List.flatMap_def, List.flatMap_def]
    exact congrArg List.flatten
      (map_eq_of_map_eq hslots fun d _ d' _ hd => (Definition.outline_eq_iff.mp hd).2.2)
  rw [hdefinitions h, hdefinitions h', hnames, missing_outline, missing_outline, hindex, hunfiled]

end Inventory
end SqlLineage
