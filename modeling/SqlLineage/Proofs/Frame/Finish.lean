import Mathlib.Data.List.Induction
import SqlLineage.Proofs.Frame.Script

/-! # Unrelated statements

* `Extraction.names`: the names in a result, those of definitions and those of tables whose columns were observed.
  `Inventory.exists_name` says that nothing else is named in it.
* `Inventory.Apart`: an inventory, one whose names are all different, and one that has what both have.
* `Extraction.unrelated_statements`: statements that name nothing in common do not interfere. -/

namespace SqlLineage
open SqlLineage.Text
set_option autoImplicit false

/-! ## Names in a result -/

namespace Extraction

/-- The names of all definitions, and the tables of which columns were observed. -/
def names (e : Extraction) : List String :=
  e.definitions.map Definition.name ++ e.discovered.keys

/-- No name is in both results, whatever its case. -/
def Unrelated (e e' : Extraction) : Prop :=
  ∀ n ∈ e.names, ∀ m ∈ e'.names, upper n ≠ upper m

instance (e e' : Extraction) : Decidable (e.Unrelated e') :=
  inferInstanceAs (Decidable (∀ n ∈ e.names, ∀ m ∈ e'.names, upper n ≠ upper m))

end Extraction

namespace OrderedMap
variable {κ ν : Type} [DecidableEq κ]

theorem set_of_not_mem {k : κ} (v : ν) {es : List (κ × ν)} (h : k ∉ es.map Prod.fst) : set k v es = es ++ [(k, v)] := by
  have hne : ∀ e ∈ es, e.1 ≠ k := fun e he hk => h (hk ▸ List.mem_map_of_mem he)
  rw [← List.append_nil es, set_append v hne, List.append_nil]
  rfl

/-- Entries with different keys are kept as they are. -/
theorem entries_ofList {es : List (κ × ν)} (h : (es.map Prod.fst).Nodup) : (ofList es).entries = es := by
  induction es using List.reverseRecOn with
  | nil => rfl
  | append_singleton es e ih =>
    rw [List.map_append, List.map_singleton, List.nodup_append] at h
    obtain ⟨hes, -, hne⟩ := h
    have hnew : e.1 ∉ es.map Prod.fst := fun hin => hne _ hin _ (List.mem_singleton_self _) rfl
    rw [ofList, List.foldl_append, ← ofList, List.foldl_cons, List.foldl_nil, insert, ih hes, set_of_not_mem _ hnew]

end OrderedMap

namespace Registry

/-- How a name is spelled depends on the names of the definitions only. -/
theorem Coherent.canonicalName_congr {r r' : Registry} (h : r.Coherent) (h' : r'.Coherent) {n : String}
    (hsame : ∀ x, upper x = upper n → (x ∈ r'.slots.map Definition.name ↔ x ∈ r.slots.map Definition.name)) :
    r'.canonicalName n = r.canonicalName n := by
  cases hl : r.lookup n with
  | some d =>
    obtain ⟨hd, hn⟩ := h.lookup_eq_some_iff.mp hl
    obtain ⟨d', hd', hname⟩ := List.mem_map.mp ((hsame d.name hn).mpr (List.mem_map_of_mem hd))
    rw [h'.canonicalName_of_mem hd' (hname ▸ hn), h.canonicalName_of_mem hd hn, hname]
  | none =>
    have hl' : r'.lookup n = none := by
      rw [Option.eq_none_iff_forall_not_mem]
      intro d' hd'
      obtain ⟨hd', hn⟩ := h'.lookup_eq_some_iff.mp hd'
      obtain ⟨d, hd, hname⟩ := List.mem_map.mp ((hsame d'.name hn).mp (List.mem_map_of_mem hd'))
      rw [h.lookup_eq_some_iff.mpr ⟨hd, hname ▸ hn⟩] at hl
      cases hl
    rw [canonicalName, canonicalName, hl, hl']

end Registry

namespace Inventory

/-! ## Names in an inventory -/

/-- The names that are defined, referred to or used. -/
def mentioned (inv : Inventory) : List String :=
  inv.registry.slots.flatMap (fun d => d.name :: d.referenced) ++ inv.usage.tables.values.map TableUsage.table

theorem name_mem_mentioned {inv : Inventory} {d : Definition} (hd : d ∈ inv.registry.slots) : d.name ∈ inv.mentioned :=
  List.mem_append_left _ (List.mem_flatMap.mpr ⟨d, hd, List.mem_cons_self ..⟩)

theorem referenced_mem_mentioned {inv : Inventory} {d : Definition} (hd : d ∈ inv.registry.slots) {n : String}
    (hn : n ∈ d.referenced) : n ∈ inv.mentioned :=
  List.mem_append_left _ (List.mem_flatMap.mpr ⟨d, hd, List.mem_cons_of_mem _ hn⟩)

theorem table_mem_mentioned {inv : Inventory} {u : TableUsage} (hu : u ∈ inv.usage.tables.values) :
    u.table ∈ inv.mentioned :=
  List.mem_append_right _ (List.mem_map_of_mem hu)

theorem missing_subset_mentioned (inv : Inventory) : inv.missing ⊆ inv.mentioned := by
  intro m hm
  obtain ⟨d, hd, hn⟩ := exists_of_mem_missing hm
  exact referenced_mem_mentioned hd hn

theorem keys_discovered (inv : Inventory) (k : String) :
    k ∈ inv.finish.discovered.keys ↔
      ∃ u ∈ inv.usage.tables.values, inv.inferStubs.registry.canonicalName u.table = k := by
  rw [finish, usage_inferStubs, OrderedMap.mem_keys_ofList]
  simp only [List.mem_map, exists_exists_and_eq_and]

/-- Every name is in the result, in some case. -/
theorem exists_name {inv : Inventory} (h : inv.registry.Coherent) {n : String} (hn : n ∈ inv.mentioned) :
    ∃ m ∈ inv.finish.names, upper m = upper n := by
  have hupper := (coherent_stubbed h).upper_canonicalName
  rcases List.mem_append.mp hn with hn | hn
  · obtain ⟨d, hd, hn⟩ := List.mem_flatMap.mp hn
    have hfinal : d.mapReferenced inv.stubbed.canonicalName ∈ inv.inferStubs.registry.slots := by
      rw [slots_inferStubs h]
      exact List.mem_map_of_mem (List.mem_append_left _ hd)
    rcases List.mem_cons.mp hn with rfl | hn
    · exact ⟨_, List.mem_append_left _ (List.mem_map_of_mem hfinal), rfl⟩
    · have hreferenced : inv.stubbed.canonicalName n ∈ (d.mapReferenced inv.stubbed.canonicalName).referenced := by
        rw [Definition.referenced_mapReferenced]
        exact List.mem_map_of_mem hn
      obtain ⟨e, he, hname⟩ := closed_inferStubs h hfinal hreferenced
      exact ⟨e.name, List.mem_append_left _ (List.mem_map_of_mem he), by rw [hname, hupper]⟩
  · obtain ⟨u, hu, rfl⟩ := List.mem_map.mp hn
    exact ⟨_, List.mem_append_right _ ((keys_discovered inv _).mpr ⟨u, hu, rfl⟩),
      (coherent_inferStubs h).upper_canonicalName _⟩

theorem missing_eq {inv : Inventory} (h : inv.registry.Coherent) :
    inv.missing = ((inv.registry.slots.flatMap Definition.referenced).filter fun n =>
      !inv.registry.defines n).foldl addMissing [] := by
  have hfree : ∀ n, (inv.registry.index.find? (upper n)).isNone = !inv.registry.defines n := by
    intro n
    cases hf : inv.registry.index.find? (upper n) with
    | none => simp [Registry.defines, Registry.lookup, Registry.find?, hf]
    | some i =>
      obtain ⟨d, hd, hn⟩ := h.slot_of_key _ i hf
      rw [h.defines_iff.mpr ⟨d, List.mem_of_getElem? hd, hn⟩]
      rfl
  rw [missing]
  simp only [hfree]

theorem foldl_addMissing_append {names : List String} {xs : List String}
    (h : ∀ n ∈ names, ∀ x ∈ xs, upper n ≠ upper x) :
    xs.foldl addMissing names = names ++ xs.foldl addMissing [] := by
  have hall : ∀ ys : List String, xs.foldl addMissing (names ++ ys) = names ++ xs.foldl addMissing ys := by
    induction xs with
    | nil => exact fun ys => rfl
    | cons x xs ih =>
      intro ys
      have hnew : ∀ n ∈ names, upper n ≠ upper x := fun n hn => h n hn x (List.mem_cons_self ..)
      have hstep : addMissing (names ++ ys) x = names ++ addMissing ys x := by
        have hany : names.any (fun n => upper n == upper x) = false := by
          rw [List.any_eq_false]
          exact fun n hn => by simpa using hnew n hn
        rw [addMissing, addMissing, List.any_append, hany, Bool.false_or]
        split
        · rfl
        · rw [List.append_assoc]
      rw [List.foldl_cons, hstep]
      exact ih (fun n hn y hy => h n hn y (List.mem_cons_of_mem _ hy)) _
  simpa using hall []

/-! ## Results -/

theorem canonicalName_inferStubs {inv : Inventory} (h : inv.registry.Coherent) (n : String) :
    inv.inferStubs.registry.canonicalName n = inv.stubbed.canonicalName n := by
  refine (coherent_stubbed h).canonicalName_congr (coherent_inferStubs h) fun x _ => ?_
  rw [registry_inferStubs, Registry.mapReferenced, List.map_map]
  rfl

/-- The tables of which columns were observed, each once, in the spelling of its definition. -/
theorem entries_discovered {inv : Inventory} (h : inv.registry.Coherent) (hkeyed : inv.usage.Keyed) :
    inv.finish.discovered.entries =
      inv.usage.tables.values.map fun u => (inv.stubbed.canonicalName u.table, u.columns) := by
  have hkeys : (inv.usage.tables.values.map fun u => upper (inv.stubbed.canonicalName u.table)) =
      inv.usage.tables.keys := by
    rw [OrderedMap.values, OrderedMap.keys, List.map_map]
    refine List.map_congr_left fun e he => ?_
    rw [Function.comp_apply, (coherent_stubbed h).upper_canonicalName, hkeyed.key e he]
  have hnodup : (inv.usage.tables.values.map fun u => inv.stubbed.canonicalName u.table).Nodup := by
    refine List.Nodup.of_map upper ?_
    rw [List.map_map, Function.comp_def, hkeys]
    exact hkeyed.nodup
  rw [finish, usage_inferStubs]
  simp only [canonicalName_inferStubs h]
  refine OrderedMap.entries_ofList ?_
  rw [List.map_map]
  exact hnodup

/-- The notices on stubs come last, and no others are of their kind. -/
theorem unknownSchemas_finish {inv : Inventory} (h : inv.registry.Coherent) (hknown : inv.KnownSchemas) :
    inv.finish.notices.filter (·.kind = .unknownSchema) =
      (inv.missing.filter fun n => (inv.usage.columns? n).getD [] = []).map Notice.unobserved := by
  have hbefore : inv.notices.filter (·.kind = .unknownSchema) = [] :=
    List.filter_eq_nil_iff.mpr fun n hn => by simpa using hknown n hn
  rw [finish, notices_inferStubs h, List.filter_append, hbefore, List.nil_append, List.filter_eq_self]
  intro n hn
  obtain ⟨m, -, rfl⟩ := List.mem_map.mp hn
  rfl

/-! ## Inventories that have nothing in common -/

/-- The inventory `c` has what `a` has and, behind it, what `b` has. All names in `a` are foreign, and none in `b`. -/
structure Apart (ks : List String) (a b c : Inventory) : Prop where
  first : a.registry.Coherent
  second : b.registry.Coherent
  both : c.registry.Coherent
  slots : c.registry.slots = a.registry.slots ++ b.registry.slots
  entries : c.usage.tables.entries = a.usage.tables.entries ++ b.usage.tables.entries
  notices : c.notices = a.notices ++ b.notices
  foreign : ∀ n ∈ a.mentioned, Foreign ks n
  own : ∀ n ∈ b.mentioned, ¬ Foreign ks n

namespace Apart
variable {ks : List String} {a b c : Inventory} (h : Apart ks a b c)
include h

theorem defines_first {n : String} (hn : Foreign ks n) : c.registry.defines n = a.registry.defines n := by
  rw [Bool.eq_iff_iff, h.both.defines_iff, h.first.defines_iff, h.slots]
  refine ⟨fun ⟨d, hd, hsame⟩ => ?_, fun ⟨d, hd, hsame⟩ => ⟨d, List.mem_append_left _ hd, hsame⟩⟩
  rcases List.mem_append.mp hd with hd | hd
  · exact ⟨d, hd, hsame⟩
  · exact absurd ((foreign_congr hsame).mpr hn) (h.own _ (name_mem_mentioned hd))

theorem defines_second {n : String} (hn : ¬ Foreign ks n) : c.registry.defines n = b.registry.defines n := by
  rw [Bool.eq_iff_iff, h.both.defines_iff, h.second.defines_iff, h.slots]
  refine ⟨fun ⟨d, hd, hsame⟩ => ?_, fun ⟨d, hd, hsame⟩ => ⟨d, List.mem_append_right _ hd, hsame⟩⟩
  rcases List.mem_append.mp hd with hd | hd
  · exact absurd ((foreign_congr hsame).mp (h.foreign _ (name_mem_mentioned hd))) hn
  · exact ⟨d, hd, hsame⟩

theorem missing_eq : c.missing = a.missing ++ b.missing := by
  have hfirst : (a.registry.slots.flatMap Definition.referenced).filter (fun n => !c.registry.defines n) =
      (a.registry.slots.flatMap Definition.referenced).filter fun n => !a.registry.defines n := by
    refine List.filter_congr fun n hn => ?_
    obtain ⟨d, hd, hn⟩ := List.mem_flatMap.mp hn
    rw [h.defines_first (h.foreign n (referenced_mem_mentioned hd hn))]
  have hsecond : (b.registry.slots.flatMap Definition.referenced).filter (fun n => !c.registry.defines n) =
      (b.registry.slots.flatMap Definition.referenced).filter fun n => !b.registry.defines n := by
    refine List.filter_congr fun n hn => ?_
    obtain ⟨d, hd, hn⟩ := List.mem_flatMap.mp hn
    rw [h.defines_second (h.own n (referenced_mem_mentioned hd hn))]
  rw [Inventory.missing_eq h.both, h.slots, List.flatMap_append, List.filter_append, hfirst, hsecond,
    List.foldl_append, ← Inventory.missing_eq h.first, Inventory.missing_eq h.second]
  refine foldl_addMissing_append fun n hn x hx hsame => ?_
  obtain ⟨d, hd, hx⟩ := List.mem_flatMap.mp (List.mem_filter.mp hx).1
  exact h.own x (referenced_mem_mentioned hd hx)
    ((foreign_congr hsame).mp (h.foreign n (a.missing_subset_mentioned hn)))

/-! ### Columns that were used -/

theorem columns?_first (hb : b.usage.Keyed) {n : String} (hn : Foreign ks n) :
    c.usage.columns? n = a.usage.columns? n := by
  have hnone : b.usage.tables.entries.lookup (upper n) = none := by
    rw [List.lookup_eq_none_iff]
    intro e he
    have hown := h.own _ (table_mem_mentioned (List.mem_map_of_mem he))
    rw [Foreign, hb.key e he] at hown
    exact bne_iff_ne.mpr fun hsame => hown (hsame ▸ hn)
  rw [Usage.columns?, Usage.columns?, OrderedMap.find?, OrderedMap.find?, h.entries, List.lookup_append, hnone,
    Option.or_none]

theorem columns?_second (ha : a.usage.Keyed) {n : String} (hn : ¬ Foreign ks n) :
    c.usage.columns? n = b.usage.columns? n := by
  have hnone : a.usage.tables.entries.lookup (upper n) = none := by
    rw [List.lookup_eq_none_iff]
    intro e he
    have hforeign := h.foreign _ (table_mem_mentioned (List.mem_map_of_mem he))
    rw [Foreign, ha.key e he] at hforeign
    exact bne_iff_ne.mpr fun hsame => hn (by rwa [Foreign, hsame])
  rw [Usage.columns?, Usage.columns?, OrderedMap.find?, OrderedMap.find?, h.entries, List.lookup_append, hnone,
    Option.none_or]

/-! ### Spellings -/

theorem mem_names (n : String) : n ∈ c.stubbed.slots.map Definition.name ↔
    n ∈ a.stubbed.slots.map Definition.name ∨ n ∈ b.stubbed.slots.map Definition.name := by
  have hnames : ∀ {inv : Inventory}, inv.registry.Coherent →
      (n ∈ inv.stubbed.slots.map Definition.name ↔
        n ∈ inv.registry.slots.map Definition.name ∨ n ∈ inv.missing) := by
    intro inv hcoh
    have hstubs : (inv.missing.map inv.stub).map Definition.name = inv.missing := by
      rw [List.map_map]
      exact List.map_id _
    rw [slots_stubbed hcoh, List.map_append, hstubs, List.mem_append]
  rw [hnames h.first, hnames h.second, hnames h.both, h.slots, h.missing_eq, List.map_append, List.mem_append,
    List.mem_append, or_or_or_comm]

omit h in
theorem mentioned_of_mem_names {inv : Inventory} (hcoh : inv.registry.Coherent) {n : String}
    (hn : n ∈ inv.stubbed.slots.map Definition.name) : n ∈ inv.mentioned := by
  obtain ⟨d, hd, rfl⟩ := List.mem_map.mp hn
  rw [slots_stubbed hcoh] at hd
  rcases List.mem_append.mp hd with hd | hd
  · exact name_mem_mentioned hd
  · obtain ⟨m, hm, rfl⟩ := List.mem_map.mp hd
    exact inv.missing_subset_mentioned hm

theorem canonicalName_first {n : String} (hn : Foreign ks n) :
    c.stubbed.canonicalName n = a.stubbed.canonicalName n := by
  refine (coherent_stubbed h.first).canonicalName_congr (coherent_stubbed h.both) fun x hx => ?_
  rw [h.mem_names, or_iff_left]
  exact fun hb => h.own x (mentioned_of_mem_names h.second hb) ((foreign_congr hx).mpr hn)

theorem canonicalName_second {n : String} (hn : ¬ Foreign ks n) :
    c.stubbed.canonicalName n = b.stubbed.canonicalName n := by
  refine (coherent_stubbed h.second).canonicalName_congr (coherent_stubbed h.both) fun x hx => ?_
  rw [h.mem_names, or_iff_right]
  exact fun ha => hn ((foreign_congr hx).mp (h.foreign x (mentioned_of_mem_names h.first ha)))

/-! ### Results -/

theorem definitions :
    c.registry.slots.map (·.mapReferenced c.stubbed.canonicalName) =
      a.registry.slots.map (·.mapReferenced a.stubbed.canonicalName) ++
        b.registry.slots.map (·.mapReferenced b.stubbed.canonicalName) := by
  rw [h.slots, List.map_append]
  congr 1
  · exact List.map_congr_left fun d hd => Definition.mapReferenced_congr fun n hn =>
      h.canonicalName_first (h.foreign n (referenced_mem_mentioned hd hn))
  · exact List.map_congr_left fun d hd => Definition.mapReferenced_congr fun n hn =>
      h.canonicalName_second (h.own n (referenced_mem_mentioned hd hn))

theorem discovered : (c.usage.tables.values.map fun u => (c.stubbed.canonicalName u.table, u.columns)) =
    (a.usage.tables.values.map fun u => (a.stubbed.canonicalName u.table, u.columns)) ++
      b.usage.tables.values.map fun u => (b.stubbed.canonicalName u.table, u.columns) := by
  have hvalues : c.usage.tables.values = a.usage.tables.values ++ b.usage.tables.values := by
    rw [OrderedMap.values, h.entries, List.map_append]
    rfl
  rw [hvalues, List.map_append]
  congr 1
  · exact List.map_congr_left fun u hu => by rw [h.canonicalName_first (h.foreign _ (table_mem_mentioned hu))]
  · exact List.map_congr_left fun u hu => by rw [h.canonicalName_second (h.own _ (table_mem_mentioned hu))]

variable (ha : a.usage.Keyed) (hb : b.usage.Keyed)
include ha hb

theorem stubs : c.missing.map c.stub = a.missing.map a.stub ++ b.missing.map b.stub := by
  rw [h.missing_eq, List.map_append]
  congr 1
  · refine List.map_congr_left fun m hm => ?_
    rw [stub, stub, h.columns?_first hb (h.foreign m (a.missing_subset_mentioned hm))]
  · refine List.map_congr_left fun m hm => ?_
    rw [stub, stub, h.columns?_second ha (h.own m (b.missing_subset_mentioned hm))]

theorem unobserved : (c.missing.filter fun n => (c.usage.columns? n).getD [] = []) =
    (a.missing.filter fun n => (a.usage.columns? n).getD [] = []) ++
      b.missing.filter fun n => (b.usage.columns? n).getD [] = [] := by
  rw [h.missing_eq, List.filter_append]
  congr 1
  · refine List.filter_congr fun m hm => ?_
    rw [h.columns?_first hb (h.foreign m (a.missing_subset_mentioned hm))]
  · refine List.filter_congr fun m hm => ?_
    rw [h.columns?_second ha (h.own m (b.missing_subset_mentioned hm))]

end Apart

theorem keyed_ofStatements (resultName : String) (texts : List String) : (ofStatements resultName texts).usage.Keyed := by
  rw [usage_ofStatements]
  exact Usage.keyed_empty.recordAll _

/-- Statements that name nothing in common find what the first ones find and, behind it, what the second ones find. -/
theorem apart_ofStatements {resultName : String} {before after : List String}
    (h : (ofStatements resultName before).finish.Unrelated (ofStatements resultName after).finish) :
    Apart ((ofStatements resultName before).finish.names.map upper) (ofStatements resultName before)
      (ofStatements resultName after) (ofStatements resultName (before ++ after)) := by
  have hfirst := coherent_ofStatements resultName before
  have hsecond := coherent_ofStatements resultName after
  have hforeign : ∀ n ∈ (ofStatements resultName before).mentioned,
      Foreign ((ofStatements resultName before).finish.names.map upper) n := by
    intro n hn
    obtain ⟨m, hm, hsame⟩ := exists_name hfirst hn
    exact List.mem_map.mpr ⟨m, hm, hsame⟩
  have hown : ∀ n ∈ (ofStatements resultName after).mentioned,
      ¬ Foreign ((ofStatements resultName before).finish.names.map upper) n := by
    intro n hn hin
    obtain ⟨x, hx, hxn⟩ := List.mem_map.mp hin
    obtain ⟨m, hm, hmn⟩ := exists_name hsecond hn
    exact h x hx m hm (hxn.trans hmn.symm)
  have hclear : (ofStatements resultName after).Clear ((ofStatements resultName before).finish.names.map upper) := by
    refine ⟨fun n hn => ?_, fun k hk => ?_⟩
    · obtain ⟨d, hd, hsame⟩ := hsecond.defines_iff.mp hn
      exact fun hin => hown _ (name_mem_mentioned hd) ((foreign_congr hsame).mpr hin)
    · obtain ⟨e, he, rfl⟩ := List.mem_map.mp hk
      rw [← (keyed_ofStatements resultName after).key e he]
      exact hown _ (table_mem_mentioned (List.mem_map_of_mem he))
  have hbeside := beside_ofStatements resultName
    (fun d hd => ⟨hforeign _ (name_mem_mentioned hd), fun n hn => hforeign n (referenced_mem_mentioned hd hn)⟩)
    (fun k hk => by
      obtain ⟨e, he, rfl⟩ := List.mem_map.mp hk
      rw [← (keyed_ofStatements resultName before).key e he]
      exact hforeign _ (table_mem_mentioned (List.mem_map_of_mem he))) hclear
  exact {
    first := hfirst
    second := hsecond
    both := coherent_ofStatements resultName (before ++ after)
    slots := hbeside.registry.slots_eq fun d hd n hn => hown n (referenced_mem_mentioned hd hn)
    entries := hbeside.usage.entries
    notices := hbeside.notices
    foreign := hforeign
    own := hown }

end Inventory

/-- Statements do not interfere with other statements, if no name in the result of these is a name in the result of
those, whatever its case. Read one after the other they give the definitions of both, as they are without the other
ones, and only the stubs stand behind all of them. The observed columns are those of both, and so are the notices;
those that come with stubs stand behind the others. -/
theorem Extraction.unrelated_statements (resultName : String) (before after : List String)
    (h : (Inventory.ofStatements resultName before).finish.Unrelated (Inventory.ofStatements resultName after).finish) :
    let first := Inventory.ofStatements resultName before
    let second := Inventory.ofStatements resultName after
    let e : Extraction := (Inventory.ofStatements resultName (before ++ after)).finish
    e.definitions =
      first.finish.definitions.filter (·.kind ≠ .stub) ++ second.finish.definitions.filter (·.kind ≠ .stub) ++
      first.finish.definitions.filter (·.kind = .stub) ++ second.finish.definitions.filter (·.kind = .stub) ∧
    e.discovered.entries = first.finish.discovered.entries ++ second.finish.discovered.entries ∧
    e.notices = first.notices ++ second.notices ++
      first.finish.notices.filter (·.kind = .unknownSchema) ++
      second.finish.notices.filter (·.kind = .unknownSchema) := by
  intro first second e
  have hapart := Inventory.apart_ofStatements h
  have hkeyed := Inventory.keyed_ofStatements resultName
  have hkind := Inventory.kind_ofStatements resultName
  have hknown := Inventory.knownSchemas_ofStatements resultName
  have hstubs : ∀ inv : Inventory, (inv.missing.map inv.stub).map (·.mapReferenced inv.stubbed.canonicalName) =
      inv.missing.map inv.stub := by
    intro inv
    rw [List.map_map]
    rfl
  refine ⟨?_, ?_, ?_⟩
  · obtain ⟨hothers₁, hstubs₁, -⟩ := Inventory.definitions_split hapart.first (hkind before)
    obtain ⟨hothers₂, hstubs₂, -⟩ := Inventory.definitions_split hapart.second (hkind after)
    obtain ⟨hothers, hstubs', hsplit⟩ := Inventory.definitions_split hapart.both (hkind (before ++ after))
    rw [hsplit, hothers, hstubs', hothers₁, hstubs₁, hothers₂, hstubs₂, hstubs, hstubs, hstubs, hapart.definitions,
      hapart.stubs (hkeyed before) (hkeyed after), ← List.append_assoc]
  · rw [Inventory.entries_discovered hapart.both (hkeyed _), Inventory.entries_discovered hapart.first (hkeyed _),
      Inventory.entries_discovered hapart.second (hkeyed _), hapart.discovered]
  · rw [Inventory.unknownSchemas_finish hapart.first (hknown before),
      Inventory.unknownSchemas_finish hapart.second (hknown after)]
    exact (Inventory.notices_inferStubs hapart.both).trans (by
      rw [hapart.notices, hapart.unobserved (hkeyed before) (hkeyed after), List.map_append, ← List.append_assoc])

theorem Extraction.view_after_query :
    let before := ["CREATE TABLE t (x INT)", "SELECT t.x, s.y FROM t JOIN s ON t.x = s.z"]
    let after := ["CREATE VIEW v AS WITH w AS (SELECT u.k FROM u) SELECT w.k FROM w"]
    let first := Inventory.ofStatements "Query Result" before
    let second := Inventory.ofStatements "Query Result" after
    let e : Extraction := (Inventory.ofStatements "Query Result" (before ++ after)).finish
    first.finish.Unrelated second.finish ∧
    e.definitions =
      first.finish.definitions.filter (·.kind ≠ .stub) ++ second.finish.definitions.filter (·.kind ≠ .stub) ++
      first.finish.definitions.filter (·.kind = .stub) ++ second.finish.definitions.filter (·.kind = .stub) ∧
    e.definitions.map Definition.name = ["t", "Query Result", "w", "v", "s", "u"] ∧
    e.discovered.keys = ["t", "s", "u"] := by
  intro before after first second e
  have h : first.finish.Unrelated second.finish := by decide +kernel
  obtain ⟨hdefinitions, -, -⟩ := unrelated_statements "Query Result" before after h
  exact ⟨h, hdefinitions, by decide +kernel, by decide +kernel⟩

end SqlLineage
