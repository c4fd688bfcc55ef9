import SqlLineage.Proofs.Script.Trace

/-! # What stubs complete

* `Inventory.missing`: every name without a definition is in it once, in one of its spellings.
* `Inventory.slots_inferStubs`: the stubs stand behind all other definitions, and every name that is
  referred to is spelled as its definition spells it.
* `Inventory.closed_inferStubs`: behind that every reference is the exact name of a definition.
* `Inventory.Resolved`: such inventories are the ones that stubs leave as they are, so adding stubs twice is adding
  them once. -/

namespace SqlLineage
open SqlLineage.Text
set_option autoImplicit false

theorem Registry.Coherent.canonicalName_of_mem {r : Registry} (h : r.Coherent) {d : Definition} (hd : d ∈ r.slots)
    {name : String} (hn : upper d.name = upper name) : r.canonicalName name = d.name := by
  rw [Registry.canonicalName, h.lookup_eq_some_iff.mpr ⟨hd, hn⟩]
  rfl

theorem Registry.Coherent.canonicalName_mem {r : Registry} (h : r.Coherent) {name : String}
    (hn : r.defines name = true) : ∃ d ∈ r.slots, d.name = r.canonicalName name := by
  unfold Registry.defines at hn
  obtain ⟨d, hd⟩ := Option.isSome_iff_exists.mp hn
  refine ⟨d, (h.lookup_eq_some_iff.mp hd).1, ?_⟩
  rw [Registry.canonicalName, hd]
  rfl

namespace Inventory

/-! ## The missing names -/

theorem mem_addMissing {names : List String} {name n : String} (h : n ∈ addMissing names name) :
    n ∈ names ∨ n = name := by
  unfold addMissing at h
  split at h
  · exact .inl h
  · simpa using h

theorem exists_addMissing (names : List String) (name : String) {n : String} (h : n ∈ names ∨ n = name) :
    ∃ m ∈ addMissing names name, upper m = upper n := by
  unfold addMissing
  split
  · next hany =>
    rcases h with h | rfl
    · exact ⟨n, h, rfl⟩
    · obtain ⟨m, hm, hu⟩ := List.any_eq_true.mp hany
      exact ⟨m, hm, by simpa using hu⟩
  · exact ⟨n, by simpa using h, rfl⟩

theorem nodup_addMissing {names : List String} (name : String) (h : (names.map upper).Nodup) :
    ((addMissing names name).map upper).Nodup := by
  unfold addMissing
  split
  · exact h
  · next hany =>
    rw [List.map_append, List.map_singleton, List.nodup_append]
    refine ⟨h, List.nodup_singleton _, ?_⟩
    intro a ha b hb hab
    obtain ⟨n, hn, rfl⟩ := List.mem_map.mp ha
    rw [List.mem_singleton.mp hb] at hab
    exact hany (List.any_eq_true.mpr ⟨n, hn, by simpa using hab⟩)

theorem mem_foldl_addMissing (xs names : List String) {n : String} (h : n ∈ xs.foldl addMissing names) :
    n ∈ names ∨ n ∈ xs := by
  induction xs generalizing names with
  | nil => exact .inl h
  | cons x xs ih =>
    rcases ih _ h with hn | hn
    · rcases mem_addMissing hn with hn | rfl
      · exact .inl hn
      · exact .inr (List.mem_cons_self ..)
    · exact .inr (List.mem_cons_of_mem _ hn)

theorem exists_foldl_addMissing (xs names : List String) {n : String} (h : n ∈ names ∨ n ∈ xs) :
    ∃ m ∈ xs.foldl addMissing names, upper m = upper n := by
  induction xs generalizing names n with
  | nil => exact ⟨n, by simpa using h, rfl⟩
  | cons x xs ih =>
    rw [List.mem_cons, ← or_assoc] at h
    rcases h with h | h
    · obtain ⟨m, hm, hmn⟩ := exists_addMissing names x h
      obtain ⟨k, hk, hkm⟩ := ih (addMissing names x) (.inl hm)
      exact ⟨k, hk, hkm.trans hmn⟩
    · exact ih (addMissing names x) (.inr h)

theorem nodup_foldl_addMissing (xs names : List String) (h : (names.map upper).Nodup) :
    ((xs.foldl addMissing names).map upper).Nodup := by
  induction xs generalizing names with
  | nil => exact h
  | cons x xs ih => exact ih _ (nodup_addMissing x h)

theorem nodup_missing (inv : Inventory) : (inv.missing.map upper).Nodup :=
  nodup_foldl_addMissing _ [] List.nodup_nil

theorem defines_of_mem_missing {inv : Inventory} {name : String} (h : name ∈ inv.missing) :
    inv.registry.defines name = false := by
  rcases mem_foldl_addMissing _ [] h with h | h
  · cases h
  · have hnone := Option.isNone_iff_eq_none.mp (List.mem_filter.mp h).2
    simp [Registry.defines, Registry.lookup, Registry.find?, hnone]

theorem exists_of_mem_missing {inv : Inventory} {name : String} (h : name ∈ inv.missing) :
    ∃ d ∈ inv.registry.slots, name ∈ d.referenced := by
  rcases mem_foldl_addMissing _ [] h with h | h
  · cases h
  · exact List.mem_flatMap.mp (List.mem_filter.mp h).1

theorem defines_or_missing {inv : Inventory} (h : inv.registry.Coherent) {d : Definition}
    (hd : d ∈ inv.registry.slots) {name : String} (hn : name ∈ d.referenced) :
    inv.registry.defines name = true ∨ ∃ m ∈ inv.missing, upper m = upper name := by
  cases hf : inv.registry.index.find? (upper name) with
  | some i =>
    obtain ⟨e, he, hen⟩ := h.slot_of_key _ i hf
    exact .inl (h.defines_iff.mpr ⟨e, List.mem_of_getElem? he, hen⟩)
  | none =>
    refine .inr (exists_foldl_addMissing _ [] (.inr (List.mem_filter.mpr ⟨?_, ?_⟩)))
    · exact List.mem_flatMap.mpr ⟨d, hd, hn⟩
    · rw [hf]
      rfl

/-! ## Filing the stubs -/

def stub (inv : Inventory) (name : String) : Definition :=
  let columns := stubColumns ((inv.usage.columns? name).getD [])
  ⟨name, .stub, if columns = [] then [Column.unknownSchema] else columns, [], []⟩

theorem registry_addStub (inv : Inventory) (name : String) :
    (inv.addStub name).registry = (inv.registry.define (inv.stub name)).registry := by
  unfold addStub stub
  split
  · next h => simp [h]
  · next h => simp only [registry_define, if_neg (show ¬ _ from h)]

theorem stub_addStub (inv : Inventory) (name : String) : (inv.addStub name).stub = inv.stub := by
  have hu : (inv.addStub name).usage = inv.usage := by
    unfold addStub
    split <;> rfl
  funext n
  rw [stub, stub, hu]

theorem registry_foldl_addStub (names : List String) (inv : Inventory) :
    (names.foldl addStub inv).registry = inv.registry.fileAll (names.map inv.stub) := by
  induction names generalizing inv with
  | nil => rfl
  | cons name names ih =>
    rw [List.foldl_cons, ih, stub_addStub, registry_addStub]
    rfl

/-- The registry with all stubs, before references are respelled. -/
def stubbed (inv : Inventory) : Registry :=
  inv.registry.fileAll (inv.missing.map inv.stub)

theorem coherent_stubbed {inv : Inventory} (h : inv.registry.Coherent) : inv.stubbed.Coherent :=
  h.fileAll _

theorem defines_of_mem_stubs {inv : Inventory} {d : Definition} (h : d ∈ inv.missing.map inv.stub) :
    inv.registry.defines d.name = false := by
  obtain ⟨name, hn, rfl⟩ := List.mem_map.mp h
  exact defines_of_mem_missing hn

theorem nodup_stubs (inv : Inventory) : ((inv.missing.map inv.stub).map fun d => upper d.name).Nodup := by
  rw [List.map_map]
  exact inv.nodup_missing

theorem slots_stubbed {inv : Inventory} (h : inv.registry.Coherent) :
    inv.stubbed.slots = inv.registry.slots ++ inv.missing.map inv.stub :=
  h.slots_fileAll_of_nodup (fun _ hd => defines_of_mem_stubs hd) inv.nodup_stubs

theorem registry_inferStubs (inv : Inventory) :
    inv.inferStubs.registry = inv.stubbed.mapReferenced inv.stubbed.canonicalName := by
  rw [inferStubs, canonicalize, registry_foldl_addStub]
  rfl

theorem definitions_finish (inv : Inventory) : inv.finish.definitions = inv.inferStubs.registry.slots := rfl

theorem slots_inferStubs {inv : Inventory} (h : inv.registry.Coherent) :
    inv.inferStubs.registry.slots =
      (inv.registry.slots ++ inv.missing.map inv.stub).map (·.mapReferenced inv.stubbed.canonicalName) := by
  rw [registry_inferStubs, Registry.mapReferenced, slots_stubbed h]

theorem defines_stubbed {inv : Inventory} (h : inv.registry.Coherent) {d : Definition}
    (hd : d ∈ inv.stubbed.slots) {name : String} (hn : name ∈ d.referenced) :
    inv.stubbed.defines name = true := by
  rw [(coherent_stubbed h).defines_iff]
  rw [slots_stubbed h] at hd ⊢
  rcases List.mem_append.mp hd with hd | hd
  · rcases defines_or_missing h hd hn with hdef | ⟨m, hm, hmn⟩
    · obtain ⟨e, he, hen⟩ := h.defines_iff.mp hdef
      exact ⟨e, List.mem_append_left _ he, hen⟩
    · exact ⟨inv.stub m, List.mem_append_right _ (List.mem_map_of_mem hm), hmn⟩
  · obtain ⟨m, -, rfl⟩ := List.mem_map.mp hd
    cases hn

theorem closed_inferStubs {inv : Inventory} (h : inv.registry.Coherent) {d : Definition}
    (hd : d ∈ inv.inferStubs.registry.slots) {name : String} (hn : name ∈ d.referenced) :
    ∃ e ∈ inv.inferStubs.registry.slots, e.name = name := by
  rw [registry_inferStubs] at hd ⊢
  obtain ⟨o, ho, rfl⟩ := List.mem_map.mp hd
  rw [Definition.referenced_mapReferenced] at hn
  obtain ⟨n, hon, rfl⟩ := List.mem_map.mp hn
  obtain ⟨e, he, hen⟩ := (coherent_stubbed h).canonicalName_mem (defines_stubbed h ho hon)
  exact ⟨e.mapReferenced inv.stubbed.canonicalName, List.mem_map_of_mem he, hen⟩

/-- A definition refers to itself in the end just when it refers to its own name in some case. -/
theorem refers_to_itself_iff {inv : Inventory} (h : inv.registry.Coherent) {d : Definition}
    (hd : d ∈ inv.registry.slots) :
    d.name ∈ (d.mapReferenced inv.stubbed.canonicalName).referenced ↔
      ∃ n ∈ d.referenced, upper n = upper d.name := by
  have hs : d ∈ inv.stubbed.slots := by
    rw [slots_stubbed h]
    exact List.mem_append_left _ hd
  rw [Definition.referenced_mapReferenced, List.mem_map]
  refine exists_congr fun n => and_congr_right fun _ => ?_
  constructor
  · intro hn
    rw [← (coherent_stubbed h).upper_canonicalName n, hn]
  · intro hn
    exact (coherent_stubbed h).canonicalName_of_mem hs hn.symm

/-! ## Stubs for the second time -/

/-- Every name that a definition refers to is the exact name of a definition. -/
def Resolved (inv : Inventory) : Prop :=
  ∀ d ∈ inv.registry.slots, ∀ name ∈ d.referenced, ∃ e ∈ inv.registry.slots, e.name = name

theorem resolved_inferStubs {inv : Inventory} (h : inv.registry.Coherent) : inv.inferStubs.Resolved :=
  fun _ hd _ hn => closed_inferStubs h hd hn

section Resolved
variable {inv : Inventory}

theorem Resolved.missing_eq_nil (hr : inv.Resolved) (h : inv.registry.Coherent) : inv.missing = [] := by
  refine List.eq_nil_iff_forall_not_mem.mpr fun name hn => ?_
  obtain ⟨d, hd, hname⟩ := exists_of_mem_missing hn
  obtain ⟨e, he, rfl⟩ := hr d hd name hname
  have hdefines : inv.registry.defines e.name = true := h.defines_iff.mpr ⟨e, he, rfl⟩
  rw [defines_of_mem_missing hn] at hdefines
  cases hdefines

theorem Resolved.canonicalize_eq (hr : inv.Resolved) (h : inv.registry.Coherent) : inv.canonicalize = inv := by
  have hslots : inv.registry.slots.map (·.mapReferenced inv.registry.canonicalName) = inv.registry.slots := by
    refine (List.map_congr_left fun d hd => ?_).trans (List.map_id _)
    have hsame : ∀ n ∈ d.referenced, inv.registry.canonicalName n = id n := by
      intro n hn
      obtain ⟨e, he, rfl⟩ := hr d hd n hn
      exact h.canonicalName_of_mem he rfl
    rw [Definition.mapReferenced_congr hsame, Definition.mapReferenced_id, id]
  rw [canonicalize, Registry.mapReferenced, hslots]

/-- The inventories that stubs leave as they are. -/
theorem inferStubs_eq_self_iff (h : inv.registry.Coherent) : inv.inferStubs = inv ↔ inv.Resolved := by
  constructor
  · intro heq
    rw [← heq]
    exact resolved_inferStubs h
  · intro hr
    rw [inferStubs, hr.missing_eq_nil h]
    exact hr.canonicalize_eq h

end Resolved
end Inventory

/-- Stubs that are added to a reachable inventory for the second time change nothing, neither definitions nor their
spelling, what was used or the notices. So it makes no difference to what is extracted in the end whether they have
been added before. -/
theorem Operation.inferStubs_idempotent (ops : List Operation) :
    let inv := runAll .empty ops
    inv.inferStubs.inferStubs = inv.inferStubs ∧ inv.inferStubs.finish = inv.finish := by
  intro inv
  have h : inv.registry.Coherent := coherent_runAll ops
  have htwice : inv.inferStubs.inferStubs = inv.inferStubs :=
    (Inventory.inferStubs_eq_self_iff (Inventory.coherent_inferStubs h)).mpr (Inventory.resolved_inferStubs h)
  refine ⟨htwice, ?_⟩
  rw [Inventory.finish, htwice, Inventory.finish]

end SqlLineage
