import SqlLineage.Proofs.Registry.Spelling
import SqlLineage.Proofs.Script.Sites
import SqlLineage.Proofs.Script.Stubs

/-! # Where names lead

The registry is one for the whole script. So a name that a statement does not bind itself leads to whatever has it
where it is read, be it a common table expression of an earlier statement, and a name that nothing has is only a
spelling, which anything may take later.

* `Script.Place.Fills`: the definition of the site is the one that a slot holds in the end.
* `Script.Place.finalName`: a name of the site as the result spells it.
* `Script.Place.statement_eq_or_free`: which names can become that of a common table expression.
* `Script.Place.holds_of_find?`: the name of a table or view leads to what stands in its place.
* `Extraction.refers_to_cte`: where the references of a definition lead. -/

namespace SqlLineage
open SqlLineage.Text
set_option autoImplicit false

instance Registry.decidableKeeps (r : Registry) (i : Nat) (ds : List Definition) : Decidable (r.Keeps i ds) :=
  match ds with
  | [] => .isTrue trivial
  | d :: ds =>
    haveI := decidableKeeps (r.define d).registry i ds
    inferInstanceAs (Decidable (_ ∧ _))

namespace Script.Place
variable {r : Registry} {ss : List Site}

/-! ## Registries around a place -/

theorem split_before_after (p : Place r ss) : ss = p.before ++ p.site :: p.after := by
  refine p.split.trans ?_
  simp [before, after]

/-- What the statement of the site begins with. -/
def start (p : Place r ss) : Registry :=
  r.fileAll (p.earlier.map Site.definition)

/-- What the site is read with. -/
def registry (p : Place r ss) : Registry :=
  r.fileAll (p.before.map Site.definition)

def filed (p : Place r ss) : Registry.Filed :=
  p.registry.define p.site.definition

/-- The definition of the site is the last one that goes into slot `i`. -/
def Fills (p : Place r ss) (i : Nat) : Prop :=
  p.filed.slot = i ∧ p.filed.registry.Keeps i (p.after.map Site.definition)

/-- How a name of the definition is spelled behind all sites. -/
def spelling (p : Place r ss) (name : String) : String :=
  p.registry.respell ((p.site :: p.after).map Site.definition) name

/-- The name of the definition behind all sites. -/
def ownName (p : Place r ss) : String :=
  p.filed.registry.respell (p.after.map Site.definition) p.site.definition.name

theorem registry_eq (p : Place r ss) : p.registry = p.start.fileAll (p.front.map Site.definition) := by
  rw [registry, before, List.map_append, Registry.fileAll_append]
  rfl

theorem registry_environment (p : Place r ss) : p.site.environment.registry = p.registry := by
  rw [p.series.read _ _ _ p.series_eq.symm, registry_eq]
  rfl

theorem site_mem (p : Place r ss) : p.site ∈ p.ctes ++ [p.own] := by
  rw [← p.series_eq]
  simp

/-- The statement from the site on. -/
theorem exists_rest (p : Place r ss) :
    ∃ rest, p.ctes = p.front ++ rest ∧ p.site :: p.back = rest ++ [p.own] := by
  rcases List.append_eq_append_iff.mp p.series_eq with ⟨rest, hctes, hrest⟩ | ⟨rest, hfront, hrest⟩
  · exact ⟨rest, hctes, hrest⟩
  · cases rest with
    | nil => exact ⟨[], by rw [hfront, List.append_nil, List.append_nil], hrest.symm⟩
    | cons x rest => simp at hrest

theorem definitions_of_subset {p : Place r ss} {xs : List Site} (hxs : xs ⊆ p.ctes) :
    ∀ d ∈ xs.map Site.definition, d.kind = .cte ∧ p.start.defines d.name = false := by
  intro d hd
  obtain ⟨x, hx, rfl⟩ := List.mem_map.mp hd
  exact p.series.cte x (hxs hx)

/-- A common table expression stands among those of its statement. -/
theorem front_subset_ctes {p : Place r ss} (hk : p.site.definition.kind = .cte) : p.front ++ [p.site] ⊆ p.ctes := by
  obtain ⟨rest, hctes, hrest⟩ := p.exists_rest
  cases rest with
  | nil =>
    obtain ⟨hown, -⟩ := List.cons.inj hrest
    exact absurd (hown ▸ hk) p.series.kind_own
  | cons x rest =>
    obtain ⟨rfl, -⟩ := List.cons.inj hrest
    rw [hctes, List.append_cons p.front p.site rest]
    exact List.subset_append_left ..

theorem filed_registry_eq (p : Place r ss) :
    p.filed.registry = p.start.fileAll ((p.front ++ [p.site]).map Site.definition) := by
  rw [List.map_append, Registry.fileAll_append, ← registry_eq]
  rfl

section Statements
variable (hr : r.Coherent)
include hr

theorem coherent_start (p : Place r ss) : p.start.Coherent := hr.fileAll _

theorem coherent_registry (p : Place r ss) : p.registry.Coherent := hr.fileAll _

theorem coherent_filed (p : Place r ss) : p.filed.registry.Coherent := (p.coherent_registry hr).define _

theorem getElem?_filed (p : Place r ss) : p.filed.registry.slots[p.filed.slot]? =
    some (p.site.definition.mapReferenced (p.registry.respellOne p.site.definition)) := by
  have hslot := (p.coherent_registry hr).getElem?_define p.site.definition p.filed.slot
  rwa [filed, if_pos rfl] at hslot

/-- Common table expressions touch no slot that was there before their statement. -/
theorem getElem?_fileAll_ctes {p : Place r ss} {xs : List Site} (hxs : xs ⊆ p.ctes) {j : Nat}
    (hj : j < p.start.slots.length) :
    (p.start.fileAll (xs.map Site.definition)).slots[j]? = p.start.slots[j]? := by
  have hprefix := (p.coherent_start hr).prefix_fileAll (p.coherent_start hr) (List.prefix_refl _)
    (definitions_of_subset hxs)
  rw [List.prefix_iff_getElem?.mp hprefix j hj, List.getElem?_eq_getElem hj]

/-- So they go into slots behind those. -/
theorem length_start_le_slot {p : Place r ss} (hk : p.site.definition.kind = .cte) :
    p.start.slots.length ≤ p.filed.slot := by
  by_contra hlt
  rw [Nat.not_le] at hlt
  have hsub := front_subset_ctes hk
  have hslot := p.getElem?_filed hr
  rw [filed_registry_eq, getElem?_fileAll_ctes hr hsub hlt] at hslot
  have hfree := (p.series.cte p.site (hsub (by simp))).2
  exact (p.coherent_start hr).defines_eq_false_iff.mp hfree _ (List.mem_of_getElem? hslot) rfl

/-! ## Two places -/

end Statements

theorem statement_le (p : Place r ss) : ∀ x ∈ p.earlier ++ (p.front ++ p.site :: p.back),
    x.statement ≤ p.site.statement := by
  intro x hx
  rcases List.mem_append.mp hx with hx | hx
  · exact Nat.le_of_lt (p.earlier_lt x hx)
  · exact Nat.le_of_eq (p.series.statement x (p.series_eq ▸ hx))

theorem le_statement (p : Place r ss) : ∀ x ∈ p.front ++ p.site :: p.back ++ p.later,
    p.site.statement ≤ x.statement := by
  intro x hx
  rcases List.mem_append.mp hx with hx | hx
  · exact Nat.le_of_eq (p.series.statement x (p.series_eq ▸ hx)).symm
  · exact Nat.le_of_lt (p.lt_later x hx)

/-- The sites of an earlier statement all stand in front of those of a later one. -/
theorem exists_between {p q : Place r ss} (h : p.site.statement < q.site.statement) :
    ∃ mid, q.earlier = p.earlier ++ (p.front ++ p.site :: p.back) ++ mid ∧
      p.later = mid ++ (q.front ++ q.site :: q.back ++ q.later) := by
  have hsplit := p.split.symm.trans q.split
  rw [List.append_assoc q.earlier] at hsplit
  rcases List.append_eq_append_iff.mp hsplit with ⟨mid, hearlier, hlater⟩ | ⟨mid, hfront, hback⟩
  · exact ⟨mid, hearlier, hlater⟩
  · cases mid with
    | nil => exact ⟨[], by rw [hfront, List.append_nil, List.append_nil], hback.symm⟩
    | cons x mid =>
      have hle := p.statement_le x (by rw [hfront]; simp)
      have hge := q.le_statement x (by rw [hback]; simp)
      omega

/-! ## Names that have a definition where they are read -/

/-- All that is filed from the start of the statement on. -/
def onward (p : Place r ss) : List Definition :=
  (p.front ++ p.site :: p.back ++ p.later).map Site.definition

/-- Slot `j` has the name at some point of the statement, and the name becomes what it becomes from there on. -/
def Held (p : Place r ss) (name : String) (j : Nat) : Prop :=
  ∃ (ds es : List Definition) (e : Definition), (p.front ++ p.site :: p.back).map Site.definition = ds ++ es ∧
    p.spelling name = (p.start.fileAll ds).respell (es ++ p.later.map Site.definition) name ∧
    (p.start.fileAll ds).slots[j]? = some e ∧ upper e.name = upper name

theorem held_of_find? (hr : r.Coherent) {p : Place r ss} {x : String × String} (hx : x ∈ p.site.names)
    (hfree : p.site.environment.ctes.filed? x.1 = none) {j : Nat} {e : Definition}
    (hfind : p.site.environment.registry.find? x.1 = some (j, e)) : p.Held x.2 j := by
  rw [registry_environment, (p.coherent_registry hr).find?_eq_some_iff] at hfind
  have hname := (p.series.faithful p.site p.site_mem).free x hx hfree
  refine ⟨p.front.map Site.definition, (p.site :: p.back).map Site.definition, e, ?_, ?_, ?_, hfind.2.trans hname.symm⟩
  · rw [List.map_append]
  · rw [← registry_eq, spelling, after, ← List.cons_append, List.map_append]
  · rw [← registry_eq]
    exact hfind.1

theorem spelling_eq_of_ctes (p : Place r ss) (name : String) :
    p.spelling name = (p.start.fileAll (p.ctes.map Site.definition)).respell
      (p.own.definition :: p.later.map Site.definition) name := by
  obtain ⟨rest, hctes, hrest⟩ := p.exists_rest
  have hsub : rest ⊆ p.ctes := hctes ▸ List.subset_append_right ..
  have hfiled : p.start.fileAll (p.ctes.map Site.definition) = p.registry.fileAll (rest.map Site.definition) := by
    rw [hctes, List.map_append, Registry.fileAll_append, ← registry_eq]
  have honward : (p.site :: p.after).map Site.definition =
      rest.map Site.definition ++ p.own.definition :: p.later.map Site.definition := by
    rw [after, ← List.cons_append, hrest]
    simp
  rw [spelling, honward, Registry.respell_append, hfiled,
    Registry.respell_of_ctes fun d hd => (definitions_of_subset hsub d hd).1]
  rfl

theorem held_of_bound (hr : r.Coherent) {p : Place r ss} {x : String × String} (hx : x ∈ p.site.names) {v : String}
    (hv : p.site.environment.ctes.filed? x.1 = some v) : ∃ j, p.start.slots.length ≤ j ∧ p.Held x.2 j := by
  obtain rfl := (p.series.faithful p.site p.site_mem).bound x hx v hv
  obtain ⟨hfree, hdef⟩ := p.series.bound p.site p.site_mem _ _ hv
  have hcoh := p.coherent_start hr
  obtain ⟨e, he, hname⟩ := (hcoh.fileAll _).defines_iff.mp hdef
  obtain ⟨j, hj⟩ := List.mem_iff_getElem?.mp he
  refine ⟨j, ?_, p.ctes.map Site.definition, [p.own.definition], e, ?_, p.spelling_eq_of_ctes x.2, hj, hname⟩
  · -- the name is new in the statement
    by_contra hlt
    rw [Nat.not_le] at hlt
    have hj : (p.start.fileAll (p.ctes.map Site.definition)).slots[j]? = some e := hj
    rw [getElem?_fileAll_ctes hr (List.Subset.refl _) hlt] at hj
    exact hcoh.defines_eq_false_iff.mp hfree e (List.mem_of_getElem? hj) hname
  · rw [p.series_eq, List.map_append]
    rfl

/-! ## Which names never lead to a common table expression -/

/-- What a definition of an earlier statement has become at the start of a later one. -/
theorem Fills.of_lt (hr : r.Coherent) {p q : Place r ss} {k : Nat} (hp : p.Fills k)
    (h : p.site.statement < q.site.statement) :
    ∃ e, q.start.slots[k]? = some e ∧ q.start.Keeps k q.onward ∧
      p.ownName = q.start.respell q.onward e.name := by
  obtain ⟨rfl, hkeeps⟩ := hp
  obtain ⟨mid, hearlier, hlater⟩ := exists_between h
  have hafter : p.after.map Site.definition = (p.back ++ mid).map Site.definition ++ q.onward := by
    rw [after, hlater, ← List.append_assoc, List.map_append]
    rfl
  have hstart : q.start = p.filed.registry.fileAll ((p.back ++ mid).map Site.definition) := by
    rw [start, hearlier, filed_registry_eq, start, ← Registry.fileAll_append, ← Registry.fileAll_append]
    simp
  rw [hafter, Registry.keeps_append] at hkeeps
  have hin := hkeeps.1.getElem?_fileAll (p.coherent_filed hr)
  rw [p.getElem?_filed hr] at hin
  rw [hstart]
  refine ⟨_, hin, hkeeps.2, ?_⟩
  rw [ownName, hafter, Registry.respell_append]
  rfl

theorem Fills.lt_length_start (hr : r.Coherent) {p q : Place r ss} {k : Nat} (hp : p.Fills k)
    (h : p.site.statement < q.site.statement) : k < q.start.slots.length := by
  obtain ⟨e, he, -⟩ := hp.of_lt hr h
  exact (List.getElem?_eq_some_iff.mp he).1

theorem upper_spelling_ne_of_lt (hr : r.Coherent) {p q : Place r ss} {k : Nat} (hp : p.Fills k)
    (h : p.site.statement < q.site.statement) {name : String} {j : Nat} (hheld : q.Held name j) (hjk : j ≠ k) :
    upper (q.spelling name) ≠ upper p.ownName := by
  obtain ⟨e, he, hkeeps, hown⟩ := hp.of_lt hr h
  obtain ⟨ds, es, d, hall, hspelling, hd, hname⟩ := hheld
  have honward : q.onward = ds ++ (es ++ q.later.map Site.definition) := by
    rw [onward, List.map_append, hall, List.append_assoc]
  rw [hspelling, hown, honward]
  exact Registry.Keeps.upper_respell_append_ne (q.coherent_start hr) (honward ▸ hkeeps) he hd hjk hname

/-- A name that is there at the start of a statement is not that of a common table expression of the statement. -/
theorem upper_respell_ne_of_defines (hr : r.Coherent) {p : Place r ss} {k : Nat} (hp : p.Fills k)
    (hk : p.site.definition.kind = .cte) {name : String} (hn : p.start.defines name = true) :
    upper (p.start.respell p.onward name) ≠ upper p.ownName := by
  obtain ⟨rfl, hkeeps⟩ := hp
  have hsub := front_subset_ctes hk
  have honward : p.onward = (p.front ++ [p.site]).map Site.definition ++ p.after.map Site.definition := by
    rw [onward, after]
    simp
  obtain ⟨e, he, hname⟩ := (p.coherent_start hr).defines_iff.mp hn
  obtain ⟨j, hj⟩ := List.mem_iff_getElem?.mp he
  have hlt := (List.getElem?_eq_some_iff.mp hj).1
  have hjk : j ≠ p.filed.slot := Nat.ne_of_lt (Nat.lt_of_lt_of_le hlt (length_start_le_slot hr hk))
  rw [← getElem?_fileAll_ctes hr hsub hlt, ← filed_registry_eq] at hj
  rw [honward, Registry.respell_append, Registry.respell_of_ctes fun d hd => (definitions_of_subset hsub d hd).1,
    ← filed_registry_eq]
  exact hkeeps.upper_respell_ne (p.coherent_filed hr) (p.getElem?_filed hr) hj hjk hname

theorem upper_spelling_ne_of_gt (hr : r.Coherent) {p q : Place r ss} {k : Nat} (hp : p.Fills k)
    (hk : p.site.definition.kind = .cte) (h : q.site.statement < p.site.statement) {name : String} {j : Nat}
    (hheld : q.Held name j) : upper (q.spelling name) ≠ upper p.ownName := by
  obtain ⟨ds, es, d, hall, hspelling, hd, hname⟩ := hheld
  obtain ⟨mid, hearlier, hlater⟩ := exists_between h
  have hdef : (q.start.fileAll ds).defines name = true :=
    ((q.coherent_start hr).fileAll ds).defines_iff.mpr ⟨d, List.mem_of_getElem? hd, hname⟩
  have hstart : p.start = (q.start.fileAll ds).fileAll (es ++ mid.map Site.definition) := by
    rw [start, hearlier, List.map_append, List.map_append, hall, Registry.fileAll_append, Registry.fileAll_append,
      Registry.fileAll_append, ← start, Registry.fileAll_append]
  have hrest : q.later.map Site.definition = mid.map Site.definition ++ p.onward := by
    rw [hlater, List.map_append]
    rfl
  rw [hspelling, hrest, ← List.append_assoc, Registry.respell_append, ← hstart]
  refine upper_respell_ne_of_defines hr hp hk ?_
  rw [hstart]
  exact ((q.coherent_start hr).fileAll ds).defines_respell _ hdef

/-- A name that becomes that of a common table expression is read in the statement of that, or it is not bound:
nothing has it, or the slot of a common table expression from an earlier statement. -/
theorem statement_eq_or_free (hr : r.Coherent) {p q : Place r ss} {k : Nat} (hp : p.Fills k)
    (hk : p.site.definition.kind = .cte) {x : String × String} (hx : x ∈ q.site.names)
    (hsame : upper (q.spelling x.2) = upper p.ownName) :
    p.site.statement = q.site.statement ∨ q.site.environment.ctes.filed? x.1 = none ∧
      (q.site.environment.registry.find? x.1 = none ∨ p.site.statement < q.site.statement ∧
        ∃ e, q.site.environment.registry.find? x.1 = some (k, e)) := by
  rcases Nat.lt_trichotomy p.site.statement q.site.statement with hlt | heq | hgt
  · refine .inr ?_
    cases hv : q.site.environment.ctes.filed? x.1 with
    | some v =>
      obtain ⟨j, hj, hheld⟩ := held_of_bound hr hx hv
      have hne : j ≠ k := Nat.ne_of_gt (Nat.lt_of_lt_of_le (Fills.lt_length_start hr hp hlt) hj)
      exact absurd hsame (upper_spelling_ne_of_lt hr hp hlt hheld hne)
    | none =>
      refine ⟨rfl, ?_⟩
      cases hfind : q.site.environment.registry.find? x.1 with
      | none => exact .inl rfl
      | some found =>
        obtain ⟨j, e⟩ := found
        obtain rfl : j = k := by
          by_contra hne
          exact upper_spelling_ne_of_lt hr hp hlt (held_of_find? hr hx hv hfind) hne hsame
        exact .inr ⟨hlt, e, rfl⟩
  · exact .inl heq
  · -- what a name has where it is read is there before any later common table expression
    refine .inr ?_
    cases hv : q.site.environment.ctes.filed? x.1 with
    | some v =>
      obtain ⟨j, -, hheld⟩ := held_of_bound hr hx hv
      exact absurd hsame (upper_spelling_ne_of_gt hr hp hk hgt hheld)
    | none =>
      refine ⟨rfl, .inl ?_⟩
      cases hfind : q.site.environment.registry.find? x.1 with
      | none => rfl
      | some found => exact absurd hsame (upper_spelling_ne_of_gt hr hp hk hgt (held_of_find? hr hx hv hfind))

/-- What the slot of the definition holds behind all sites. -/
theorem Fills.getElem?_fileAll (hr : r.Coherent) {p : Place r ss} {i : Nat} (hp : p.Fills i) :
    (r.fileAll (ss.map Site.definition)).slots[i]? =
      some ((p.site.definition.mapReferenced (p.registry.respellOne p.site.definition)).respelled
        (p.filed.registry.respell (p.after.map Site.definition))) := by
  obtain ⟨rfl, hkeeps⟩ := hp
  have hall : r.fileAll (ss.map Site.definition) = p.filed.registry.fileAll (p.after.map Site.definition) := by
    have hsplit := congrArg (fun ss => r.fileAll (ss.map Site.definition)) p.split_before_after
    refine hsplit.trans ?_
    rw [List.map_append, Registry.fileAll_append]
    rfl
  rw [hall, hkeeps.getElem?_fileAll (p.coherent_filed hr), p.getElem?_filed hr]
  rfl

end Script.Place

/-! ## The sites of a script in its result -/

namespace Script
variable {r : Registry}

/-- A common table expression is filed under a name that is free, or that of another one in the same statement. -/
theorem sparesTables_sites (hr : r.Coherent) (resultName : String) (i : Nat) (texts : List String) :
    r.SparesTables ((sites resultName i r texts).map Site.definition) := by
  refine Registry.sparesTables_of_split ?_
  intro before d after hsplit hd j old hfind
  obtain ⟨before, rest, hsites, rfl, hrest⟩ := List.map_eq_append_iff.mp hsplit
  obtain ⟨s, after, rfl, rfl, rfl⟩ := List.map_eq_cons_iff.mp hrest
  obtain ⟨p, rfl, rfl, rfl⟩ := exists_place hr hsites
  have hfront : p.front ⊆ p.ctes := fun x hx => Place.front_subset_ctes hd (List.mem_append_left _ hx)
  obtain ⟨hslot, hname⟩ := (p.coherent_registry hr).find?_eq_some_iff.mp hfind
  have hold : old ∈ p.registry.slots := List.mem_of_getElem? hslot
  rw [p.registry_eq] at hold
  rcases Registry.mem_fileAll_ctes (fun d hd => (Place.definitions_of_subset hfront d hd).1) hold with hold | hold
  · have hfree := (p.series.cte p.site (Place.front_subset_ctes hd (by simp))).2
    exact absurd hname ((p.coherent_start hr).defines_eq_false_iff.mp hfree old hold)
  · exact hold

/-- Every slot of the result is filled by a site. -/
theorem exists_fills {resultName : String} {texts : List String} {i : Nat} {d : Definition}
    (hd : (Inventory.ofStatements resultName texts).registry.slots[i]? = some d) :
    ∃ p : Place .empty (sites resultName 0 .empty texts), p.Fills i ∧ d.name = p.ownName ∧
      d.kind = p.site.definition.kind ∧ ∀ n, n ∈ d.referenced ↔ ∃ x ∈ p.site.names, p.spelling x.2 = n := by
  have hempty := Registry.coherent_empty
  rw [Inventory.registry_ofStatements, ← map_definition_sites resultName 0] at hd
  -- the first registry is empty, so the slot was filled by some site
  rcases Registry.last_filing i ((sites resultName 0 .empty texts).map Site.definition) with
    hkeeps | ⟨before, e, after, hsplit, hslot, hkeeps⟩
  · rw [hkeeps.getElem?_fileAll hempty] at hd
    simp [Registry.empty] at hd
  · obtain ⟨before, rest, hsites, rfl, hrest⟩ := List.map_eq_append_iff.mp hsplit
    obtain ⟨s, after, rfl, rfl, rfl⟩ := List.map_eq_cons_iff.mp hrest
    obtain ⟨p, rfl, rfl, rfl⟩ := exists_place hempty hsites
    have hfills : p.Fills i := ⟨hslot, hkeeps⟩
    obtain rfl := Option.some.inj ((hfills.getElem?_fileAll hempty).symm.trans hd)
    refine ⟨p, hfills, rfl, rfl, fun n => ?_⟩
    have hfaithful := p.series.faithful p.site p.site_mem
    rw [Definition.referenced_respelled, Definition.referenced_mapReferenced, List.map_map, List.mem_map]
    constructor
    · rintro ⟨m, hm, rfl⟩
      obtain ⟨x, hx, rfl⟩ := (hfaithful.referenced m).mp hm
      exact ⟨x, hx, rfl⟩
    · rintro ⟨x, hx, rfl⟩
      exact ⟨x.2, (hfaithful.referenced x.2).mpr ⟨x, hx, rfl⟩, rfl⟩

/-- A site that fills a slot, told by the definitions in front of it and behind it. -/
theorem exists_fills_of_split {resultName : String} {texts : List String} (b : List (Nat × Definition)) {n : Nat}
    {d : Definition} {a : List (Nat × Definition)}
    (hsites : (sites resultName 0 .empty texts).map (fun s => (s.statement, s.definition)) = b ++ (n, d) :: a) (i : Nat)
    (hslot : ((Registry.empty.fileAll (b.map Prod.snd)).define d).slot = i)
    (hkeeps : ((Registry.empty.fileAll (b.map Prod.snd)).define d).registry.Keeps i (a.map Prod.snd)) :
    ∃ p : Place .empty (sites resultName 0 .empty texts), p.Fills i ∧ p.site.statement = n := by
  obtain ⟨before, rest, hsplit, rfl, hrest⟩ := List.map_eq_append_iff.mp hsites
  obtain ⟨s, after, rfl, hs, rfl⟩ := List.map_eq_cons_iff.mp hrest
  cases hs
  obtain ⟨p, rfl, rfl, rfl⟩ := exists_place Registry.coherent_empty hsplit
  rw [List.map_map] at hslot
  rw [List.map_map, List.map_map] at hkeeps
  exact ⟨p, ⟨hslot, hkeeps⟩, rfl⟩

namespace Place
variable {resultName : String} {texts : List String}

/-- The name of a table or view leads to what stands in its slot in the end. -/
theorem holds_of_find? (hr : r.Coherent) {i : Nat} {p : Place r (sites resultName i r texts)} {x : String × String}
    (hx : x ∈ p.site.names) (hfree : p.site.environment.ctes.filed? x.1 = none) {m : Nat} {X : Definition}
    (hfind : p.site.environment.registry.find? x.1 = some (m, X)) (hX : X.kind ≠ .cte) :
    (r.fileAll ((sites resultName i r texts).map Site.definition)).Holds m (p.spelling x.2) := by
  rw [registry_environment, (p.coherent_registry hr).find?_eq_some_iff] at hfind
  have hname := (p.series.faithful p.site p.site_mem).free x hx hfree
  have hsplit := congrArg (List.map Site.definition) p.split_before_after
  rw [List.map_append] at hsplit
  have hspares := sparesTables_sites hr resultName i texts
  rw [hsplit] at hspares
  rw [hsplit, Registry.fileAll_append]
  exact (p.coherent_registry hr).holds_fileAll hspares.of_append ⟨X, hfind.1, hX, hfind.2.trans hname.symm⟩

/-- How a name of the site is spelled in the result. -/
def finalName (p : Place .empty (sites resultName 0 .empty texts)) (name : String) : String :=
  (Inventory.ofStatements resultName texts).stubbed.canonicalName (p.spelling name)

theorem upper_finalName (p : Place .empty (sites resultName 0 .empty texts)) (name : String) :
    upper (p.finalName name) = upper (p.spelling name) :=
  (Inventory.coherent_stubbed (Inventory.coherent_ofStatements resultName texts)).upper_canonicalName _

end Place
end Script

namespace Inventory

theorem getElem?_definitions {inv : Inventory} (h : inv.registry.Coherent) {i : Nat} {D : Definition}
    (hD : inv.finish.definitions[i]? = some D) (hk : D.kind ≠ .stub) :
    ∃ d, inv.registry.slots[i]? = some d ∧ D = d.mapReferenced inv.stubbed.canonicalName := by
  rw [definitions_finish, slots_inferStubs h, List.getElem?_map] at hD
  obtain ⟨d, hd, rfl⟩ := Option.map_eq_some_iff.mp hD
  rcases Nat.lt_or_ge i inv.registry.slots.length with hlt | hge
  · rw [List.getElem?_append_left hlt] at hd
    exact ⟨d, hd, rfl⟩
  · rw [List.getElem?_append_right hge] at hd
    obtain ⟨name, -, rfl⟩ := List.mem_map.mp (List.mem_of_getElem? hd)
    exact absurd rfl hk

theorem getElem?_definitions_of_slot {inv : Inventory} (h : inv.registry.Coherent) {i : Nat} {d : Definition}
    (hd : inv.registry.slots[i]? = some d) :
    inv.finish.definitions[i]? = some (d.mapReferenced inv.stubbed.canonicalName) := by
  rw [definitions_finish, slots_inferStubs h, List.getElem?_map,
    List.getElem?_append_left (List.getElem?_eq_some_iff.mp hd).1, hd]
  rfl

end Inventory

/-- Where the references of a definition lead. They are the names that it was read with, as the result spells them.

A name that its statement does not bind and that a table or view has leads to what takes the place of that table or
view. A name that leads to a common table expression of another statement is not bound either: nothing has it, or
that common table expression has it, from an earlier statement. -/
theorem Extraction.refers_to_cte {script resultName : String} {l : Nat} {D : Definition}
    (hD : (ofScript script resultName).definitions[l]? = some D) (hk : D.kind ≠ .stub) :
    ∃ d : Script.Place .empty (Script.sites resultName 0 .empty (Script.statements (Comment.strip script))),
      d.Fills l ∧
      (∀ n, n ∈ D.referenced ↔ ∃ x ∈ d.site.names, d.finalName x.2 = n) ∧
      (∀ x ∈ d.site.names, d.site.environment.ctes.filed? x.1 = none → ∀ m X,
        d.site.environment.registry.find? x.1 = some (m, X) → X.kind ≠ .cte →
        ∃ Y, (ofScript script resultName).definitions[m]? = some Y ∧ Y.kind ≠ .cte ∧ d.finalName x.2 = Y.name) ∧
      ∀ k C, (ofScript script resultName).definitions[k]? = some C → C.kind = .cte →
        ∃ c : Script.Place .empty (Script.sites resultName 0 .empty (Script.statements (Comment.strip script))),
          c.Fills k ∧ ∀ x ∈ d.site.names, d.finalName x.2 = C.name →
            c.site.statement = d.site.statement ∨
            d.site.environment.ctes.filed? x.1 = none ∧
              (d.site.environment.registry.find? x.1 = none ∨
                c.site.statement < d.site.statement ∧
                  ∃ X, d.site.environment.registry.find? x.1 = some (k, X) ∧ X.kind = .cte) := by
  have hempty := Registry.coherent_empty
  have hcoh := Inventory.coherent_ofStatements resultName (Script.statements (Comment.strip script))
  obtain ⟨D₀, hD₀, rfl⟩ := Inventory.getElem?_definitions hcoh hD hk
  obtain ⟨d, hfills, -, -, hreferenced⟩ := Script.exists_fills hD₀
  have htables : ∀ x ∈ d.site.names, d.site.environment.ctes.filed? x.1 = none → ∀ m X,
      d.site.environment.registry.find? x.1 = some (m, X) → X.kind ≠ .cte →
      ∃ Y, (ofScript script resultName).definitions[m]? = some Y ∧ Y.kind ≠ .cte ∧ d.finalName x.2 = Y.name := by
    intro x hx hfree m X hfind hX
    obtain ⟨Y, hY, hkind, hname⟩ := d.holds_of_find? hempty hx hfree hfind hX
    rw [Script.map_definition_sites, ← Inventory.registry_ofStatements] at hY
    have hin : Y ∈ (Inventory.ofStatements resultName (Script.statements (Comment.strip script))).stubbed.slots := by
      rw [Inventory.slots_stubbed hcoh]
      exact List.mem_append_left _ (List.mem_of_getElem? hY)
    exact ⟨_, Inventory.getElem?_definitions_of_slot hcoh hY, hkind,
      (Inventory.coherent_stubbed hcoh).canonicalName_of_mem hin hname⟩
  refine ⟨d, hfills, fun n => ?_, htables, fun k C hC hcte => ?_⟩
  · rw [Definition.referenced_mapReferenced, List.mem_map]
    constructor
    · rintro ⟨m, hm, rfl⟩
      obtain ⟨x, hx, rfl⟩ := (hreferenced m).mp hm
      exact ⟨x, hx, rfl⟩
    · rintro ⟨x, hx, rfl⟩
      exact ⟨_, (hreferenced _).mpr ⟨x, hx, rfl⟩, rfl⟩
  · obtain ⟨C₀, hC₀, rfl⟩ := Inventory.getElem?_definitions hcoh hC (by rw [hcte]; rintro ⟨⟩)
    obtain ⟨c, hc, hname, hkind, -⟩ := Script.exists_fills hC₀
    refine ⟨c, hc, fun x hx hleads => ?_⟩
    have hsame : upper (d.spelling x.2) = upper c.ownName := by
      rw [← d.upper_finalName, hleads, Definition.name_mapReferenced, hname]
    have hsite : c.site.definition.kind = .cte := hkind ▸ hcte
    refine (Script.Place.statement_eq_or_free hempty hc hsite hx hsame).imp_right fun ⟨hfree, hfound⟩ => ?_
    refine ⟨hfree, hfound.imp_right fun ⟨hlt, X, hfind⟩ => ⟨hlt, X, hfind, ?_⟩⟩
    by_contra hX
    obtain ⟨Y, hY, hother, -⟩ := htables x hx hfree k X hfind hX
    rw [hC] at hY
    exact hother (Option.some.inj hY ▸ hcte)

theorem Extraction.refers_to_cte_moved :
    let script := "SELECT x FROM a; WITH a AS (SELECT x FROM s) SELECT x FROM a; SELECT x FROM a; CREATE TABLE a (x INT)"
    let D : Definition := ⟨"Query Result 3", .view, [.mapped "x"], [.uses "a 2"], [⟨"a 2", "x", "x", false⟩]⟩
    (ofScript script "Query Result").definitions[3]? = some D ∧ D.kind ≠ .stub ∧
    ∃ d : Script.Place .empty (Script.sites "Query Result" 0 .empty (Script.statements (Comment.strip script))),
      d.Fills 3 ∧
      (∀ n, n ∈ D.referenced ↔ ∃ x ∈ d.site.names, d.finalName x.2 = n) ∧
      (∀ x ∈ d.site.names, d.site.environment.ctes.filed? x.1 = none → ∀ m X,
        d.site.environment.registry.find? x.1 = some (m, X) → X.kind ≠ .cte →
        ∃ Y, (ofScript script "Query Result").definitions[m]? = some Y ∧ Y.kind ≠ .cte ∧ d.finalName x.2 = Y.name) ∧
      ∀ k C, (ofScript script "Query Result").definitions[k]? = some C → C.kind = .cte →
        ∃ c : Script.Place .empty (Script.sites "Query Result" 0 .empty (Script.statements (Comment.strip script))),
          c.Fills k ∧ ∀ x ∈ d.site.names, d.finalName x.2 = C.name →
            c.site.statement = d.site.statement ∨
            d.site.environment.ctes.filed? x.1 = none ∧
              (d.site.environment.registry.find? x.1 = none ∨
                c.site.statement < d.site.statement ∧
                  ∃ X, d.site.environment.registry.find? x.1 = some (k, X) ∧ X.kind = .cte) := by
  intro script D
  have hD : (ofScript script "Query Result").definitions[3]? = some D := by decide +kernel
  have hk : D.kind ≠ .stub := by decide
  exact ⟨hD, hk, refers_to_cte hD hk⟩

/-- The common table expression `a` of the second statement takes the name that the first one reads, and the third
statement reads it as well. Both follow it when the table `a` is created. -/
theorem Extraction.refers_to_other_statement :
    let script := "SELECT x FROM a; WITH a AS (SELECT x FROM s) SELECT x FROM a; SELECT x FROM a; CREATE TABLE a (x INT)"
    let C : Definition := ⟨"a 2", .cte, [.mapped "x"], [.uses "s"], [⟨"s", "x", "x", false⟩]⟩
    let reader (name : String) : Definition := ⟨name, .view, [.mapped "x"], [.uses C.name], [⟨C.name, "x", "x", false⟩]⟩
    (ofScript script "Query Result").definitions.take 4 =
      [reader "Query Result", C, reader "Query Result 2", reader "Query Result 3"] ∧
    ∃ d c d' : Script.Place .empty (Script.sites "Query Result" 0 .empty (Script.statements (Comment.strip script))),
      d.Fills 0 ∧ c.Fills 1 ∧ d'.Fills 3 ∧
      d.site.statement < c.site.statement ∧ c.site.statement < d'.site.statement := by
  intro script C reader
  have hsites : (Script.sites "Query Result" 0 .empty (Script.statements (Comment.strip script))).map
      (fun s => (s.statement, s.definition)) =
        [(0, ⟨"Query Result", .view, [.mapped "x"], [.uses "a"], [⟨"a", "x", "x", false⟩]⟩),
          (1, ⟨"a", .cte, [.mapped "x"], [.uses "s"], [⟨"s", "x", "x", false⟩]⟩),
          (1, ⟨"Query Result 2", .view, [.mapped "x"], [.uses "a"], [⟨"a", "x", "x", false⟩]⟩),
          (2, ⟨"Query Result 3", .view, [.mapped "x"], [.uses "a"], [⟨"a", "x", "x", false⟩]⟩),
          (3, ⟨"a", .table, [⟨"x", "INT", false, false, false, false, false⟩], [], []⟩)] := by
    decide +kernel
  obtain ⟨d, hd, hds⟩ := Script.exists_fills_of_split [] hsites 0 (by decide +kernel) (by decide +kernel)
  obtain ⟨c, hc, hcs⟩ := Script.exists_fills_of_split [_] hsites 1 (by decide +kernel) (by decide +kernel)
  obtain ⟨d', hd', hds'⟩ := Script.exists_fills_of_split [_, _, _] hsites 3 (by decide +kernel) (by decide +kernel)
  exact ⟨by decide +kernel, d, c, d', hd, hc, hd', by omega, by omega⟩

end SqlLineage
