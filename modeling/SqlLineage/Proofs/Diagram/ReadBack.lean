import Mathlib.Data.List.Nodup
import SqlLineage.Diagram

/-! # Reading a diagram back

A diagram loses nothing of what definitions say about each other, apart from the mere use of tables by a definition
that has lineage. The three families of edges are told apart by their kind and by dashes, and one end of every edge
is the definition that it was drawn for.

* `Edge.toRecord`, `Edge.toKey`, `Edge.toUse`: what an edge of each family says.
* `Diagram.lineageInto`, `Diagram.keysFrom`, `Diagram.usesInto`: the edges of one definition.
* `Diagram.readBack_ofExtraction`: nodes are the definitions, and the edges of a definition are its lineage and its
  references, in order. -/

namespace SqlLineage
set_option autoImplicit false

/-! ## Single edges -/

namespace Edge

/-- The definition that an edge was drawn for: a foreign key leads away from it, and any other edge into it. -/
def owner (e : Edge) : String :=
  match e.meaning with
  | .foreignKey => e.source
  | .lineage _ | .uses => e.target

def toRecord (e : Edge) : LineageRecord :=
  ⟨e.source, e.sourceColumn.getD "", e.targetColumn.getD "", e.isCalculated⟩

/-- The foreign key of an edge; a column that is absent is empty. -/
def toKey (e : Edge) : Reference :=
  ⟨e.sourceColumn.getD "", e.target, e.targetColumn.getD ""⟩

def toUse (e : Edge) : Reference := .uses e.source

section Edges
variable (d : Definition) (i : Nat)

theorem toRecord_ofLineage (source : Option Definition.Kind) (r : LineageRecord) :
    (ofLineage source d i r).toRecord = r := by
  obtain ⟨table, column, target, calculated⟩ := r
  cases calculated <;> rfl

theorem getD_named? (column : String) : (named? column).getD "" = column := by
  unfold named?
  split
  · next h => exact (String.isEmpty_iff.mp h).symm
  · rfl

theorem toKey_ofKey (r : Reference) : (ofKey d i r).toKey = r := by
  rw [toKey, ofKey]
  dsimp only
  rw [getD_named?, getD_named?]

theorem toUse_ofUse {r : Reference} (h : r.isStructural = true) : (ofUse d r).toUse = r := by
  obtain ⟨localColumn, table, column⟩ := r
  obtain ⟨hlocal, hcolumn⟩ := Bool.and_eq_true_iff.mp h
  obtain rfl : localColumn = "" := String.isEmpty_iff.mp hlocal
  obtain rfl : column = "" := String.isEmpty_iff.mp hcolumn
  rfl

variable {d i}

/-- A reference is drawn as a key if it names a column, as a use if its owner has no lineage, or not at all. -/
theorem ofReference?_cases (r : Reference) :
    (r.isStructural = false ∧ ofReference? d i r = some (ofKey d i r)) ∨
    (r.isStructural = true ∧ d.lineage = [] ∧ ofReference? d i r = some (ofUse d r)) ∨
    (r.isStructural = true ∧ d.lineage ≠ [] ∧ ofReference? d i r = none) := by
  unfold ofReference?
  cases r.isStructural with
  | false => exact .inl ⟨rfl, rfl⟩
  | true =>
    cases d.lineage with
    | nil => exact .inr (.inl ⟨rfl, rfl, rfl⟩)
    | cons l ls => exact .inr (.inr ⟨rfl, List.cons_ne_nil l ls, rfl⟩)

theorem owner_of_mem_ofDefinition {kinds : OrderedMap String Definition.Kind} {e : Edge}
    (h : e ∈ ofDefinition kinds d) : e.owner = d.name := by
  rcases List.mem_append.mp h with h | h
  · obtain ⟨p, -, rfl⟩ := List.mem_map.mp h
    rfl
  · obtain ⟨p, -, hp⟩ := List.mem_filterMap.mp h
    rcases @ofReference?_cases d p.2 p.1 with ⟨-, hr⟩ | ⟨-, -, hr⟩ | ⟨-, -, hr⟩
    · obtain rfl := Option.some.inj (hr.symm.trans hp)
      rfl
    · obtain rfl := Option.some.inj (hr.symm.trans hp)
      rfl
    · rw [hr] at hp
      cases hp

end Edges

/-! ## The edges of one definition -/

def lineageTo (name : String) (e : Edge) : Bool :=
  e.kind == .lineage && e.target == name

def keyOf (name : String) (e : Edge) : Bool :=
  e.kind == .structural && !e.isDashed && e.source == name

def useBy (name : String) (e : Edge) : Bool :=
  e.kind == .structural && e.isDashed && e.target == name

/-- Each family names the owner of its edges, and every edge is in a family of its owner. -/
theorem owner_eq_iff {e : Edge} {name : String} :
    e.owner = name ↔ lineageTo name e = true ∨ keyOf name e = true ∨ useBy name e = true := by
  unfold owner lineageTo keyOf useBy kind isDashed
  cases e.meaning <;> simp

section Families
variable (kinds : OrderedMap String Definition.Kind) (d : Definition)

/-- The edges of the references that stand from the place `k` on. By induction on the references, whose places count
upwards. -/
theorem filter_ofReference? (rs : List Reference) (k : Nat) :
    let es := (rs.zipIdx k).filterMap fun r => ofReference? d r.2 r.1
    es.filter (lineageTo d.name) = [] ∧
    (es.filter (keyOf d.name)).map toKey = rs.filter (!·.isStructural) ∧
    (es.filter (useBy d.name)).map toUse = if d.lineage = [] then rs.filter (·.isStructural) else [] := by
  induction rs generalizing k with
  | nil => simp
  | cons r rs ih =>
    obtain ⟨hlineage, hkeys, huses⟩ := ih (k + 1)
    rcases @ofReference?_cases d k r with ⟨hs, hr⟩ | ⟨hs, hnone, hr⟩ | ⟨hs, hsome, hr⟩
    · have hfamilies : lineageTo d.name (ofKey d k r) = false ∧ keyOf d.name (ofKey d k r) = true ∧
          useBy d.name (ofKey d k r) = false := by
        simp [lineageTo, keyOf, useBy, kind, isDashed, ofKey]
      simp only [List.zipIdx_cons, List.filterMap_cons, hr, List.filter_cons, hfamilies, hs, Bool.not_false,
        Bool.false_eq_true, ↓reduceIte, List.map_cons, toKey_ofKey]
      exact ⟨hlineage, congrArg (r :: ·) hkeys, huses⟩
    · have hfamilies : lineageTo d.name (ofUse d r) = false ∧ keyOf d.name (ofUse d r) = false ∧
          useBy d.name (ofUse d r) = true := by
        simp [lineageTo, keyOf, useBy, kind, isDashed, ofUse]
      rw [if_pos hnone] at huses ⊢
      simp only [List.zipIdx_cons, List.filterMap_cons, hr, List.filter_cons, hfamilies, hs, Bool.not_true,
        Bool.false_eq_true, ↓reduceIte, List.map_cons, toUse_ofUse d hs]
      exact ⟨hlineage, hkeys, congrArg (r :: ·) huses⟩
    · rw [if_neg hsome] at huses ⊢
      simp only [List.zipIdx_cons, List.filterMap_cons, hr, List.filter_cons, hs, Bool.not_true, Bool.false_eq_true,
        ↓reduceIte]
      exact ⟨hlineage, hkeys, huses⟩

theorem filter_ofDefinition :
    ((ofDefinition kinds d).filter (lineageTo d.name)).map toRecord = d.lineage ∧
    ((ofDefinition kinds d).filter (keyOf d.name)).map toKey = d.references.filter (!·.isStructural) ∧
    ((ofDefinition kinds d).filter (useBy d.name)).map toUse =
      if d.lineage = [] then d.references.filter (·.isStructural) else [] := by
  obtain ⟨hlineage, hkeys, huses⟩ := filter_ofReference? d d.references 0
  have hfamilies : ∀ e ∈ d.lineage.zipIdx.map (fun r => ofLineage (kinds.find? r.1.sourceTable) d r.2 r.1),
      lineageTo d.name e = true ∧ keyOf d.name e = false ∧ useBy d.name e = false := by
    intro e he
    obtain ⟨p, -, rfl⟩ := List.mem_map.mp he
    simp [lineageTo, keyOf, useBy, kind, ofLineage]
  refine ⟨?_, ?_, ?_⟩
  · rw [ofDefinition, List.filter_append, hlineage, List.append_nil,
      List.filter_eq_self.mpr fun e he => (hfamilies e he).1, List.map_map]
    have hrecords : toRecord ∘ (fun r => ofLineage (kinds.find? r.1.sourceTable) d r.2 r.1) = Prod.fst :=
      funext fun r => toRecord_ofLineage d r.2 _ r.1
    rw [hrecords, List.zipIdx_map_fst]
  · rw [ofDefinition, List.filter_append, List.filter_eq_nil_iff.mpr fun e he => by simp [(hfamilies e he).2.1],
      List.nil_append]
    exact hkeys
  · rw [ofDefinition, List.filter_append, List.filter_eq_nil_iff.mpr fun e he => by simp [(hfamilies e he).2.2],
      List.nil_append]
    exact huses

end Families
end Edge

/-! ## Diagrams -/

namespace Diagram

/-- The lineage edges that lead into a node. -/
def lineageInto (g : Diagram) (name : String) : List Edge :=
  g.edges.filter (Edge.lineageTo name)

/-- The undashed structural edges that lead away from a node. -/
def keysFrom (g : Diagram) (name : String) : List Edge :=
  g.edges.filter (Edge.keyOf name)

/-- The dashed structural edges that lead into a node. -/
def usesInto (g : Diagram) (name : String) : List Edge :=
  g.edges.filter (Edge.useBy name)

/-- What is only true of edges of one definition picks them out of the edges of all. -/
theorem filter_flatMap {kinds : OrderedMap String Definition.Kind} {ds : List Definition}
    (h : (ds.map Definition.name).Nodup) {d : Definition} (hd : d ∈ ds) {q : Edge → Bool}
    (hq : ∀ x, q x = true → x.owner = d.name) :
    (ds.flatMap (Edge.ofDefinition kinds)).filter q = (Edge.ofDefinition kinds d).filter q := by
  have hothers : ∀ others : List Definition, d.name ∉ others.map Definition.name →
      (others.flatMap (Edge.ofDefinition kinds)).filter q = [] := by
    intro others hname
    refine List.filter_eq_nil_iff.mpr fun x hx hqx => hname ?_
    obtain ⟨d', hd', hx⟩ := List.mem_flatMap.mp hx
    rw [← hq x hqx, Edge.owner_of_mem_ofDefinition hx]
    exact List.mem_map_of_mem hd'
  obtain ⟨before, after, rfl⟩ := List.append_of_mem hd
  rw [List.map_append, List.map_cons, List.nodup_middle, List.nodup_cons, List.mem_append, not_or] at h
  rw [List.flatMap_append, List.flatMap_cons, List.filter_append, List.filter_append, hothers before h.1.1,
    hothers after h.1.2, List.nil_append, List.append_nil]

/-- A diagram of definitions with distinct names is read back: its nodes are the definitions with their kinds and
columns, the edges of a definition are its lineage, its foreign keys and, if it has no lineage, the tables that it
uses, all of them in order, and there are no other edges. -/
theorem readBack_ofExtraction (layout : Layout) {e : Extraction} (h : (e.definitions.map Definition.name).Nodup) :
    let g := ofExtraction layout e
    (g.nodes.map fun n => (n.id, n.kind, n.columns)) = (e.definitions.map fun d => (d.name, d.kind, d.columns)) ∧
    (∀ d ∈ e.definitions,
      (g.lineageInto d.name).map Edge.toRecord = d.lineage ∧
      (g.keysFrom d.name).map Edge.toKey = d.references.filter (!·.isStructural) ∧
      (g.usesInto d.name).map Edge.toUse =
        if d.lineage = [] then d.references.filter (·.isStructural) else []) ∧
    ∀ x ∈ g.edges, ∃ d ∈ e.definitions,
      x ∈ g.lineageInto d.name ∨ x ∈ g.keysFrom d.name ∨ x ∈ g.usesInto d.name := by
  intro g
  refine ⟨?_, fun d hd => ?_, fun x hx => ?_⟩
  · show (e.definitions.map (Node.ofDefinition layout)).map _ = _
    rw [List.map_map]
    rfl
  · have hedges := Edge.filter_ofDefinition (kindsOf e.definitions) d
    have hg : g.edges = e.definitions.flatMap (Edge.ofDefinition (kindsOf e.definitions)) := rfl
    rw [lineageInto, keysFrom, usesInto, hg, filter_flatMap h hd fun x hx => Edge.owner_eq_iff.mpr (.inl hx),
      filter_flatMap h hd fun x hx => Edge.owner_eq_iff.mpr (.inr (.inl hx)),
      filter_flatMap h hd fun x hx => Edge.owner_eq_iff.mpr (.inr (.inr hx))]
    exact hedges
  · obtain ⟨d, hd, hxd⟩ := List.mem_flatMap.mp hx
    refine ⟨d, hd, ?_⟩
    rcases Edge.owner_eq_iff.mp (Edge.owner_of_mem_ofDefinition hxd) with hf | hf | hf
    · exact .inl (List.mem_filter.mpr ⟨hx, hf⟩)
    · exact .inr (.inl (List.mem_filter.mpr ⟨hx, hf⟩))
    · exact .inr (.inr (List.mem_filter.mpr ⟨hx, hf⟩))

/-- A table with a key to itself and a use of itself beside its lineage, and a view that uses one table twice. -/
theorem readBack_ofExtraction_selfReference :
    let t : Definition := ⟨"t", .table, [.mapped "a"], [⟨"a", "t", ""⟩, .uses "t"], [⟨"t", "", "a", true⟩]⟩
    let v : Definition := ⟨"v", .view, [], [.uses "t", ⟨"", "t", "a"⟩, .uses "t"], []⟩
    let e : Extraction := ⟨[t, v], .empty, []⟩
    let g := ofExtraction .standard e
    (e.definitions.map Definition.name).Nodup ∧
      (g.lineageInto "t").map Edge.toRecord = [⟨"t", "", "a", true⟩] ∧
      (g.keysFrom "t").map Edge.toKey = [⟨"a", "t", ""⟩] ∧ (g.usesInto "t").map Edge.toUse = [] ∧
      (g.keysFrom "v").map Edge.toKey = [⟨"", "t", "a"⟩] ∧
      (g.usesInto "v").map Edge.toUse = [.uses "t", .uses "t"] := by
  intro t v e g
  have h : (e.definitions.map Definition.name).Nodup := by decide
  obtain ⟨-, hedges, -⟩ := readBack_ofExtraction .standard h
  obtain ⟨hlineage, hkeys, huses⟩ := hedges t (by simp [e])
  obtain ⟨-, hkeys', huses'⟩ := hedges v (by simp [e])
  exact ⟨h, hlineage, hkeys, huses, hkeys', huses'⟩

end Diagram
end SqlLineage
