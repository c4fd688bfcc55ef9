import SqlLineage.Proofs.Diagram.WellFormed

/-! # Identifiers of edges

An edge is identified by the names that it joins, with hyphens and dots between them, and by its place among the
lineage records or references of its owner. The names are not escaped, so identifiers of different edges can be
spelled alike.

* `Edge.DrawnFor`: the three families of edges. Two edges of one definition differ in their kind or their place.
* `Definition.Separable`: names that can be told apart in an identifier.
* `Diagram.pairwise_id`: which edges of a diagram can share an identifier, and that under separable names only two
  uses of one table by one definition do.
* `Diagram.shared_ids`: without any of the conditions on names, edges share one. -/

namespace SqlLineage
open SqlLineage.Text
set_option autoImplicit false

/-! ## Cutting at a separator -/

namespace Text

theorem cut_first {α : Type} {c : α} {a a' b b' : List α} (ha : c ∉ a) (ha' : c ∉ a')
    (h : a ++ c :: b = a' ++ c :: b') : a = a' ∧ b = b' := by
  induction a generalizing a' with
  | nil =>
    cases a' with
    | nil => exact ⟨rfl, (List.cons.inj h).2⟩
    | cons x a' => exact absurd (List.mem_cons.mpr (.inl (List.cons.inj h).1)) ha'
  | cons x a ih =>
    cases a' with
    | nil => exact absurd (List.mem_cons.mpr (.inl (List.cons.inj h).1.symm)) ha
    | cons x' a' =>
      rw [List.mem_cons, not_or] at ha ha'
      obtain ⟨rfl, hrest⟩ := List.cons.inj h
      obtain ⟨rfl, hb⟩ := ih ha.2 ha'.2 hrest
      exact ⟨rfl, hb⟩

theorem cut_last {α : Type} {c : α} {a a' b b' : List α} (hb : c ∉ b) (hb' : c ∉ b')
    (h : a ++ c :: b = a' ++ c :: b') : a = a' ∧ b = b' := by
  have hr : b.reverse ++ c :: a.reverse = b'.reverse ++ c :: a'.reverse := by
    simpa using congrArg List.reverse h
  obtain ⟨hbb, haa⟩ := cut_first (by simpa using hb) (by simpa using hb') hr
  exact ⟨List.reverse_inj.mp haa, List.reverse_inj.mp hbb⟩

theorem hyphen_not_mem_toString (n : Nat) : '-' ∉ (toString n).toList := by
  show '-' ∉ n.repr.toList
  rw [Nat.toList_repr]
  intro h
  have := Nat.isDigit_of_mem_toDigits (by decide) (by decide) h
  exact absurd this (by decide)

theorem toString_inj {m n : Nat} (h : (toString m).toList = (toString n).toList) : m = n :=
  repr_inj (String.toList_inj.mp h)

end Text

/-! ## The families of edges -/

namespace Edge

/-- `e` is an edge of `d`, for the lineage record or the reference in place `i`. -/
inductive DrawnFor (d : Definition) : Nat → Edge → Prop where
  | lineage (source : Option Definition.Kind) (i : Nat) (r : LineageRecord) (hr : r ∈ d.lineage) :
      DrawnFor d i (ofLineage source d i r)
  | key (i : Nat) (r : Reference) (hr : r ∈ d.references) : DrawnFor d i (ofKey d i r)
  | use (i : Nat) (r : Reference) (hr : r ∈ d.references) : DrawnFor d i (ofUse d r)

theorem drawnFor_of_ofReference? {d : Definition} {i : Nat} {r : Reference} {e : Edge} (hr : r ∈ d.references)
    (h : ofReference? d i r = some e) : DrawnFor d i e ∧ e.kind = .structural := by
  unfold ofReference? at h
  split at h
  · obtain rfl := Option.some.inj h
    exact ⟨.key i r hr, rfl⟩
  · split at h
    · obtain rfl := Option.some.inj h
      exact ⟨.use i r hr, rfl⟩
    · cases h

theorem DrawnFor.exists_of_mem {kinds : OrderedMap String Definition.Kind} {d : Definition} {e : Edge}
    (h : e ∈ ofDefinition kinds d) : ∃ i, DrawnFor d i e := by
  rcases List.mem_append.mp h with h | h
  · obtain ⟨p, hp, rfl⟩ := List.mem_map.mp h
    exact ⟨p.2, .lineage _ p.2 p.1 (List.fst_mem_of_mem_zipIdx hp)⟩
  · obtain ⟨p, hp, he⟩ := List.mem_filterMap.mp h
    exact ⟨p.2, (drawnFor_of_ofReference? (List.fst_mem_of_mem_zipIdx hp) he).1⟩

theorem DrawnFor.referenced_ne_nil {d : Definition} {i : Nat} {e : Edge} (h : DrawnFor d i e) :
    d.referenced ≠ [] := by
  cases h with
  | lineage source i r hr => exact List.ne_nil_of_mem (List.mem_append_right _ (List.mem_map_of_mem hr))
  | key i r hr => exact List.ne_nil_of_mem (List.mem_append_left _ (List.mem_map_of_mem hr))
  | use i r hr => exact List.ne_nil_of_mem (List.mem_append_left _ (List.mem_map_of_mem hr))

theorem pairwise_zipIdx {α : Type} (l : List α) :
    l.zipIdx.Pairwise fun p q => p ∈ l.zipIdx ∧ q ∈ l.zipIdx ∧ p.2 ≠ q.2 := by
  have h : (l.zipIdx.map Prod.snd).Pairwise (· ≠ ·) := by
    rw [List.zipIdx_map_snd]
    exact List.nodup_range'
  rw [List.pairwise_map] at h
  exact List.Pairwise.and_mem.mp h |>.imp fun h => h

/-- Two edges of one definition are of different kinds or drawn for different places. -/
theorem pairwise_ofDefinition (kinds : OrderedMap String Definition.Kind) (d : Definition) :
    (ofDefinition kinds d).Pairwise fun e e' =>
      ∃ i j, DrawnFor d i e ∧ DrawnFor d j e' ∧ (e.kind = e'.kind → i ≠ j) := by
  refine List.pairwise_append.mpr ⟨?_, ?_, ?_⟩
  · rw [List.pairwise_map]
    refine (pairwise_zipIdx d.lineage).imp fun {p q} h => ?_
    exact ⟨p.2, q.2, .lineage _ _ _ (List.fst_mem_of_mem_zipIdx h.1), .lineage _ _ _ (List.fst_mem_of_mem_zipIdx h.2.1),
      fun _ => h.2.2⟩
  · rw [List.pairwise_filterMap]
    refine (pairwise_zipIdx d.references).imp fun {p q} h e he e' he' => ?_
    exact ⟨p.2, q.2, (drawnFor_of_ofReference? (List.fst_mem_of_mem_zipIdx h.1) he).1,
      (drawnFor_of_ofReference? (List.fst_mem_of_mem_zipIdx h.2.1) he').1, fun _ => h.2.2⟩
  · intro e he e' he'
    obtain ⟨p, hp, rfl⟩ := List.mem_map.mp he
    obtain ⟨q, hq, he'⟩ := List.mem_filterMap.mp he'
    obtain ⟨hdrawn, hkind⟩ := drawnFor_of_ofReference? (List.fst_mem_of_mem_zipIdx hq) he'
    refine ⟨p.2, q.2, .lineage _ _ _ (List.fst_mem_of_mem_zipIdx hp), hdrawn, fun h => ?_⟩
    rw [hkind] at h
    cases h

/-! ## The signs of an identifier -/

theorem toList_id_ofLineage (source : Option Definition.Kind) (d : Definition) (i : Nat) (r : LineageRecord) :
    (ofLineage source d i r).id.toList = 'e' :: '-' :: ((['l', 'i', 'n'] ++ '-' ::
      ((r.sourceTable.toList ++ '.' :: r.sourceColumn.toList) ++ '-' ::
        (d.name.toList ++ '.' :: r.targetColumn.toList))) ++ '-' :: (toString i).toList) := by
  show ("e-lin-" ++ r.sourceTable ++ "." ++ r.sourceColumn ++ "-" ++ d.name ++ "." ++ r.targetColumn ++ "-" ++
    toString i).toList = _
  simp

theorem toList_id_ofUse (d : Definition) (r : Reference) :
    (ofUse d r).id.toList =
      'e' :: '-' :: (['s', 't', 'r', 'u', 'c'] ++ '-' :: (r.table.toList ++ '-' :: d.name.toList)) := by
  simp [ofUse]

theorem toList_id_ofKey (d : Definition) (i : Nat) (r : Reference) :
    (ofKey d i r).id.toList =
      'e' :: '-' :: ((d.name.toList ++ '-' :: r.table.toList) ++ '-' :: (toString i).toList) := by
  simp [ofKey]

section Identifiers
variable {d d' : Definition} {i j : Nat}

theorem id_ofLineage_ne_ofUse (source : Option Definition.Kind) (r : LineageRecord) (r' : Reference) :
    (ofLineage source d i r).id ≠ (ofUse d' r').id := by
  intro h
  rw [← String.toList_inj, toList_id_ofLineage, toList_id_ofUse] at h
  -- the third sign is the first one of `lin` and of `struc`
  have hsign : some 'l' = some 's' := congrArg (fun l => l[2]?) h
  cases hsign

theorem of_id_ofLineage_eq {source source' : Option Definition.Kind} {r r' : LineageRecord}
    (h : (ofLineage source d i r).id = (ofLineage source' d' j r').id) :
    i = j ∧ (r.sourceTable.toList ++ '.' :: r.sourceColumn.toList) ++ '-' ::
        (d.name.toList ++ '.' :: r.targetColumn.toList) =
      (r'.sourceTable.toList ++ '.' :: r'.sourceColumn.toList) ++ '-' ::
        (d'.name.toList ++ '.' :: r'.targetColumn.toList) := by
  rw [← String.toList_inj, toList_id_ofLineage, toList_id_ofLineage] at h
  obtain ⟨hnames, hi⟩ := cut_last (hyphen_not_mem_toString i) (hyphen_not_mem_toString j)
    (List.cons.inj (List.cons.inj h).2).2
  exact ⟨toString_inj hi, (List.cons.inj (List.append_cancel_left hnames)).2⟩

theorem of_id_ofKey_eq {r r' : Reference} (h : (ofKey d i r).id = (ofKey d' j r').id) :
    i = j ∧ d.name.toList ++ '-' :: r.table.toList = d'.name.toList ++ '-' :: r'.table.toList := by
  rw [← String.toList_inj, toList_id_ofKey, toList_id_ofKey] at h
  obtain ⟨hnames, hi⟩ := cut_last (hyphen_not_mem_toString i) (hyphen_not_mem_toString j)
    (List.cons.inj (List.cons.inj h).2).2
  exact ⟨toString_inj hi, hnames⟩

theorem of_id_ofUse_eq {r r' : Reference} (h : (ofUse d r).id = (ofUse d' r').id) :
    r.table.toList ++ '-' :: d.name.toList = r'.table.toList ++ '-' :: d'.name.toList := by
  rw [← String.toList_inj, toList_id_ofUse, toList_id_ofUse] at h
  exact (List.cons.inj (List.append_cancel_left (List.cons.inj (List.cons.inj h).2).2)).2

end Identifiers

/-! ## What identifiers say by themselves -/

/-- No use is taken for lineage, and of one family and one owner only uses of one table can be taken for each
other. -/
def Tellable (e e' : Edge) : Prop :=
  (e.kind = .lineage → e'.meaning ≠ .uses ∧ (e'.kind = .lineage → e.target ≠ e'.target)) ∧
  (e.meaning = .uses → e'.kind ≠ .lineage ∧ (e'.meaning = .uses → e.target = e'.target → e.source = e'.source)) ∧
  (e.meaning = .foreignKey → e'.meaning = .foreignKey → e.source ≠ e'.source)

theorem DrawnFor.tellable {d d' : Definition} {i j : Nat} {e e' : Edge} (h : DrawnFor d i e) (h' : DrawnFor d' j e')
    (hne : d.name = d'.name → e.kind = e'.kind → i ≠ j) (hid : e.id = e'.id) : Tellable e e' := by
  cases h with
  | lineage source i r hr =>
    refine ⟨fun _ => ?_, fun hm => (by cases hm), fun hm => (by cases hm)⟩
    cases h' with
    | lineage source' j r' hr' =>
      refine ⟨fun hm => (by cases hm), fun _ hname => ?_⟩
      exact hne hname rfl (of_id_ofLineage_eq hid).1
    | key j r' hr' => exact ⟨fun hm => (by cases hm), fun hk => (by cases hk)⟩
    | use j r' hr' => exact absurd hid (id_ofLineage_ne_ofUse source r r')
  | key i r hr =>
    refine ⟨fun hk => (by cases hk), fun hm => (by cases hm), fun _ hm hname => ?_⟩
    cases h' with
    | lineage source' j r' hr' => cases hm
    | key j r' hr' => exact hne hname rfl (of_id_ofKey_eq hid).1
    | use j r' hr' => cases hm
  | use i r hr =>
    refine ⟨fun hk => (by cases hk), fun _ => ?_, fun hm => (by cases hm)⟩
    cases h' with
    | lineage source' j r' hr' => exact absurd hid.symm (id_ofLineage_ne_ofUse source' r' r)
    | key j r' hr' => exact ⟨fun hk => (by cases hk), fun hm => (by cases hm)⟩
    | use j r' hr' =>
      refine ⟨fun hk => (by cases hk), fun _ hname => ?_⟩
      have hname : d.name = d'.name := hname
      have hends := of_id_ofUse_eq hid
      rw [hname] at hends
      exact String.toList_inj.mp (List.append_cancel_right hends)

end Edge

/-! ## Separable names -/

/-- The names that the definitions and their lineage bring into identifiers can be told apart there. -/
structure Definition.Separable (ds : List Definition) : Prop where
  hyphen : ∀ d ∈ ds, '-' ∉ d.name.toList ∧ ∀ r ∈ d.lineage, '-' ∉ r.targetColumn.toList
  dot : (∀ d ∈ ds, '.' ∉ d.name.toList) ∨ ∀ d ∈ ds, ∀ r ∈ d.lineage, '.' ∉ r.targetColumn.toList
  lin : ∀ d ∈ ds, d.name = "lin" → ∀ r ∈ d.references, '-' ∉ r.table.toList
  struc : (∀ d ∈ ds, d.name ≠ "struc") ∨ ∀ d ∈ ds, ∀ n : Nat, d.name ≠ toString n

namespace Definition.Separable
open Edge
variable {ds : List Definition} {d d' : Definition} {i j : Nat}

theorem name_eq_of_id_ofLineage (h : Separable ds) (hd : d ∈ ds) (hd' : d' ∈ ds)
    {source source' : Option Definition.Kind} {r r' : LineageRecord} (hr : r ∈ d.lineage) (hr' : r' ∈ d'.lineage)
    (hid : (ofLineage source d i r).id = (ofLineage source' d' j r').id) : d.name = d'.name := by
  have hfree : ∀ (e : Definition) (s : LineageRecord), e ∈ ds → s ∈ e.lineage →
      '-' ∉ e.name.toList ++ '.' :: s.targetColumn.toList := by
    intro e s he hs
    simp [(h.hyphen e he).1, (h.hyphen e he).2 s hs]
  have htarget := (cut_last (hfree d r hd hr) (hfree d' r' hd' hr') (of_id_ofLineage_eq hid).2).2
  rcases h.dot with hname | hcolumn
  · exact String.toList_inj.mp (cut_first (hname d hd) (hname d' hd') htarget).1
  · exact String.toList_inj.mp (cut_last (hcolumn d hd r hr) (hcolumn d' hd' r' hr') htarget).1

theorem name_eq_of_id_ofKey (h : Separable ds) (hd : d ∈ ds) (hd' : d' ∈ ds) {r r' : Reference}
    (hid : (ofKey d i r).id = (ofKey d' j r').id) : d.name = d'.name :=
  String.toList_inj.mp (cut_first (h.hyphen d hd).1 (h.hyphen d' hd').1 (of_id_ofKey_eq hid).2).1

theorem ends_eq_of_id_ofUse (h : Separable ds) (hd : d ∈ ds) (hd' : d' ∈ ds) {r r' : Reference}
    (hid : (ofUse d r).id = (ofUse d' r').id) : r.table = r'.table ∧ d.name = d'.name := by
  obtain ⟨ht, hn⟩ := cut_last (h.hyphen d hd).1 (h.hyphen d' hd').1 (of_id_ofUse_eq hid)
  exact ⟨String.toList_inj.mp ht, String.toList_inj.mp hn⟩

theorem id_ofKey_ne_ofLineage (h : Separable ds) (hd : d ∈ ds) {r : Reference} (hr : r ∈ d.references)
    (source : Option Definition.Kind) (r' : LineageRecord) : (ofKey d i r).id ≠ (ofLineage source d' j r').id := by
  intro hid
  rw [← String.toList_inj, toList_id_ofKey, toList_id_ofLineage] at hid
  obtain ⟨hnames, -⟩ := cut_last (hyphen_not_mem_toString i) (hyphen_not_mem_toString j)
    (List.cons.inj (List.cons.inj hid).2).2
  obtain ⟨hlin, htable⟩ := cut_first (h.hyphen d hd).1 (by decide) hnames
  refine h.lin d hd (String.toList_inj.mp hlin) r hr ?_
  rw [htable]
  exact List.mem_append_right _ (List.mem_cons_self ..)

theorem id_ofKey_ne_ofUse (h : Separable ds) (hd : d ∈ ds) (hd' : d' ∈ ds) (r r' : Reference) :
    (ofKey d i r).id ≠ (ofUse d' r').id := by
  intro hid
  rw [← String.toList_inj, toList_id_ofKey, toList_id_ofUse, List.append_assoc] at hid
  obtain ⟨hstruc, hrest⟩ := cut_first (h.hyphen d hd).1 (by decide) (List.cons.inj (List.cons.inj hid).2).2
  obtain ⟨-, hname⟩ := cut_last (hyphen_not_mem_toString i) (h.hyphen d' hd').1 hrest
  rcases h.struc with hno | hno
  · exact hno d hd (String.toList_inj.mp hstruc)
  · exact hno d' hd' i (String.toList_inj.mp hname).symm

end Definition.Separable

/-- Under separable names edges of the same identifier are the same edge, or uses of one table by one definition. -/
theorem Edge.DrawnFor.of_id_eq {ds : List Definition} (h : Definition.Separable ds) {d d' : Definition} {i j : Nat}
    {e e' : Edge} (hd : d ∈ ds) (hd' : d' ∈ ds) (he : DrawnFor d i e) (he' : DrawnFor d' j e') (hid : e.id = e'.id) :
    (d.name = d'.name ∧ e.kind = e'.kind ∧ i = j) ∨
      (e.meaning = .uses ∧ e'.meaning = .uses ∧ e.source = e'.source ∧ e.target = e'.target) := by
  cases he with
  | lineage source i r hr =>
    cases he' with
    | lineage source' j r' hr' =>
      exact .inl ⟨h.name_eq_of_id_ofLineage hd hd' hr hr' hid, rfl, (of_id_ofLineage_eq hid).1⟩
    | key j r' hr' => exact absurd hid.symm (h.id_ofKey_ne_ofLineage hd' hr' source r)
    | use j r' hr' => exact absurd hid (id_ofLineage_ne_ofUse source r r')
  | key i r hr =>
    cases he' with
    | lineage source' j r' hr' => exact absurd hid (h.id_ofKey_ne_ofLineage hd hr source' r')
    | key j r' hr' => exact .inl ⟨h.name_eq_of_id_ofKey hd hd' hid, rfl, (of_id_ofKey_eq hid).1⟩
    | use j r' hr' => exact absurd hid (h.id_ofKey_ne_ofUse hd hd' r r')
  | use i r hr =>
    cases he' with
    | lineage source' j r' hr' => exact absurd hid.symm (id_ofLineage_ne_ofUse source' r' r)
    | key j r' hr' => exact absurd hid.symm (h.id_ofKey_ne_ofUse hd' hd r' r)
    | use j r' hr' =>
      obtain ⟨hs, ht⟩ := h.ends_eq_of_id_ofUse hd hd' hid
      exact .inr ⟨rfl, rfl, hs, ht⟩

/-! ## Diagrams -/

namespace Diagram

/-- Edges in different places are drawn for different definitions, or differ in their kind or their place among
the records of one. -/
theorem pairwise_edges (layout : Layout) {ds : List Definition} (notices : List Notice)
    (hnodup : (ds.map Definition.name).Nodup) :
    (ofDefinitions layout ds notices).edges.Pairwise fun e e' => ∃ d ∈ ds, ∃ d' ∈ ds, ∃ i j,
      Edge.DrawnFor d i e ∧ Edge.DrawnFor d' j e' ∧ (d.name = d'.name → e.kind = e'.kind → i ≠ j) := by
  refine List.pairwise_flatMap.mpr ⟨?_, ?_⟩
  · intro d hd
    refine (Edge.pairwise_ofDefinition _ d).imp ?_
    rintro e e' ⟨i, j, he, he', hne⟩
    exact ⟨d, hd, d, hd, i, j, he, he', fun _ => hne⟩
  · refine (List.Pairwise.and_mem.mp (List.pairwise_map.mp hnodup)).imp ?_
    rintro d d' ⟨hd, hd', hne⟩ e he e' he'
    obtain ⟨i, hi⟩ := Edge.DrawnFor.exists_of_mem he
    obtain ⟨j, hj⟩ := Edge.DrawnFor.exists_of_mem he'
    exact ⟨d, hd, d', hd', i, j, hi, hj, fun hname => absurd hname hne⟩

theorem pairwise_id_ofDefinitions (layout : Layout) {ds : List Definition} (notices : List Notice)
    (hnodup : (ds.map fun d => upper d.name).Nodup) :
    (ofDefinitions layout ds notices).edges.Pairwise (fun e e' => e.id = e'.id → Edge.Tellable e e') ∧
      (Definition.Separable (ds.filter fun d => d.referenced ≠ []) →
        (ofDefinitions layout ds notices).edges.Pairwise fun e e' => e.id = e'.id →
          e.meaning = .uses ∧ e'.meaning = .uses ∧ e.source = e'.source ∧ e.target = e'.target) := by
  have hnames : (ds.map Definition.name).Nodup := by
    rw [← Function.comp_def upper Definition.name, ← List.map_map] at hnodup
    exact List.Nodup.of_map upper hnodup
  have hedges := pairwise_edges layout notices hnames
  refine ⟨hedges.imp ?_, fun hs => hedges.imp ?_⟩
  · rintro e e' ⟨d, -, d', -, i, j, he, he', hne⟩ hid
    exact he.tellable he' hne hid
  · rintro e e' ⟨d, hd, d', hd', i, j, he, he', hne⟩ hid
    have hmem : ∀ {d : Definition} {i : Nat} {e : Edge}, d ∈ ds → Edge.DrawnFor d i e →
        d ∈ ds.filter fun d => d.referenced ≠ [] := by
      intro d i e hd he
      exact List.mem_filter.mpr ⟨hd, decide_eq_true he.referenced_ne_nil⟩
    rcases he.of_id_eq hs (hmem hd he) (hmem hd' he') he' hid with ⟨hname, hkind, hij⟩ | huses
    · exact absurd hij (hne hname hkind)
    · exact huses

/-- In the diagram of a script, two edges of the same identifier are neither lineage and a use, nor of one family
and one owner unless they are uses of one table. If the names of the definitions that refer to anything are
separable, they are uses of one table by one definition. -/
theorem pairwise_id (script : String) (s : Settings) :
    let ds := (Extraction.ofScript script s.queryResultName).definitions
    (ofScript script s).edges.Pairwise (fun e e' => e.id = e'.id → Edge.Tellable e e') ∧
      (Definition.Separable (ds.filter fun d => d.referenced ≠ []) →
        (ofScript script s).edges.Pairwise fun e e' => e.id = e'.id →
          e.meaning = .uses ∧ e'.meaning = .uses ∧ e.source = e'.source ∧ e.target = e'.target) := by
  have hnodup : ((Extraction.ofScript script s.queryResultName).definitions.map fun d => upper d.name).Nodup := by
    rw [Extraction.ofScript, Inventory.definitions_finish]
    exact (Inventory.coherent_inferStubs (Inventory.coherent_ofStatements _ _)).nodup_upper
  rw [ofScript, ofExtraction]
  exact pairwise_id_ofDefinitions s.layout _ hnodup

/-- A key and a lineage record between plain names. -/
theorem pairwise_id_plain :
    let script := "CREATE TABLE u (a INT REFERENCES w(a)); CREATE VIEW v AS SELECT u.a FROM u"
    let ds := (Extraction.ofScript script Settings.standard.queryResultName).definitions
    Definition.Separable (ds.filter fun d => d.referenced ≠ []) ∧
      (ofScript script .standard).edges.Pairwise fun e e' => e.id = e'.id →
        e.meaning = .uses ∧ e'.meaning = .uses ∧ e.source = e'.source ∧ e.target = e'.target := by
  intro script ds
  have hds : ds.filter (fun d => d.referenced ≠ []) =
      [⟨"u", .table, [⟨"a", "INT", false, true, false, false, false⟩], [⟨"a", "w", "a"⟩], []⟩,
        ⟨"v", .view, [.mapped "a"], [.uses "u"], [⟨"u", "a", "a", false⟩]⟩] := by
    decide +kernel
  have hs : Definition.Separable (ds.filter fun d => d.referenced ≠ []) := by
    rw [hds]
    exact ⟨by decide, .inl (by decide), by decide, .inl (by decide)⟩
  exact ⟨hs, (pairwise_id script .standard).2 hs⟩

/-- Two edges share an identifier: by a hyphen in the name of a definition or of a target column, by dots in both,
by a table `lin` and by a table `struc`. -/
theorem shared_ids :
    let ids (script : String) := (ofScript script .standard).edges.map Edge.id
    ids "CREATE VIEW z AS SELECT 1 FROM \"x-y\"; CREATE VIEW \"y-z\" AS SELECT 1 FROM x" =
        ["e-struc-x-y-z", "e-struc-x-y-z"] ∧
      ids "CREATE VIEW o AS SELECT s.c \"y-p.z\" FROM s; CREATE VIEW p AS SELECT s.\"c-o.y\" z FROM s" =
        ["e-lin-s.c-o.y-p.z-0", "e-lin-s.c-o.y-p.z-0"] ∧
      ids "CREATE VIEW a AS SELECT t.x \"b.c\" FROM t; CREATE VIEW \"a.b\" AS SELECT t.x c FROM t" =
        ["e-lin-t.x-a.b.c-0", "e-lin-t.x-a.b.c-0"] ∧
      ids "CREATE TABLE lin (a INT REFERENCES \"t.x-o.y\"(b)); CREATE VIEW o AS SELECT t.x y FROM t" =
        ["e-lin-t.x-o.y-0", "e-lin-t.x-o.y-0"] ∧
      ids "CREATE TABLE struc (a INT REFERENCES x(b)); CREATE VIEW \"0\" AS SELECT 1 FROM x" =
        ["e-struc-x-0", "e-struc-x-0"] := by
  refine ⟨?_, ?_, ?_, ?_, ?_⟩ <;> decide +kernel

end Diagram
end SqlLineage
