import SqlLineage.Proofs.Definition.ColumnBlock
import SqlLineage.Proofs.Script.Observed
import SqlLineage.Proofs.Script.Stubs

/-! # Stubs have the columns that are used of them

* `Inventory.knownSchemas_ofStatements`: before stubs are inferred, no notice says that a schema is unknown, and
  no definition is a stub.
* `Inventory.notices_inferStubs`: one such notice comes with every stub of which no column was observed.
* `Inventory.find?_discovered`: what the result says was discovered of a missing table.
* `Extraction.stubs_complete`: stubs stand for exactly the missing names, and every column that is taken from
  one of them is among its columns. -/

namespace SqlLineage
open SqlLineage.Text
set_option autoImplicit false

/-! ## Before stubs are inferred -/

/-- No notice says that the schema of a table is unknown. -/
def Inventory.KnownSchemas (inv : Inventory) : Prop :=
  ∀ n ∈ inv.notices, n.kind ≠ .unknownSchema

namespace Inventory

theorem KnownSchemas.append {inv inv' : Inventory} (h : inv.KnownSchemas) {ns : List Notice}
    (happ : inv'.notices = inv.notices ++ ns) (hns : ∀ n ∈ ns, n.kind ≠ .unknownSchema) : inv'.KnownSchemas := by
  intro n hn
  rw [happ] at hn
  rcases List.mem_append.mp hn with hn | hn
  · exact h n hn
  · exact hns n hn

theorem KnownSchemas.report {inv : Inventory} (h : inv.KnownSchemas) {n : Notice} (hn : n.kind ≠ .unknownSchema) :
    (inv.report n).KnownSchemas :=
  h.append rfl (by simpa using hn)

theorem KnownSchemas.define {inv : Inventory} (h : inv.KnownSchemas) (d : Definition) : (inv.define d).KnownSchemas := by
  refine h.append rfl fun n hn => ?_
  obtain ⟨old, -, rfl⟩ := Option.map_eq_some_iff.mp (Option.mem_toList.mp hn)
  rintro ⟨⟩

theorem KnownSchemas.enter {inv : Inventory} (h : inv.KnownSchemas) (owner : String) (head : Cte) :
    (inv.enter owner head).KnownSchemas := by
  unfold Inventory.enter
  split
  · exact h
  · exact h.report (by rintro ⟨⟩)

theorem KnownSchemas.unwind {inv : Inventory} (h : inv.KnownSchemas) (q : Query) (name : String)
    (kind : Definition.Kind) (ctes : CteBindings) : (q.unwind name kind inv ctes).inventory.KnownSchemas := by
  induction q generalizing name kind inv ctes with
  | body ts =>
    refine h.append rfl fun n hn => ?_
    unfold Select.read at hn
    split at hn
    · cases hn
    · rw [List.mem_singleton.mp hn]
      rintro ⟨⟩
  | cte head definition rest ihd ihr =>
    rw [Query.unwind_cte]
    exact ihr ((ihd (h.enter name head) _ _ _).define _) name kind _

end Inventory

namespace Statement

theorem knownSchemas_addTo {inv : Inventory} (h : inv.KnownSchemas) (resultName : String) (s : Statement) :
    (s.addTo resultName inv).KnownSchemas := by
  have hquery : ∀ (ts : List Token) (name : String) (kind : Definition.Kind) (f : Definition → Definition),
      (addQuery inv ts name kind f).KnownSchemas :=
    fun ts name kind f => (h.unwind (Query.ofTokens ts) name kind .empty).define _
  cases s with
  | createTable name body =>
    cases body with
    | columns block =>
      have hblock : ∀ n ∈ (block.read name).notices, n.kind ≠ .unknownSchema := by
        intro n hn
        rw [(ColumnBlock.mem_notices_read hn).1]
        rintro ⟨⟩
      rw [addTo]
      split
      · exact (h.append rfl hblock).define _
      · exact ((h.report (by rintro ⟨⟩)).append rfl hblock).define _
    | query ts =>
      rw [addTo]
      exact hquery ts name .table id
    | empty => exact h.define _
  | createView name columns ts =>
    rw [addTo]
    exact hquery ts name .view _
  | query ts =>
    rw [addTo]
    exact hquery ts _ .view id

end Statement

namespace Inventory

theorem kind_ofStatements (resultName : String) (texts : List String) :
    ∀ d ∈ (ofStatements resultName texts).registry.slots, d.kind ≠ .stub := by
  have hread : Statement.AllRead (·.kind ≠ .stub) := {
    block := fun b name => by rintro ⟨⟩
    bare := fun name => by rintro ⟨⟩
    query := fun env ts name kind names hk => by rwa [Definition.kind_renameColumns, Select.kind_read] }
  exact forall_ofStatements hread (fun f d hd => ⟨hd, hd⟩) resultName texts

theorem knownSchemas_ofStatements (resultName : String) (texts : List String) :
    (ofStatements resultName texts).KnownSchemas := by
  have hall : ∀ inv : Inventory, inv.KnownSchemas →
      (texts.foldl (Statement.addText resultName) inv).KnownSchemas := by
    induction texts with
    | nil => exact fun inv h => h
    | cons text texts ih =>
      refine fun inv h => ih _ ?_
      unfold Statement.addText
      split
      · exact Statement.knownSchemas_addTo h resultName _
      · exact h.report (by rintro ⟨⟩)
  refine hall .empty fun n hn => ?_
  cases hn

/-! ## What stubs say -/

theorem stubColumns_eq_nil {cs : List String} : stubColumns cs = [] ↔ cs = [] := by
  rw [stubColumns, List.map_eq_nil_iff, List.append_eq_nil_iff, List.filter_eq_nil_iff, List.filter_eq_nil_iff]
  constructor
  · rintro ⟨hne, heq⟩
    rw [List.eq_nil_iff_forall_not_mem]
    intro c hc
    by_cases hstar : c = Column.starName
    · exact heq c hc (by simpa using hstar)
    · exact hne c hc (by simpa using hstar)
  · rintro rfl
    simp

theorem usage_addStub (inv : Inventory) (name : String) : (inv.addStub name).usage = inv.usage := by
  unfold addStub
  split <;> rfl

theorem usage_inferStubs (inv : Inventory) : inv.inferStubs.usage = inv.usage := by
  have hall : ∀ (names : List String) (i : Inventory), (names.foldl addStub i).usage = i.usage := by
    intro names
    induction names with
    | nil => exact fun i => rfl
    | cons name names ih =>
      intro i
      rw [List.foldl_cons, ih, usage_addStub]
  exact hall inv.missing inv

theorem notices_addStub {inv : Inventory} (h : inv.registry.Coherent) {name : String}
    (hfree : inv.registry.defines name = false) :
    (inv.addStub name).notices =
      inv.notices ++ if (inv.usage.columns? name).getD [] = [] then [Notice.unobserved name] else [] := by
  have hdefine : ∀ (i : Inventory) (cs : List Column), i.registry = inv.registry →
      (i.define ⟨name, .stub, cs, [], []⟩).notices = i.notices := by
    intro i cs hi
    have hnone := h.define_of_free (d := ⟨name, .stub, cs, [], []⟩) hfree
    rw [Inventory.define, hi, hnone]
    exact List.append_nil _
  unfold addStub
  split
  · next hnil => rw [hdefine (inv.report _) _ rfl, if_pos (stubColumns_eq_nil.mp hnil), report]
  · next hne => rw [hdefine inv _ rfl, if_neg fun hnil => hne (stubColumns_eq_nil.mpr hnil), List.append_nil]

theorem notices_foldl_addStub {names : List String} {inv : Inventory} (h : inv.registry.Coherent)
    (hfree : ∀ n ∈ names, inv.registry.defines n = false) (hnodup : (names.map upper).Nodup) :
    (names.foldl addStub inv).notices =
      inv.notices ++ (names.filter fun n => (inv.usage.columns? n).getD [] = []).map Notice.unobserved := by
  induction names generalizing inv with
  | nil => simp
  | cons name names ih =>
    obtain ⟨hname, hnames⟩ := List.forall_mem_cons.mp hfree
    rw [List.map_cons, List.nodup_cons] at hnodup
    have hrest : ∀ n ∈ names, (inv.addStub name).registry.defines n = false := by
      intro n hn
      rw [registry_addStub]
      refine (h.defines_define_of_free (d := inv.stub name) hname).mpr ⟨hnames n hn, fun hsame => ?_⟩
      exact hnodup.1 (hsame ▸ List.mem_map_of_mem hn)
    have hlater := ih (coherent_addStub h name) hrest hnodup.2
    rw [notices_addStub h hname, usage_addStub] at hlater
    rw [List.foldl_cons, hlater, List.append_assoc, List.filter_cons]
    by_cases hc : (inv.usage.columns? name).getD [] = [] <;> simp [hc]

theorem notices_inferStubs {inv : Inventory} (h : inv.registry.Coherent) :
    inv.inferStubs.notices =
      inv.notices ++ (inv.missing.filter fun n => (inv.usage.columns? n).getD [] = []).map Notice.unobserved :=
  notices_foldl_addStub h (fun _ hn => defines_of_mem_missing hn) inv.nodup_missing

/-- The notices that say of a missing table that its schema is unknown: one, or none if a column of it was
observed. -/
theorem unknownSchema_inferStubs {inv : Inventory} (h : inv.registry.Coherent) (hknown : inv.KnownSchemas)
    {m : String} (hm : m ∈ inv.missing) :
    (inv.inferStubs.notices.filter fun n => n.kind = .unknownSchema ∧ n.subject = m) =
      if (inv.usage.columns? m).getD [] = [] then [Notice.unobserved m] else [] := by
  have hbefore : (inv.notices.filter fun n => n.kind = .unknownSchema ∧ n.subject = m) = [] := by
    rw [List.filter_eq_nil_iff]
    intro n hn
    simp [hknown n hn]
  have hsubject : (fun n : Notice => decide (n.kind = .unknownSchema ∧ n.subject = m)) ∘ Notice.unobserved =
      fun name => decide (name = m) := by
    funext name
    exact decide_eq_decide.mpr (and_iff_right rfl)
  have hcount : inv.missing.count m = 1 := List.count_eq_one_of_mem (List.Nodup.of_map upper inv.nodup_missing) hm
  rw [notices_inferStubs h, List.filter_append, hbefore, List.nil_append, List.filter_map, hsubject, List.filter_eq]
  by_cases hc : (inv.usage.columns? m).getD [] = []
  · rw [List.count_filter (by simpa using hc), hcount, if_pos hc]
    rfl
  · rw [List.count_eq_zero_of_not_mem, if_neg hc]
    · rfl
    · simp [hc]

/-! ## The stubs of the result -/

theorem canonicalName_eq_iff {inv : Inventory} (h : inv.registry.Coherent) {m : String} (hm : m ∈ inv.missing)
    (t : String) : inv.inferStubs.registry.canonicalName t = m ↔ upper t = upper m := by
  have hcoh := coherent_inferStubs h
  have hmem : (inv.stub m).mapReferenced inv.stubbed.canonicalName ∈ inv.inferStubs.registry.slots := by
    rw [slots_inferStubs h]
    exact List.mem_map_of_mem (List.mem_append_right _ (List.mem_map_of_mem hm))
  constructor
  · rintro rfl
    exact (hcoh.upper_canonicalName t).symm
  · intro ht
    exact hcoh.canonicalName_of_mem hmem ht.symm

/-- What the result says was discovered of a missing table is what was observed of it. -/
theorem find?_discovered {inv : Inventory} (h : inv.registry.Coherent) (hkeyed : inv.usage.Keyed) {m : String}
    (hm : m ∈ inv.missing) : inv.finish.discovered.find? m = inv.usage.columns? m := by
  have hfilter : inv.usage.tables.values.filter
      ((fun e : String × List String => decide (e.1 = m)) ∘
        fun u => (inv.inferStubs.registry.canonicalName u.table, u.columns)) =
      (inv.usage.tables.find? (upper m)).toList := by
    rw [← hkeyed.filter_values m]
    exact List.filter_congr fun u _ => decide_eq_decide.mpr (canonicalName_eq_iff h hm u.table)
  rw [finish, usage_inferStubs, OrderedMap.find?_ofList, List.filter_map, hfilter, Usage.columns?]
  cases inv.usage.tables.find? (upper m) <;> rfl

theorem definitions_split {inv : Inventory} (h : inv.registry.Coherent)
    (hkind : ∀ d ∈ inv.registry.slots, d.kind ≠ .stub) :
    inv.finish.definitions.filter (·.kind ≠ .stub) =
      inv.registry.slots.map (·.mapReferenced inv.stubbed.canonicalName) ∧
    inv.finish.definitions.filter (·.kind = .stub) =
      (inv.missing.map inv.stub).map (·.mapReferenced inv.stubbed.canonicalName) ∧
    inv.finish.definitions =
      inv.finish.definitions.filter (·.kind ≠ .stub) ++ inv.finish.definitions.filter (·.kind = .stub) := by
  have hothers : ∀ d ∈ inv.registry.slots.map (·.mapReferenced inv.stubbed.canonicalName), d.kind ≠ .stub := by
    intro d hd
    obtain ⟨o, ho, rfl⟩ := List.mem_map.mp hd
    exact hkind o ho
  have hstubs : ∀ d ∈ (inv.missing.map inv.stub).map (·.mapReferenced inv.stubbed.canonicalName),
      d.kind = .stub := by
    intro d hd
    obtain ⟨o, ho, rfl⟩ := List.mem_map.mp hd
    obtain ⟨m, -, rfl⟩ := List.mem_map.mp ho
    rfl
  rw [definitions_finish, slots_inferStubs h, List.map_append, List.filter_append, List.filter_append,
    List.filter_eq_self.mpr fun d hd => by simpa using hothers d hd,
    List.filter_eq_nil_iff.mpr fun d hd => by simpa using hstubs d hd, List.append_nil,
    List.filter_eq_nil_iff.mpr fun d hd => by simpa using hothers d hd,
    List.filter_eq_self.mpr fun d hd => by simpa using hstubs d hd, List.nil_append]
  exact ⟨rfl, rfl, rfl⟩

/-- A stub is what was made of a missing name. -/
theorem mem_stubs_iff {inv : Inventory} (h : inv.registry.Coherent)
    (hkind : ∀ d ∈ inv.registry.slots, d.kind ≠ .stub) {s : Definition} :
    s ∈ inv.finish.definitions.filter (·.kind = .stub) ↔ ∃ m ∈ inv.missing, inv.stub m = s := by
  have hsame : ∀ m, (inv.stub m).mapReferenced inv.stubbed.canonicalName = inv.stub m := fun m => rfl
  rw [(definitions_split h hkind).2.1, List.map_map, List.mem_map]
  simp only [Function.comp_apply, hsame]

theorem map_upper_stubs {inv : Inventory} (h : inv.registry.Coherent)
    (hkind : ∀ d ∈ inv.registry.slots, d.kind ≠ .stub) :
    (inv.finish.definitions.filter (·.kind = .stub)).map (fun s => upper s.name) = inv.missing.map upper := by
  rw [(definitions_split h hkind).2.1, List.map_map, List.map_map]
  rfl

theorem missing_iff {inv : Inventory} (h : inv.registry.Coherent) (k : String) :
    k ∈ inv.missing.map upper ↔
      (∃ d ∈ inv.finish.definitions, ∃ n ∈ d.referenced, upper n = k) ∧ ∀ d ∈ inv.registry.slots, upper d.name ≠ k := by
  have hupper := (coherent_stubbed h).upper_canonicalName
  rw [definitions_finish, slots_inferStubs h]
  constructor
  · intro hk
    obtain ⟨m, hm, rfl⟩ := List.mem_map.mp hk
    refine ⟨?_, h.defines_eq_false_iff.mp (defines_of_mem_missing hm)⟩
    obtain ⟨d, hd, hn⟩ := exists_of_mem_missing hm
    refine ⟨_, List.mem_map_of_mem (List.mem_append_left _ hd), inv.stubbed.canonicalName m, ?_, hupper m⟩
    rw [Definition.referenced_mapReferenced]
    exact List.mem_map_of_mem hn
  · rintro ⟨⟨d, hd, n, hn, rfl⟩, hfree⟩
    obtain ⟨o, ho, rfl⟩ := List.mem_map.mp hd
    rw [Definition.referenced_mapReferenced] at hn
    obtain ⟨t, ht, rfl⟩ := List.mem_map.mp hn
    rw [hupper] at hfree ⊢
    rcases List.mem_append.mp ho with ho | ho
    · rcases defines_or_missing h ho ht with hdef | ⟨m, hm, hmn⟩
      · obtain ⟨e, he, hen⟩ := h.defines_iff.mp hdef
        exact absurd hen (hfree e he)
      · exact hmn ▸ List.mem_map_of_mem hm
    · obtain ⟨m, -, rfl⟩ := List.mem_map.mp ho
      cases ht

/-- What a stub says, if the usage was made of the observations `os`. -/
theorem columns_stub {inv : Inventory} {os : List TableColumn} (hos : inv.usage = Usage.empty.recordAll os)
    (m : String) :
    inv.usage.columns? m = (if Usage.firstSeen m os = [] then none else some (Usage.firstSeen m os)) ∧
    (inv.usage.columns? m).getD [] = Usage.firstSeen m os := by
  rw [hos, Usage.columns?_recordAll]
  split
  · next hnil => exact ⟨rfl, hnil.symm⟩
  · exact ⟨rfl, rfl⟩

/-- A column that is observed of a table is a column of its stub. -/
theorem mem_columns_stub {inv : Inventory} {os : List TableColumn} (hos : inv.usage = Usage.empty.recordAll os)
    {m : String} {o : TableColumn} (ho : o ∈ os) (hm : upper o.table = upper m) (hc : o.column ≠ "") :
    ∃ c ∈ (inv.stub m).columns, sameFold c.name o.column = true := by
  obtain ⟨c, hcs, hsame⟩ := Usage.exists_firstSeen ho hm hc
  have hmem : Column.observed c ∈ stubColumns (Usage.firstSeen m os) := by
    rw [stubColumns, List.mem_map]
    refine ⟨c, List.mem_append.mpr ?_, rfl⟩
    by_cases hstar : c = Column.starName
    · exact .inr (List.mem_filter.mpr ⟨hcs, by simpa using hstar⟩)
    · exact .inl (List.mem_filter.mpr ⟨hcs, by simpa using hstar⟩)
  refine ⟨Column.observed c, ?_, hsame⟩
  rw [stub, (columns_stub hos m).2]
  dsimp only
  rwa [if_neg (List.ne_nil_of_mem hmem)]

/-- Whatever the definitions of the result take of a missing table was observed. -/
theorem observed_of_source {inv : Inventory} (h : inv.registry.Coherent) {os : List TableColumn}
    (hsources : ∀ d ∈ inv.registry.slots, ∀ p ∈ d.sources, p.column ≠ "" →
      p ∈ os ∨ inv.registry.defines p.table = true) {m : String} (hm : m ∈ inv.missing) {d : Definition}
    (hd : d ∈ inv.finish.definitions) {p : TableColumn} (hp : p ∈ d.sources) (hpm : p.table = m)
    (hc : p.column ≠ "") : ∃ o ∈ os, upper o.table = upper m ∧ o.column = p.column := by
  rw [definitions_finish, slots_inferStubs h] at hd
  obtain ⟨o, ho, rfl⟩ := List.mem_map.mp hd
  rw [Definition.sources_mapReferenced] at hp
  obtain ⟨q, hq, rfl⟩ := List.mem_map.mp hp
  have hqm : upper q.table = upper m := by rw [← hpm, (coherent_stubbed h).upper_canonicalName]
  rcases List.mem_append.mp ho with ho | ho
  · rcases hsources o ho q hq hc with hq | hdef
    · exact ⟨q, hq, hqm, rfl⟩
    · rw [inv.registry.defines_congr hqm, defines_of_mem_missing hm] at hdef
      cases hdef
  · obtain ⟨n, -, rfl⟩ := List.mem_map.mp ho
    cases hq

theorem complete_of_mem_missing {inv : Inventory} (h : inv.registry.Coherent) (hknown : inv.KnownSchemas)
    {os : List TableColumn} (hos : inv.usage = Usage.empty.recordAll os)
    (hsources : ∀ d ∈ inv.registry.slots, ∀ p ∈ d.sources, p.column ≠ "" →
      p ∈ os ∨ inv.registry.defines p.table = true) {m : String} (hm : m ∈ inv.missing) :
    let columns := Usage.firstSeen m os
    inv.finish.discovered.find? m = (if columns = [] then none else some columns) ∧
    (inv.stub m).columns = (if columns = [] then [Column.unknownSchema] else
      (columns.filter (· ≠ Column.starName) ++ columns.filter (· = Column.starName)).map Column.observed) ∧
    (inv.finish.notices.filter fun n => n.kind = .unknownSchema ∧ n.subject = m).length =
      (if columns = [] then 1 else 0) ∧
    ∀ d ∈ inv.finish.definitions, ∀ p ∈ d.sources, p.table = m → p.column ≠ "" →
      ∃ c ∈ (inv.stub m).columns, sameFold c.name p.column = true := by
  intro columns
  have hkeyed : inv.usage.Keyed := hos ▸ Usage.keyed_empty.recordAll os
  obtain ⟨hcolumns, hgetD⟩ := columns_stub hos m
  refine ⟨(find?_discovered h hkeyed hm).trans hcolumns, ?_, ?_, fun d hd p hp hpm hc => ?_⟩
  · rw [stub, hgetD]
    dsimp only
    by_cases hnil : columns = []
    · rw [if_pos hnil, if_pos (stubColumns_eq_nil.mpr hnil)]
    · rw [if_neg hnil, if_neg (stubColumns_eq_nil.not.mpr hnil)]
      rfl
  · have hnotices := unknownSchema_inferStubs h hknown hm
    rw [hgetD] at hnotices
    rw [finish, hnotices]
    split <;> rfl
  · obtain ⟨o, ho, hom, hoc⟩ := observed_of_source h hsources hm hd hp hpm hc
    rw [← hoc]
    exact mem_columns_stub hos ho hom (hoc ▸ hc)

end Inventory

/-- The stubs of a script come last, and there is one for every name, up to case, that some definition refers to
and that nothing else holds. A stub has the columns that were observed of it, each in the spelling and the order
in which it was first seen, a star last. If there are none, its only column says so, and so does one notice.
Every column that is taken from a stub is one of its columns. -/
theorem Extraction.stubs_complete (script resultName : String) :
    let e : Extraction := ofScript script resultName
    let texts := Script.statements (Comment.strip script)
    let others := e.definitions.filter (·.kind ≠ .stub)
    let stubs := e.definitions.filter (·.kind = .stub)
    e.definitions = others ++ stubs ∧
    (stubs.map fun s => upper s.name).Nodup ∧
    (∀ k, k ∈ stubs.map (fun s => upper s.name) ↔
      (∃ d ∈ e.definitions, ∃ n ∈ d.referenced, upper n = k) ∧ ∀ d ∈ others, upper d.name ≠ k) ∧
    ∀ s ∈ stubs,
      let columns := Usage.firstSeen s.name (Script.observed resultName .empty texts)
      e.discovered.find? s.name = (if columns = [] then none else some columns) ∧
      s.columns = (if columns = [] then [Column.unknownSchema] else
        (columns.filter (· ≠ Column.starName) ++ columns.filter (· = Column.starName)).map Column.observed) ∧
      (e.notices.filter fun n => n.kind = .unknownSchema ∧ n.subject = s.name).length =
        (if columns = [] then 1 else 0) ∧
      ∀ d ∈ e.definitions, ∀ p ∈ d.sources, p.table = s.name → p.column ≠ "" →
        ∃ c ∈ s.columns, sameFold c.name p.column = true := by
  intro e texts
  have he : e = (Inventory.ofStatements resultName texts).finish := rfl
  have hcoh := Inventory.coherent_ofStatements resultName texts
  have hkind := Inventory.kind_ofStatements resultName texts
  rw [he]
  have hothers : ∀ k, (∀ d ∈ (Inventory.ofStatements resultName texts).finish.definitions.filter (·.kind ≠ .stub),
      upper d.name ≠ k) ↔ ∀ d ∈ (Inventory.ofStatements resultName texts).registry.slots, upper d.name ≠ k := by
    intro k
    rw [(Inventory.definitions_split hcoh hkind).1, List.forall_mem_map]
    rfl
  refine ⟨(Inventory.definitions_split hcoh hkind).2.2, ?_, fun k => ?_, fun s hs => ?_⟩
  · rw [Inventory.map_upper_stubs hcoh hkind]
    exact Inventory.nodup_missing _
  · rw [Inventory.map_upper_stubs hcoh hkind, Inventory.missing_iff hcoh, hothers]
  · obtain ⟨m, hm, rfl⟩ := (Inventory.mem_stubs_iff hcoh hkind).mp hs
    exact Inventory.complete_of_mem_missing hcoh (Inventory.knownSchemas_ofStatements resultName texts)
      (Inventory.usage_ofStatements resultName texts) (Inventory.accounts_ofStatements resultName texts) hm

end SqlLineage
