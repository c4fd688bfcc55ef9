import SqlLineage.Proofs.Frame.Finish

/-! # What becomes of recorded uses

Uses of columns are filed by table and told again in the end, under the names that the definitions have then. In
between tables may be defined, and common table expressions may move to other names.

* `eraseDupsBy_eq_foldl`: a list that grows only by what is new in it keeps the first of several elements that agree.
* `Usage.values_recordAll`: what a list of uses leaves, table by table.
* `Extraction.discovered_of_uses`: in the result each table has one entry, in the order of first use, with the first
  spelling of each of its columns; no entry is lost to another one. -/

namespace SqlLineage
open SqlLineage.Text
set_option autoImplicit false

/-! ## The first of several -/

section Firsts
variable {α β : Type}

theorem eraseDupsBy_loop_eq (r : α → α → Bool) (as kept : List α) :
    List.eraseDupsBy.loop r as kept =
      as.foldl (fun kept a => if kept.any (r a) then kept else kept ++ [a]) kept.reverse := by
  induction as generalizing kept with
  | nil => rfl
  | cons a as ih =>
    rw [List.eraseDupsBy.loop, List.foldl_cons, List.any_reverse]
    cases kept.any (r a) with
    | true => exact ih kept
    | false =>
      have hrec := ih (a :: kept)
      rwa [List.reverse_cons] at hrec

theorem eraseDupsBy_eq_foldl (r : α → α → Bool) (as : List α) :
    as.eraseDupsBy r = as.foldl (fun kept a => if kept.any (r a) then kept else kept ++ [a]) [] :=
  eraseDupsBy_loop_eq r as []

theorem foldl_appendNew_eq_eraseDups [DecidableEq α] (as : List α) : as.foldl appendNew [] = as.eraseDups := by
  rw [List.eraseDups, eraseDupsBy_eq_foldl]
  refine congrArg (fun f => as.foldl f []) ?_
  funext kept a
  simp [appendNew]

/-- What holds of the elements that do not agree with the first one holds of all behind it. -/
theorem firsts_induction (r : α → α → Bool) {motive : List α → Prop} (nil : motive [])
    (cons : ∀ a as, motive (as.filter fun b => decide (r b a = false)) → motive (a :: as)) (as : List α) :
    motive as := by
  cases as with
  | nil => exact nil
  | cons a as => exact cons a as (firsts_induction r nil cons _)
termination_by as.length
decreasing_by
  have hlength := List.length_filter_le (fun b => decide (r b a = false)) as
  simp only [List.length_cons]
  omega

theorem mem_of_mem_eraseDupsBy {r : α → α → Bool} {as : List α} {o : α} (h : o ∈ as.eraseDupsBy r) : o ∈ as := by
  induction as using firsts_induction r with
  | nil => exact h
  | cons a as ih =>
    rw [List.eraseDupsBy_cons] at h
    rcases List.mem_cons.mp h with rfl | h
    · exact List.mem_cons_self ..
    · exact List.mem_cons_of_mem _ (List.mem_of_mem_filter (ih h))

/-- No element that is kept agrees with one that is kept in front of it. -/
theorem pairwise_eraseDupsBy (r : α → α → Bool) (as : List α) :
    (as.eraseDupsBy r).Pairwise fun a b => r b a = false := by
  induction as using firsts_induction r with
  | nil => exact List.Pairwise.nil
  | cons a as ih =>
    rw [List.eraseDupsBy_cons, List.pairwise_cons]
    refine ⟨fun b hb => ?_, ih⟩
    exact of_decide_eq_true (List.mem_filter.mp (mem_of_mem_eraseDupsBy hb)).2

section Keys
variable [DecidableEq β] (f : α → β)

theorem filter_key (a : α) (as : List α) :
    as.filter (fun b => decide ((f b == f a) = false)) = as.filter fun b => !f b == f a :=
  List.filter_congr fun b _ => by cases f b == f a <;> rfl

/-- Of elements with the same key the first one is kept, so that each key is left once. -/
theorem map_eraseDupsBy (as : List α) : (as.eraseDupsBy fun a b => f a == f b).map f = (as.map f).eraseDups := by
  induction as using firsts_induction fun a b => f a == f b with
  | nil => rfl
  | cons a as ih =>
    rw [List.eraseDupsBy_cons, List.map_cons, ih, filter_key, List.map_cons, List.eraseDups_cons, List.filter_map]
    rfl

theorem find?_of_mem_eraseDupsBy {as : List α} {o : α} (h : o ∈ as.eraseDupsBy fun a b => f a == f b) :
    as.find? (fun a => f a == f o) = some o := by
  induction as using firsts_induction fun a b => f a == f b with
  | nil => cases h
  | cons a as ih =>
    rw [List.eraseDupsBy_cons] at h
    rcases List.mem_cons.mp h with rfl | h
    · exact List.find?_cons_of_pos (beq_self_eq_true _)
    · have hne : f o ≠ f a := by
        have hmem := (List.mem_filter.mp (mem_of_mem_eraseDupsBy h)).2
        simpa using hmem
      rw [List.find?_cons_of_neg (by simpa using hne.symm), ← ih h, List.find?_filter]
      refine congrArg (fun p => as.find? p) (funext fun b => ?_)
      -- an element with the key of `o` does not have that of `a`
      by_cases hb : f b = f o
      · simp [hb, hne]
      · simp [hb]

end Keys
end Firsts

/-! ## What a list of uses leaves -/

namespace Usage

def tableKey (o : TableColumn) : String := upper o.table

/-- The columns that are used of a table, each in its first spelling. -/
def columnsOf (uses : List TableColumn) (table : String) : List String :=
  ((uses.filter fun o => upper o.table = upper table).map TableColumn.column).eraseDupsBy sameFold

theorem foldl_addColumn_eq (cs : List String) : cs.foldl addColumn [] = cs.eraseDupsBy sameFold := by
  rw [eraseDupsBy_eq_foldl]
  refine congrArg (fun f => cs.foldl f []) ?_
  funext kept c
  have hsymm : kept.any (sameFold · c) = kept.any (sameFold c) := by
    refine congrArg (fun p => kept.any p) (funext fun k => ?_)
    rw [Bool.eq_iff_iff, sameFold_iff, sameFold_iff]
    exact eq_comm
  rw [addColumn, hsymm]

theorem record_of_noted {o : TableColumn} (h : o.column ≠ "") (u : Usage) :
    u.record o = ⟨u.tables.insert (tableKey o)
      ⟨((u.tables.find? (tableKey o)).getD ⟨o.table, []⟩).table,
        addColumn ((u.tables.find? (tableKey o)).getD ⟨o.table, []⟩).columns o.column⟩⟩ := by
  rw [record, if_neg (by simpa using h)]
  rfl

section Noted
variable {os : List TableColumn}

theorem keys_recordAll (h : ∀ o ∈ os, o.column ≠ "") (u : Usage) :
    (u.recordAll os).tables.keys = (os.map tableKey).foldl appendNew u.tables.keys := by
  induction os generalizing u with
  | nil => rfl
  | cons o os ih =>
    obtain ⟨ho, hos⟩ := List.forall_mem_cons.mp h
    rw [recordAll, List.foldl_cons, ← recordAll, ih hos, record_of_noted ho]
    dsimp only
    rw [OrderedMap.keys_insert]
    rfl

/-- A table is filed under the spelling of its first use. -/
theorem table_find?_recordAll (h : ∀ o ∈ os, o.column ≠ "") (u : Usage) (k : String) :
    ((u.recordAll os).tables.find? k).map TableUsage.table =
      ((u.tables.find? k).map TableUsage.table).or
        ((os.find? fun o => tableKey o == k).map TableColumn.table) := by
  induction os generalizing u with
  | nil => simp [recordAll]
  | cons o os ih =>
    obtain ⟨ho, hos⟩ := List.forall_mem_cons.mp h
    rw [recordAll, List.foldl_cons, ← recordAll, ih hos, record_of_noted ho, List.find?_cons]
    dsimp only
    rw [OrderedMap.find?_insert]
    by_cases hk : k = tableKey o
    · subst hk
      cases hf : u.tables.find? (tableKey o) <;> simp
    · have hne : (tableKey o == k) = false := by simpa using Ne.symm hk
      rw [if_neg hk, hne]

theorem columns?_recordAll_of_mem (h : ∀ o ∈ os, o.column ≠ "") {o : TableColumn} (ho : o ∈ os) :
    (empty.recordAll os).columns? o.table = some (columnsOf os o.table) := by
  have hseen : firstSeen o.table os = columnsOf os o.table := by
    rw [firstSeen, foldl_addColumn_eq, columnsOf, names]
    congr 2
    refine List.filter_congr fun p hp => ?_
    simp [h p hp]
  obtain ⟨c, hc, -⟩ := exists_firstSeen ho rfl (h o ho)
  rw [columns?_recordAll, if_neg (List.ne_nil_of_mem hc), hseen]

/-- The first use of every table. -/
def firstUses (uses : List TableColumn) : List TableColumn :=
  uses.eraseDupsBy fun o p => tableKey o == tableKey p

/-- Each table is left once, in the order of first use, with its columns. -/
theorem values_recordAll (h : ∀ o ∈ os, o.column ≠ "") :
    (empty.recordAll os).tables.values = (firstUses os).map fun o => ⟨o.table, columnsOf os o.table⟩ := by
  have hkeyed := keyed_empty.recordAll os
  have hfind : ∀ e ∈ (empty.recordAll os).tables.entries, (empty.recordAll os).tables.find? e.1 = some e.2 := by
    intro e he
    have hmem : e ∈ (empty.recordAll os).tables.entries.filter fun x => x.1 = e.1 := by simp [he]
    rw [OrderedMap.filter_entries hkeyed.nodup] at hmem
    obtain ⟨u, hu, hue⟩ := List.mem_map.mp hmem
    rw [Option.mem_toList.mp hu, ← hue]
  have hkeys : (empty.recordAll os).tables.keys = (firstUses os).map tableKey := by
    rw [keys_recordAll h, firstUses, map_eraseDupsBy, ← foldl_appendNew_eq_eraseDups]
    rfl
  have hvalues : (empty.recordAll os).tables.values.map some =
      (empty.recordAll os).tables.keys.map (empty.recordAll os).tables.find? := by
    rw [OrderedMap.values, OrderedMap.keys, List.map_map, List.map_map]
    exact List.map_congr_left fun e he => (hfind e he).symm
  -- what is found under the key of a first use
  have hfirst : ∀ o ∈ firstUses os,
      (empty.recordAll os).tables.find? (tableKey o) = some ⟨o.table, columnsOf os o.table⟩ := by
    intro o ho
    have htable := table_find?_recordAll h empty (tableKey o)
    rw [find?_of_mem_eraseDupsBy tableKey ho] at htable
    have hcolumns := columns?_recordAll_of_mem h (mem_of_mem_eraseDupsBy ho)
    rw [columns?, show upper o.table = tableKey o from rfl] at hcolumns
    cases hf : (empty.recordAll os).tables.find? (tableKey o) with
    | none =>
      rw [hf] at hcolumns
      cases hcolumns
    | some u =>
      rw [hf] at htable hcolumns
      obtain ⟨table, columns⟩ := u
      obtain rfl : table = o.table := Option.some.inj htable
      obtain rfl : columns = columnsOf os o.table := Option.some.inj hcolumns
      rfl
  refine List.map_injective_iff.mpr (fun _ _ => Option.some.inj) ?_
  rw [hvalues, hkeys, List.map_map, List.map_map]
  exact List.map_congr_left hfirst

end Noted
end Usage

/-! ## What is told in the end -/

/-- The name as a definition of the list spells it, or the name itself if none has it. -/
def Definition.spelling (ds : List Definition) (name : String) : String :=
  ((ds.find? fun d => upper d.name = upper name).map Definition.name).getD name

namespace Registry.Coherent

theorem spelling_eq {r : Registry} (h : r.Coherent) (name : String) :
    Definition.spelling r.slots name = r.canonicalName name := by
  unfold Definition.spelling
  cases hf : r.slots.find? fun d => upper d.name = upper name with
  | none =>
    have hnone : r.lookup name = none := by
      rw [Option.eq_none_iff_forall_not_mem]
      intro d hd
      obtain ⟨hmem, hn⟩ := h.lookup_eq_some_iff.mp hd
      exact absurd hn (by simpa using List.find?_eq_none.mp hf d hmem)
    rw [canonicalName, hnone]
  | some d =>
    have hn : upper d.name = upper name := by simpa using List.find?_some hf
    rw [h.canonicalName_of_mem (List.mem_of_find?_eq_some hf) hn]
    rfl

end Registry.Coherent

namespace Operation

/-- A definition is filed, or a use is recorded. -/
def ofStep : Definition ⊕ TableColumn → Operation
  | .inl d => .define d
  | .inr o => .observe o

theorem usage_runAll_steps (steps : List (Definition ⊕ TableColumn)) (inv : Inventory) :
    (runAll inv (steps.map ofStep)).usage = inv.usage.recordAll (steps.filterMap Sum.getRight?) := by
  induction steps generalizing inv with
  | nil => rfl
  | cons step steps ih =>
    have hrec := ih ((ofStep step).run inv).inventory
    cases step with
    | inl d => exact hrec
    | inr o => exact hrec

end Operation

/-- Uses of columns are recorded and definitions are filed, in whatever order. In the result every table of which a
column was used has one entry, and no other table has one; the entries come in the order of first use, and each is
called as the definition of the table is, if there is one. Its columns are those that were used, each in its first
spelling and in the order of first use, and no two of them differ only in case. -/
theorem Extraction.discovered_of_uses (steps : List (Definition ⊕ TableColumn)) :
    let e := (Operation.runAll .empty (steps.map Operation.ofStep)).finish
    let uses := (steps.filterMap Sum.getRight?).filter fun o => o.column ≠ ""
    e.discovered.entries = (uses.eraseDupsBy fun o p => upper o.table == upper p.table).map (fun o =>
      (Definition.spelling e.definitions o.table,
        ((uses.filter fun p => upper p.table = upper o.table).map TableColumn.column).eraseDupsBy sameFold)) ∧
    e.discovered.keys.map upper = (uses.map fun o => upper o.table).eraseDups ∧
    (e.discovered.keys.map upper).Nodup ∧
    ∀ cs ∈ e.discovered.values, cs.Pairwise fun c c' => sameFold c c' = false := by
  intro e uses
  have h : (Operation.runAll .empty (steps.map Operation.ofStep)).registry.Coherent := Operation.coherent_runAll _
  have hnoted : ∀ o ∈ uses, o.column ≠ "" := fun o ho => by simpa using (List.mem_filter.mp ho).2
  have husage : (Operation.runAll .empty (steps.map Operation.ofStep)).usage = Usage.empty.recordAll uses :=
    (Operation.usage_runAll_steps steps .empty).trans (Usage.recordAll_noted _ _).symm
  have hkeyed : (Operation.runAll .empty (steps.map Operation.ofStep)).usage.Keyed :=
    husage ▸ Usage.keyed_empty.recordAll uses
  have hspelling : ∀ name, Definition.spelling e.definitions name =
      (Operation.runAll .empty (steps.map Operation.ofStep)).stubbed.canonicalName name := by
    intro name
    rw [← Inventory.canonicalName_inferStubs h]
    exact (Inventory.coherent_inferStubs h).spelling_eq name
  have hentries : e.discovered.entries = (Usage.firstUses uses).map fun o =>
      (Definition.spelling e.definitions o.table, Usage.columnsOf uses o.table) := by
    rw [Inventory.entries_discovered h hkeyed, husage, Usage.values_recordAll hnoted, List.map_map]
    exact List.map_congr_left fun o _ => by simp only [Function.comp_apply, hspelling]
  have hkeys : e.discovered.keys.map upper = (uses.map fun o => upper o.table).eraseDups := by
    rw [OrderedMap.keys, hentries, List.map_map, List.map_map]
    refine Eq.trans ?_ (map_eraseDupsBy Usage.tableKey uses)
    refine List.map_congr_left fun o _ => ?_
    simp only [Function.comp_apply, hspelling]
    exact (Inventory.coherent_stubbed h).upper_canonicalName o.table
  refine ⟨hentries, hkeys, ?_, ?_⟩
  · rw [hkeys]
    exact (pairwise_eraseDupsBy (· == ·) _).imp fun hab hne => by simp [hne] at hab
  · intro cs hcs
    rw [OrderedMap.values, hentries, List.map_map] at hcs
    obtain ⟨o, -, rfl⟩ := List.mem_map.mp hcs
    refine (pairwise_eraseDupsBy sameFold _).imp fun {c c'} hcc => ?_
    rw [Bool.eq_false_iff] at hcc ⊢
    exact fun hsame => hcc (sameFold_iff.mpr (sameFold_iff.mp hsame).symm)

/-- What was used of a common table expression is told of the table that took its name. -/
example :
    let steps : List (Definition ⊕ TableColumn) := [.inr ⟨"a", "x"⟩, .inl (.bare "a" .cte), .inr ⟨"c", "z"⟩,
      .inl (.bare "A" .table), .inr ⟨"A", "X"⟩, .inr ⟨"A", "y"⟩, .inr ⟨"b", ""⟩]
    (Operation.runAll .empty (steps.map Operation.ofStep)).finish.discovered.entries = [("A", ["x", "y"]), ("c", ["z"])] := by
  decide +kernel

end SqlLineage
