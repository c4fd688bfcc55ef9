import Mathlib.Data.List.Nodup
import SqlLineage.Usage

/-! # Observed columns in the order of observation

* `Usage.firstSeen`: the columns of a table among a list of observations, each in its first spelling.
* `Usage.columns?_recordAll`: what is noted of a table is exactly that.
* `Usage.Keyed`: every table is filed once, under its own name in upper case. -/

namespace SqlLineage
open SqlLineage.Text
set_option autoImplicit false

/-! ## Letter case -/

theorem Text.upperChar_toUpper (c : Char) : upperChar c.toUpper = upperChar c := by
  by_cases h : c.toNat < 128
  · have hall : ∀ n < 128, upperChar (Char.ofNat n).toUpper = upperChar (Char.ofNat n) := by decide +kernel
    have hc := hall c.toNat h
    rwa [Char.ofNat_toNat] at hc
  · have hsame : c.toUpper = c := by
      unfold Char.toUpper
      rw [dif_neg]
      simp only [UInt32.le_iff_toNat_le, not_and]
      intro _ h122
      have : c.toNat ≤ 122 := h122
      omega
    rw [hsame]

/-- Names that differ in ASCII case only are filed under the same key. -/
theorem Text.upper_eq_of_sameFold {a b : String} (h : sameFold a b = true) : upper a = upper b := by
  have hupper : ∀ s : String, upper s = upper (foldCase s) := by
    intro s
    rw [← String.toList_inj, toList_upper, toList_upper, toList_foldCase, List.flatMap_map]
    exact (List.flatMap_congr fun c _ => upperChar_toUpper c).symm
  rw [hupper a, hupper b, sameFold_iff.mp h]

/-! ## Maps -/

theorem nodup_appendNew {α : Type} [DecidableEq α] {xs : List α} (h : xs.Nodup) (x : α) :
    (appendNew xs x).Nodup := by
  unfold appendNew
  split
  · exact h
  · next hx =>
    rw [List.nodup_append]
    exact ⟨h, List.nodup_singleton x, fun a ha b hb hab => hx (by simp_all)⟩

namespace OrderedMap
variable {κ ν : Type} [DecidableEq κ]

theorem mem_set {k : κ} {v : ν} {es : List (κ × ν)} {e : κ × ν} (h : e ∈ set k v es) : e = (k, v) ∨ e ∈ es := by
  induction es with
  | nil => exact .inl (List.mem_singleton.mp h)
  | cons x es ih =>
    rw [set] at h
    split at h
    · rcases List.mem_cons.mp h with h | h
      · exact .inl h
      · exact .inr (List.mem_cons_of_mem _ h)
    · rcases List.mem_cons.mp h with h | h
      · exact .inr (h ▸ List.mem_cons_self ..)
      · exact (ih h).imp_right (List.mem_cons_of_mem _)

theorem mem_values_insert {m : OrderedMap κ ν} {k : κ} {v x : ν} (h : x ∈ (m.insert k v).values) :
    x = v ∨ x ∈ m.values := by
  obtain ⟨e, he, rfl⟩ := List.mem_map.mp h
  rcases mem_set he with rfl | he
  · exact .inl rfl
  · exact .inr (List.mem_map_of_mem he)

theorem mem_of_find? {m : OrderedMap κ ν} {k : κ} {v : ν} (h : m.find? k = some v) : (k, v) ∈ m.entries := by
  obtain ⟨l₁, l₂, he, -⟩ := List.lookup_eq_some_iff.mp h
  rw [he]
  simp

/-- In a map with distinct keys the entries of a key are the one that is found. -/
theorem filter_entries {m : OrderedMap κ ν} (h : m.keys.Nodup) (k : κ) :
    m.entries.filter (fun e => e.1 = k) = (m.find? k).toList.map fun v => (k, v) := by
  obtain ⟨es⟩ := m
  unfold keys at h
  unfold find?
  dsimp only at h ⊢
  induction es with
  | nil => rfl
  | cons e es ih =>
    obtain ⟨k', v⟩ := e
    rw [List.map_cons, List.nodup_cons] at h
    by_cases hk : k' = k
    · subst hk
      have hnone : es.filter (fun e => e.1 = k') = [] := by
        rw [List.filter_eq_nil_iff]
        intro e he hek
        exact h.1 (List.mem_map.mpr ⟨e, he, by simpa using hek⟩)
      simp [hnone]
    · have hk' : (k == k') = false := by simpa using Ne.symm hk
      simp [hk, List.lookup_cons, hk', ih h.2]

theorem find?_ofList (es : List (κ × ν)) (k : κ) :
    (ofList es).find? k = ((es.filter fun e => e.1 = k).getLast?).map Prod.snd := by
  have hall : ∀ m : OrderedMap κ ν, (es.foldl (fun m e => m.insert e.1 e.2) m).find? k =
      (((es.filter fun e => e.1 = k).getLast?).map Prod.snd).or (m.find? k) := by
    induction es with
    | nil => exact fun m => rfl
    | cons e es ih =>
      intro m
      rw [List.foldl_cons, ih, find?_insert]
      by_cases hk : e.1 = k
      · simp [hk, List.getLast?_cons]
      · simp [hk, Ne.symm hk]
  rw [ofList, hall, find?_empty, Option.or_none]

theorem mem_keys_ofList {es : List (κ × ν)} {k : κ} : k ∈ (ofList es).keys ↔ ∃ e ∈ es, e.1 = k := by
  have hall : ∀ m : OrderedMap κ ν, k ∈ (es.foldl (fun m e => m.insert e.1 e.2) m).keys ↔
      k ∈ m.keys ∨ ∃ e ∈ es, e.1 = k := by
    induction es with
    | nil => exact fun m => by simp
    | cons e es ih =>
      intro m
      rw [List.foldl_cons, ih, keys_insert, mem_appendNew, or_assoc, List.exists_mem_cons_iff, eq_comm]
  exact (hall empty).trans (or_iff_right List.not_mem_nil)

end OrderedMap

/-! ## Observations -/

namespace Usage

theorem columns?_record (u : Usage) (o : TableColumn) (t : String) :
    (u.record o).columns? t =
      if upper o.table = upper t ∧ o.column ≠ "" then some (addColumn ((u.columns? t).getD []) o.column)
      else u.columns? t := by
  unfold record
  by_cases hc : o.column = ""
  · simp [hc]
  · have hempty : o.column.isEmpty = false := by simpa using hc
    rw [hempty]
    unfold columns?
    by_cases ht : upper o.table = upper t
    · simp [OrderedMap.find?_insert, ht, hc]
      cases u.tables.find? (upper t) <;> rfl
    · simp [OrderedMap.find?_insert, ht, Ne.symm ht]

/-- The names that are observed of a table, in their order. -/
def names (t : String) (os : List TableColumn) : List String :=
  (os.filter fun o => upper o.table = upper t ∧ o.column ≠ "").map TableColumn.column

/-- The columns that are observed of a table: no two differ only in case, and each has its first spelling. -/
def firstSeen (t : String) (os : List TableColumn) : List String :=
  (names t os).foldl addColumn []

theorem columns?_foldl_record (os : List TableColumn) (u : Usage) (t : String) :
    (u.recordAll os).columns? t =
      if names t os = [] then u.columns? t else some ((names t os).foldl addColumn ((u.columns? t).getD [])) := by
  induction os generalizing u with
  | nil => rfl
  | cons o os ih =>
    have hstep := columns?_record u o t
    rw [recordAll, List.foldl_cons]
    by_cases ho : upper o.table = upper t ∧ o.column ≠ ""
    · have hnames : names t (o :: os) = o.column :: names t os := by simp [names, ho]
      rw [if_pos ho] at hstep
      rw [← recordAll, ih, hstep, hnames]
      by_cases hos : names t os = [] <;> simp [hos]
    · have hnames : names t (o :: os) = names t os := by
        unfold names
        rw [List.filter_cons_of_neg (by simpa using ho)]
      rw [if_neg ho] at hstep
      rw [← recordAll, ih, hstep, hnames]

theorem addColumn_ne_nil (cs : List String) (c : String) : addColumn cs c ≠ [] := by
  unfold addColumn
  split
  · next h =>
    rintro rfl
    cases h
  · simp

theorem foldl_addColumn_eq_nil {cs ns : List String} : ns.foldl addColumn cs = [] ↔ cs = [] ∧ ns = [] := by
  induction ns generalizing cs with
  | nil => simp
  | cons n ns ih => simp [ih, addColumn_ne_nil]

/-- What is noted of a table is what is observed of it. -/
theorem columns?_recordAll (os : List TableColumn) (t : String) :
    (empty.recordAll os).columns? t = if firstSeen t os = [] then none else some (firstSeen t os) := by
  rw [columns?_foldl_record, firstSeen]
  simp [foldl_addColumn_eq_nil, columns?, empty]

theorem any_addColumn (cs : List String) (c : String) : (addColumn cs c).any (sameFold · c) = true := by
  unfold addColumn
  split
  · next h => exact h
  · simp

theorem subset_foldl_addColumn (ns cs : List String) : cs ⊆ ns.foldl addColumn cs := by
  induction ns generalizing cs with
  | nil => exact List.Subset.refl _
  | cons n ns ih =>
    refine List.Subset.trans ?_ (ih _)
    unfold addColumn
    split
    · exact List.Subset.refl _
    · exact List.subset_append_left _ _

theorem exists_firstSeen {t : String} {os : List TableColumn} {o : TableColumn} (ho : o ∈ os)
    (ht : upper o.table = upper t) (hc : o.column ≠ "") : ∃ c ∈ firstSeen t os, sameFold c o.column = true := by
  have hn : o.column ∈ names t os :=
    List.mem_map_of_mem (List.mem_filter.mpr ⟨ho, by simpa using ⟨ht, hc⟩⟩)
  obtain ⟨before, after, hsplit⟩ := List.append_of_mem hn
  obtain ⟨c, hcs, hsame⟩ := List.any_eq_true.mp (any_addColumn (before.foldl addColumn []) o.column)
  refine ⟨c, ?_, hsame⟩
  rw [firstSeen, hsplit, List.foldl_append, List.foldl_cons]
  exact subset_foldl_addColumn _ _ hcs

/-- Something is noted of a table just when a column of it is observed. -/
theorem exists_of_columns? {os : List TableColumn} {t : String} {cs : List String}
    (h : (empty.recordAll os).columns? t = some cs) : ∃ o ∈ os, upper o.table = upper t ∧ o.column ≠ "" := by
  rw [columns?_recordAll, firstSeen] at h
  cases hnames : names t os with
  | nil =>
    rw [hnames] at h
    cases h
  | cons c ns =>
    have hc : c ∈ names t os := hnames ▸ List.mem_cons_self ..
    obtain ⟨o, ho, -⟩ := List.mem_map.mp hc
    obtain ⟨ho, hnoted⟩ := List.mem_filter.mp ho
    exact ⟨o, ho, of_decide_eq_true hnoted⟩

/-! ## Tables -/

/-- Tables are filed once, under their own names. -/
structure Keyed (u : Usage) : Prop where
  nodup : u.tables.keys.Nodup
  key : ∀ e ∈ u.tables.entries, upper e.2.table = e.1

theorem keyed_empty : empty.Keyed where
  nodup := List.nodup_nil
  key := by
    intro e he
    cases he

theorem Keyed.record {u : Usage} (h : u.Keyed) (o : TableColumn) : (u.record o).Keyed := by
  unfold Usage.record
  split
  · exact h
  · refine ⟨?_, fun e he => ?_⟩
    · rw [OrderedMap.keys_insert]
      exact nodup_appendNew h.nodup _
    · rcases OrderedMap.mem_set he with rfl | he
      · cases hf : u.tables.find? (upper o.table) with
        | none => rfl
        | some seen =>
          have hkey := h.key _ (OrderedMap.mem_of_find? hf)
          exact hkey
      · exact h.key e he

theorem Keyed.recordAll {u : Usage} (h : u.Keyed) (os : List TableColumn) : (u.recordAll os).Keyed := by
  induction os generalizing u with
  | nil => exact h
  | cons o os ih => exact ih (h.record o)

/-- What is filed of a table can be told by its name. -/
theorem Keyed.filter_values {u : Usage} (h : u.Keyed) (t : String) :
    u.tables.values.filter (fun s => upper s.table = upper t) = (u.tables.find? (upper t)).toList := by
  have hentries : u.tables.entries.filter (fun e => upper e.2.table = upper t) =
      u.tables.entries.filter fun e => e.1 = upper t :=
    List.filter_congr fun e he => by rw [h.key e he]
  unfold OrderedMap.values
  rw [List.filter_map, Function.comp_def, hentries, OrderedMap.filter_entries h.nodup, List.map_map]
  simp [Function.comp_def]

end Usage
end SqlLineage
