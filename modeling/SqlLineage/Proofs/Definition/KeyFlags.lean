import Mathlib.Data.List.Induction
import SqlLineage.Proofs.Definition.ColumnBlock
import SqlLineage.Token.Scan

/-! # Key flags

Which columns of a block are keys. A column gets its flags from its own definition, from the constraints behind that
definition, and from the options of the table. Constraints and options name columns, and always mean the first one of
the name. Columns are only added at the end, so the first one of a name stays the first one.

* `ColumnBlock.FirstPairAt`: where the first two neighbours with given words stand.
* `KeyFlag`, `Column.putAll`: flags, and what it does to columns to put them on names.
* `Draft.columns_add`: what one definition does to the columns.
* `Draft.getElem?_foldl_add`: the column of a definition, when all definitions are read.
* `ColumnBlock.read_keyFlags`: the flags of the columns of a block. -/

namespace SqlLineage
open SqlLineage.Text SqlLineage.Token
set_option autoImplicit false

/-! ## Neighbouring words -/

namespace ColumnBlock

/-- The words `first` and `second` stand at `i` and right behind it. -/
def PairAt (first second : String) (ts : List Token) (i : Nat) : Prop :=
  wordAt ts i first = true ∧ wordAt ts (i + 1) second = true

instance (first second : String) (ts : List Token) (i : Nat) : Decidable (PairAt first second ts i) :=
  inferInstanceAs (Decidable (_ ∧ _))

/-- The first such neighbours stand at `i`. -/
def FirstPairAt (first second : String) (ts : List Token) (i : Nat) : Prop :=
  PairAt first second ts i ∧ ∀ j < i, ¬ PairAt first second ts j

instance (first second : String) (ts : List Token) (i : Nat) : Decidable (FirstPairAt first second ts i) :=
  inferInstanceAs (Decidable (_ ∧ _))

section Pairs
variable {first second : String} {ts : List Token}

theorem behindPair?_cases (first second : String) (ts : List Token) :
    (∃ i, FirstPairAt first second ts i ∧ behindPair? first second ts = some (ts.drop (i + 2))) ∨
      (∀ i, ¬ PairAt first second ts i) ∧ behindPair? first second ts = none := by
  have hpair : ∀ i, PairAt first second ts i ↔ (wordAt ts i first && wordAt ts (i + 1) second) = true :=
    fun i => Bool.and_eq_true_iff.symm
  rw [behindPair?_eq_find?]
  cases hfind : (List.range (ts.length - 1)).find? fun i => wordAt ts i first && wordAt ts (i + 1) second with
  | none =>
    refine .inr ⟨fun i hi => ?_, rfl⟩
    have hlt : i + 1 < ts.length := wordAt_lt hi.2
    have hno := List.find?_range_eq_none.mp hfind i (by omega)
    rw [(hpair i).mp hi] at hno
    cases hno
  | some i =>
    obtain ⟨hi, -, hfirst⟩ := List.find?_range_eq_some.mp hfind
    refine .inl ⟨i, ⟨(hpair i).mpr hi, fun j hj hpairj => ?_⟩, rfl⟩
    have hno := hfirst j hj
    rw [(hpair j).mp hpairj] at hno
    cases hno

theorem FirstPairAt.unique {i j : Nat} (hi : FirstPairAt first second ts i) (hj : FirstPairAt first second ts j) :
    i = j :=
  Nat.le_antisymm (Nat.le_of_not_lt fun h => hi.2 j h hj.1) (Nat.le_of_not_lt fun h => hj.2 i h hi.1)

theorem behindPair?_eq_none_iff : behindPair? first second ts = none ↔ ∀ i, ¬ PairAt first second ts i := by
  rcases behindPair?_cases first second ts with ⟨i, hi, hbehind⟩ | ⟨hno, hbehind⟩
  · rw [hbehind]
    exact iff_of_false nofun fun hno => hno i hi.1
  · exact iff_of_true hbehind hno

theorem isSome_behindPair?_iff : (behindPair? first second ts).isSome = true ↔ ∃ i, PairAt first second ts i := by
  rw [Option.isSome_iff_ne_none, Ne, behindPair?_eq_none_iff, not_forall_not]

end Pairs
end ColumnBlock

/-! ## Flags -/

/-- The flags that a block can put on a column. -/
inductive KeyFlag where
  | primary
  | foreign
  | sort
  | dist
deriving DecidableEq

namespace KeyFlag

def isOn : KeyFlag → Column → Bool
  | .primary => Column.isPrimaryKey
  | .foreign => Column.isForeignKey
  | .sort => Column.isSortKey
  | .dist => Column.isDistKey

def put : KeyFlag → Column → Column
  | .primary => fun c => { c with isPrimaryKey := true }
  | .foreign => fun c => { c with isForeignKey := true }
  | .sort => fun c => { c with isSortKey := true }
  | .dist => fun c => { c with isDistKey := true }

@[simp] theorem declared_put (flag : KeyFlag) (c : Column) : (flag.put c).declared = c.declared := by
  cases flag <;> rfl

theorem isOn_put (flag flag' : KeyFlag) (c : Column) :
    flag.isOn (flag'.put c) = true ↔ flag.isOn c = true ∨ flag' = flag := by
  cases flag <;> cases flag' <;> simp [isOn, put]

end KeyFlag

namespace Column

/-- The index of the first column of a name. -/
def index? (cs : List Column) (name : String) : Option Nat :=
  cs.findIdx? fun c => sameFold c.name name

theorem index?_eq_declared (cs : List Column) (name : String) :
    index? cs name = (cs.map declared).findIdx? fun d => sameFold d.1 name := by
  rw [List.findIdx?_map]
  rfl

theorem index?_congr {cs cs' : List Column} (h : cs'.map declared = cs.map declared) (name : String) :
    index? cs' name = index? cs name := by
  rw [index?_eq_declared, h, index?_eq_declared]

theorem index?_append_eq_some_iff {cs extra : List Column} {name : String} {k : Nat} (hk : k < cs.length) :
    index? (cs ++ extra) name = some k ↔ index? cs name = some k := by
  rw [index?, List.findIdx?_append, index?]
  cases cs.findIdx? fun c => sameFold c.name name with
  | some i => rfl
  | none =>
    rw [Option.none_or, Option.map_eq_some_iff]
    refine iff_of_false ?_ nofun
    rintro ⟨i, -, rfl⟩
    exact absurd hk (Nat.not_lt.mpr (Nat.le_add_left _ i))

theorem getElem?_update (name : String) (f : Column → Column) (cs : List Column) (k : Nat) :
    (update name f cs)[k]? = cs[k]?.map fun c => if index? cs name = some k then f c else c := by
  induction cs generalizing k with
  | nil => rfl
  | cons c cs ih =>
    rw [update, index?, List.findIdx?_cons]
    split
    · cases k with
      | zero => rfl
      | succ k => simp
    · cases k with
      | zero => simp
      | succ k =>
        rw [List.getElem?_cons_succ, ih, List.getElem?_cons_succ]
        exact Option.map_congr fun c _ => if_congr (by simp [index?]) rfl rfl

/-- The columns with the flags put on the first column of each name. -/
def putAll (marks : List (KeyFlag × String)) (cs : List Column) : List Column :=
  marks.foldl (fun cs p => update p.2 p.1.put cs) cs

theorem map_declared_putAll (marks : List (KeyFlag × String)) (cs : List Column) :
    (putAll marks cs).map declared = cs.map declared := by
  refine List.foldlRecOn (motive := fun cs' : List Column => cs'.map declared = cs.map declared) _ _ rfl ?_
  exact fun cs' hcs' p _ => (map_declared_update p.1.declared_put p.2 cs').trans hcs'

/-- A flag is on when it was on before, or when it is put on a name of which the column is the first one. -/
theorem getElem?_putAll (marks : List (KeyFlag × String)) {cs : List Column} {k : Nat} {c : Column}
    (hc : cs[k]? = some c) : ∃ c', (putAll marks cs)[k]? = some c' ∧ c'.declared = c.declared ∧
      ∀ flag : KeyFlag, flag.isOn c' = true ↔
        flag.isOn c = true ∨ ∃ name, (flag, name) ∈ marks ∧ index? cs name = some k := by
  induction marks generalizing cs c with
  | nil => exact ⟨c, hc, rfl, fun flag => by simp⟩
  | cons p marks ih =>
    have hstep := getElem?_update p.2 p.1.put cs k
    rw [hc, Option.map_some] at hstep
    obtain ⟨c', hc', hdeclared, hon⟩ := ih hstep
    have hsame : ∀ name, index? (update p.2 p.1.put cs) name = index? cs name :=
      index?_congr (map_declared_update p.1.declared_put p.2 cs)
    simp only [hsame] at hon
    refine ⟨c', hc', hdeclared.trans ?_, fun flag => (hon flag).trans ?_⟩
    · split
      · exact p.1.declared_put c
      · rfl
    · simp only [List.mem_cons, or_and_right, exists_or, ← or_assoc]
      refine or_congr_left ?_
      split
      · next hk =>
        rw [KeyFlag.isOn_put]
        refine or_congr_right ⟨?_, ?_⟩
        · rintro rfl
          exact ⟨p.2, rfl, hk⟩
        · rintro ⟨name, hp, -⟩
          exact (congrArg Prod.fst hp).symm
      · next hk =>
        refine (or_iff_left ?_).symm
        rintro ⟨name, rfl, hname⟩
        exact hk hname

end Column

/-! ## Single definitions -/

namespace ColumnBlock

/-- The name and the type that a definition declares, unless it is a constraint. -/
def declaration? (definition : List Token) : Option (String × String) :=
  if Draft.isConstraint definition then none else declared? definition

/-- The column that a definition declares, with the flags that it gives itself. -/
def column? (definition : List Token) : Option Column :=
  (declaration? definition).map fun d => Draft.columnOf d.1 d.2 (columnReference? d.1 definition) definition

/-- The names that a constraint lists behind `PRIMARY KEY`, unless it is a foreign key. -/
def primaryKeyNames (definition : List Token) : List String :=
  match behindPair? "FOREIGN" "KEY" definition with
  | some _ => []
  | none => (((behindPair? "PRIMARY" "KEY" definition).bind (nameList? · 0)).map NameList.names).getD []

/-- The flags that a definition puts on columns in front of it. -/
def flagsIn (definition : List Token) : List (KeyFlag × String) :=
  if Draft.isConstraint definition then
    (referencesIn definition).map (fun r => (.foreign, r.localColumn)) ++
      (primaryKeyNames definition).map fun name => (.primary, name)
  else []

theorem map_declared_column? (definition : List Token) :
    (column? definition).map Column.declared = declaration? definition := by
  unfold column?
  cases declaration? definition <;> rfl

theorem filterMap_declaration? (definitions : List (List Token)) : definitions.filterMap declaration? =
    (definitions.filter fun x => !Draft.isConstraint x).filterMap declared? := by
  rw [List.filterMap_filter]
  refine congrArg (definitions.filterMap ·) (funext fun x => ?_)
  unfold declaration?
  cases Draft.isConstraint x <;> rfl

theorem flagsIn_of_column {definition : List Token} {c : Column} (h : column? definition = some c) :
    Draft.isConstraint definition = false ∧ flagsIn definition = [] := by
  obtain ⟨d, hd, -⟩ := Option.map_eq_some_iff.mp h
  unfold declaration? at hd
  split at hd
  · cases hd
  · next hkind => exact ⟨Bool.eq_false_iff.mpr hkind, if_neg hkind⟩

end ColumnBlock

namespace Draft
open ColumnBlock

theorem columns_addConstraint (table : String) (d : Draft) (definition : List Token) :
    (d.addConstraint table definition).columns = Column.putAll
      ((((behindPair? "FOREIGN" "KEY" definition).bind foreignKey?).getD []).map (fun r => (.foreign, r.localColumn)) ++
        (primaryKeyNames definition).map fun name => (.primary, name)) d.columns := by
  have hkeys : ∀ (rs : List Reference) (d : Draft), (rs.foldl addKey d).columns =
      Column.putAll (rs.map fun r => (.foreign, r.localColumn)) d.columns := by
    intro rs
    induction rs with
    | nil => exact fun d => rfl
    | cons r rs ih => exact fun d => ih (d.addKey r)
  unfold addConstraint primaryKeyNames
  cases behindPair? "FOREIGN" "KEY" definition with
  | some ts =>
    simp only [Option.bind_some, List.map_nil, List.append_nil]
    cases foreignKey? ts with
    | some rs => exact hkeys rs d
    | none => rfl
  | none =>
    cases behindPair? "PRIMARY" "KEY" definition with
    | none => rfl
    | some ts =>
      simp only [Option.bind_some]
      cases nameList? ts 0 with
      | none => rfl
      | some names =>
        show _ = ((names.names.map fun name => (KeyFlag.primary, name)).foldl _ d.columns)
        rw [List.foldl_map]
        rfl

theorem columns_addColumn (table : String) (d : Draft) {definition : List Token}
    (h : isConstraint definition = false) :
    (d.addColumn table definition).columns = d.columns ++ (column? definition).toList := by
  unfold addColumn column? declaration? declared?
  rw [if_neg (Bool.eq_false_iff.mp h)]
  cases definition.head?.bind columnName? with
  | none => exact (List.append_nil _).symm
  | some name =>
    cases declaredType? definition.tail with
    | none => exact (List.append_nil _).symm
    | some type =>
      simp only [Option.bind_some, Option.map_some, Option.toList_some]
      cases columnReference? name definition <;> rfl

/-- A definition puts flags on the columns that are there, and may add one column behind them. -/
theorem columns_add (table : String) (d : Draft) (definition : List Token) :
    (d.add table definition).columns =
      Column.putAll (flagsIn definition) d.columns ++ (column? definition).toList := by
  unfold add
  split
  · next h =>
    have hno : column? definition = none := by rw [column?, declaration?, if_pos h, Option.map_none]
    rw [columns_addConstraint, flagsIn, if_pos h, referencesIn, if_pos h, hno]
    exact (List.append_nil _).symm
  · next h =>
    rw [columns_addColumn table d (Bool.eq_false_iff.mpr h), flagsIn, if_neg h]
    rfl

/-! ## All definitions in turn -/

section Run
variable (table : String)

theorem map_declared_foldl_add (definitions : List (List Token)) :
    (definitions.foldl (Draft.add table) .empty).columns.map Column.declared = definitions.filterMap declaration? := by
  rw [(run_foldl table .empty definitions).columns_eq, filterMap_declaration?]
  exact List.nil_append _

theorem length_foldl_add (definitions : List (List Token)) :
    (definitions.foldl (Draft.add table) .empty).columns.length = (definitions.filterMap declaration?).length := by
  rw [← map_declared_foldl_add table, List.length_map]

/-- The column of a definition is where it was added. A flag is on when the definition says so, or when a definition
behind it puts the flag on a name of which the column is the first one. -/
theorem getElem?_foldl_add (before after : List (List Token)) {x : List Token} {c₀ : Column}
    (hx : column? x = some c₀) :
    let d := (before ++ x :: after).foldl (Draft.add table) .empty
    ∃ c, d.columns[(before.filterMap declaration?).length]? = some c ∧ c.declared = c₀.declared ∧
      ∀ flag : KeyFlag, flag.isOn c = true ↔ flag.isOn c₀ = true ∨ ∃ name, (flag, name) ∈ after.flatMap flagsIn ∧
        Column.index? d.columns name = some (before.filterMap declaration?).length := by
  induction after using List.reverseRecOn with
  | nil =>
    have hcolumns := columns_add table (before.foldl (Draft.add table) .empty) x
    rw [(flagsIn_of_column hx).2, hx] at hcolumns
    rw [← length_foldl_add table before, List.foldl_append, List.foldl_cons, List.foldl_nil]
    refine ⟨c₀, ?_, rfl, fun flag => by simp⟩
    rw [hcolumns]
    exact List.getElem?_concat_length
  | append_singleton after y ih =>
    obtain ⟨c, hc, hdeclared, hon⟩ := ih
    have hcolumns := columns_add table ((before ++ x :: after).foldl (Draft.add table) .empty) y
    obtain ⟨c', hc', hdeclared', hon'⟩ := Column.getElem?_putAll (flagsIn y) hc
    have hk := (List.getElem?_eq_some_iff.mp hc').1
    have hall : before ++ x :: (after ++ [y]) = (before ++ x :: after) ++ [y] := by simp
    rw [hall, List.foldl_append, List.foldl_cons, List.foldl_nil]
    dsimp only
    rw [hcolumns]
    -- The definition behind the others adds a column at the end at most, so every name keeps its first column.
    have hindex : ∀ name, Column.index? (Column.putAll (flagsIn y)
          ((before ++ x :: after).foldl (Draft.add table) .empty).columns ++ (column? y).toList) name =
        some (before.filterMap declaration?).length ↔
        Column.index? ((before ++ x :: after).foldl (Draft.add table) .empty).columns name =
          some (before.filterMap declaration?).length := by
      intro name
      rw [Column.index?_append_eq_some_iff hk, Column.index?_congr (Column.map_declared_putAll ..)]
    refine ⟨c', (List.getElem?_append_left hk).trans hc', hdeclared'.trans hdeclared, fun flag => ?_⟩
    simp only [hindex, List.flatMap_append, List.flatMap_singleton, List.mem_append, or_and_right, exists_or]
    rw [hon', hon, or_assoc]

end Run
end Draft

/-! ## Blocks -/

namespace ColumnBlock

/-- The flags that the options of a table put on columns. -/
def optionFlags (b : ColumnBlock) : List (KeyFlag × String) :=
  (b.option "SORTKEY").map (fun name => (.sort, name)) ++ (b.option "DISTKEY").map fun name => (.dist, name)

theorem columns_draft (b : ColumnBlock) (table : String) : (b.draft table).columns =
    Column.putAll b.optionFlags ((definitionsOf b.definitions).foldl (Draft.add table) .empty).columns := by
  rw [optionFlags, Column.putAll, List.foldl_append, List.foldl_map, List.foldl_map]
  rfl

section Block
variable {b : ColumnBlock} {table name : String} {x : List Token} {before after : List (List Token)} {c₀ : Column}

theorem map_declared_read (b : ColumnBlock) (table : String) : (b.read table).definition.columns.map Column.declared =
    (definitionsOf b.definitions).filterMap declaration? :=
  (b.map_declared_draft table).trans (Draft.map_declared_foldl_add table _)

/-- The column of a definition in the table of a block. A flag is on when the definition says so, or when a constraint
behind it or an option puts the flag on a name of which the column is the first one. -/
theorem getElem?_read (table : String) (hdefs : definitionsOf b.definitions = before ++ x :: after)
    (hx : column? x = some c₀) :
    let t := (b.read table).definition
    let k := (before.filterMap declaration?).length
    ∃ c, t.columns[k]? = some c ∧ c.declared = c₀.declared ∧ ∀ flag : KeyFlag, flag.isOn c = true ↔
      flag.isOn c₀ = true ∨ ∃ name, (flag, name) ∈ after.flatMap flagsIn ++ b.optionFlags ∧
        t.columnIndex? name = some k := by
  intro t k
  obtain ⟨c, hc, hdeclared, hon⟩ := Draft.getElem?_foldl_add table before after hx
  rw [← hdefs] at hc hon
  obtain ⟨c', hc', hdeclared', hon'⟩ := Column.getElem?_putAll b.optionFlags hc
  have hindex : ∀ name, t.columnIndex? name =
      Column.index? ((definitionsOf b.definitions).foldl (Draft.add table) .empty).columns name :=
    Column.index?_congr (b.map_declared_draft table)
  refine ⟨c', ?_, hdeclared'.trans hdeclared, fun flag => ?_⟩
  · rw [← b.columns_draft table] at hc'
    exact hc'
  · simp only [hindex, List.mem_append, or_and_right, exists_or]
    rw [hon', hon, or_assoc]

/-! ### Primary keys -/

/-- A constraint lists the name right behind its first `PRIMARY KEY`, and it says `FOREIGN KEY` nowhere. -/
structure ListsPrimaryKey (definition : List Token) (name : String) : Prop where
  kind : Draft.isConstraint definition = true
  notForeign : ∀ i, ¬ PairAt "FOREIGN" "KEY" definition i
  listed : ∃ i names, FirstPairAt "PRIMARY" "KEY" definition i ∧ nameList? definition (i + 2) = some names ∧
    name ∈ names.names

theorem mem_primaryKeyNames_iff : name ∈ primaryKeyNames x ↔ (∀ i, ¬ PairAt "FOREIGN" "KEY" x i) ∧
    ∃ i names, FirstPairAt "PRIMARY" "KEY" x i ∧ nameList? x (i + 2) = some names ∧ name ∈ names.names := by
  have hlist : ∀ i, (nameList? (x.drop (i + 2)) 0).map NameList.names = (nameList? x (i + 2)).map NameList.names := by
    intro i
    have hdrop := nameList?_drop (i + 2) 0 x
    rw [Nat.add_zero] at hdrop
    rw [hdrop, Option.map_map]
    rfl
  unfold primaryKeyNames
  rcases behindPair?_cases "FOREIGN" "KEY" x with ⟨i, hi, hforeign⟩ | ⟨hno, hforeign⟩
  · rw [hforeign]
    exact iff_of_false List.not_mem_nil fun h => h.1 i hi.1
  · rw [hforeign, and_iff_right hno]
    rcases behindPair?_cases "PRIMARY" "KEY" x with ⟨i, hi, hprimary⟩ | ⟨hno', hprimary⟩
    · simp only [hprimary, Option.bind_some, hlist]
      constructor
      · intro h
        cases hnames : nameList? x (i + 2) with
        | none => simp [hnames] at h
        | some names => exact ⟨i, names, hi, hnames, by simpa [hnames] using h⟩
      · rintro ⟨j, names, hj, hnames, hname⟩
        obtain rfl := hi.unique hj
        rw [hnames]
        exact hname
    · rw [hprimary]
      refine iff_of_false List.not_mem_nil ?_
      rintro ⟨i, -, hi, -⟩
      exact hno' i hi.1

theorem mem_flagsIn_iff {flag : KeyFlag} : (flag, name) ∈ flagsIn x ↔ flag = .primary ∧ ListsPrimaryKey x name ∨
    flag = .foreign ∧ Draft.isConstraint x = true ∧ ∃ r ∈ referencesIn x, r.localColumn = name := by
  unfold flagsIn
  split
  · next h =>
    simp only [List.mem_append, List.mem_map, Prod.mk.injEq]
    constructor
    · rintro (⟨r, hr, rfl, rfl⟩ | ⟨_, hname, rfl, rfl⟩)
      · exact .inr ⟨rfl, h, r, hr, rfl⟩
      · obtain ⟨hforeign, hlisted⟩ := mem_primaryKeyNames_iff.mp hname
        exact .inl ⟨rfl, h, hforeign, hlisted⟩
    · rintro (⟨rfl, -, hforeign, hlisted⟩ | ⟨rfl, -, r, hr, rfl⟩)
      · exact .inr ⟨name, mem_primaryKeyNames_iff.mpr ⟨hforeign, hlisted⟩, rfl, rfl⟩
      · exact .inl ⟨r, hr, rfl, rfl⟩
  · next h =>
    refine iff_of_false List.not_mem_nil ?_
    rintro (⟨-, hlists⟩ | ⟨-, hkind, -⟩)
    · exact h hlists.kind
    · exact h hkind

/-! ### Definitions of columns -/

theorem referencesIn_of_not_constraint (h : Draft.isConstraint x = false) :
    referencesIn x = ((declaration? x).bind fun d => columnReference? d.1 x).toList := by
  unfold referencesIn declaration? declared?
  rw [h]
  cases x.head?.bind columnName? with
  | none => rfl
  | some name => cases declaredType? x.tail <;> rfl

theorem isOn_column? (hx : column? x = some c₀) :
    (KeyFlag.primary.isOn c₀ = true ↔ ∃ i, PairAt "PRIMARY" "KEY" x i) ∧
    (KeyFlag.foreign.isOn c₀ = true ↔ ∃ r, r ∈ referencesIn x) ∧
    (KeyFlag.sort.isOn c₀ = true ↔ ∃ u ∈ x, u.isWord "SORTKEY" = true) ∧
    (KeyFlag.dist.isOn c₀ = true ↔ ∃ u ∈ x, u.isWord "DISTKEY" = true) := by
  have hreferences := referencesIn_of_not_constraint (flagsIn_of_column hx).1
  obtain ⟨d, hd, rfl⟩ := Option.map_eq_some_iff.mp hx
  rw [hd, Option.bind_some] at hreferences
  refine ⟨isSome_behindPair?_iff, ?_, List.any_eq_true, List.any_eq_true⟩
  rw [hreferences]
  simp only [Option.mem_toList]
  exact Option.isSome_iff_exists

theorem localColumn_of_column? (hx : column? x = some c₀) : ∀ r ∈ referencesIn x, r.localColumn = c₀.name := by
  intro r hr
  rw [referencesIn_of_not_constraint (flagsIn_of_column hx).1] at hr
  obtain ⟨d, hd, rfl⟩ := Option.map_eq_some_iff.mp hx
  rw [hd, Option.bind_some, Option.mem_toList] at hr
  exact localColumn_of_columnReference? hr

theorem exists_definition {definitions : List (List Token)} {k : Nat} {d : String × String}
    (h : (definitions.filterMap declaration?)[k]? = some d) : ∃ before x after, definitions = before ++ x :: after ∧
      (before.filterMap declaration?).length = k ∧ declaration? x = some d := by
  obtain ⟨hk, hget⟩ := List.getElem?_eq_some_iff.mp h
  have hsplit := (List.take_append_drop k (definitions.filterMap declaration?)).symm
  rw [List.drop_eq_getElem_cons hk, hget] at hsplit
  obtain ⟨front, rest, rfl, hfront, hrest⟩ := List.filterMap_eq_append_iff.mp hsplit
  obtain ⟨skipped, x, after, rfl, hskipped, hx, -⟩ := List.filterMap_eq_cons_iff.mp hrest
  refine ⟨front ++ skipped, x, after, (List.append_assoc ..).symm, ?_, hx⟩
  rw [List.filterMap_append, List.filterMap_eq_nil_iff.mpr hskipped, List.append_nil, hfront,
    List.length_take_of_le (Nat.le_of_lt hk)]

theorem exists_column? {d : String × String} (h : declaration? x = some d) : ∃ c, column? x = some c := by
  rw [column?, h]
  exact ⟨_, rfl⟩

/-- Every column comes from a definition, and has the flags that `getElem?_read` says. -/
theorem exists_origin {k : Nat} {c : Column} (hc : (b.read table).definition.columns[k]? = some c) :
    ∃ before x after c₀, definitionsOf b.definitions = before ++ x :: after ∧
      (before.filterMap declaration?).length = k ∧ column? x = some c₀ ∧ c.declared = c₀.declared ∧
      ∀ flag : KeyFlag, flag.isOn c = true ↔ flag.isOn c₀ = true ∨ ∃ name,
        (flag, name) ∈ after.flatMap flagsIn ++ b.optionFlags ∧
          (b.read table).definition.columnIndex? name = some k := by
  have hd : ((definitionsOf b.definitions).filterMap declaration?)[k]? = some c.declared := by
    rw [← map_declared_read b table, List.getElem?_map, hc, Option.map_some]
  obtain ⟨before, x, after, hdefs, rfl, hx⟩ := exists_definition hd
  obtain ⟨c₀, hc₀⟩ := exists_column? hx
  obtain ⟨c', hc', hdeclared, hon⟩ := getElem?_read table hdefs hc₀
  obtain rfl := Option.some.inj (hc.symm.trans hc')
  exact ⟨before, x, after, c₀, hdefs, rfl, hc₀, hdeclared, hon⟩

/-! ### Foreign keys -/

theorem columnIndex?_sameFold {t : Definition} {k : Nat} {c : Column} (hc : t.columns[k]? = some c)
    (hk : t.columnIndex? name = some k) : sameFold c.name name = true := by
  obtain ⟨hlt, hname, -⟩ := List.findIdx?_eq_some_iff_getElem.mp hk
  rw [List.getElem?_eq_getElem hlt] at hc
  rwa [Option.some.inj hc] at hname

theorem foreignKey_sound : ∀ c ∈ (b.read table).definition.columns, c.isForeignKey = true →
    ∃ r ∈ (b.read table).definition.references, sameFold r.localColumn c.name = true := by
  intro c hmem hon
  obtain ⟨k, hc⟩ := List.mem_iff_getElem?.mp hmem
  obtain ⟨before, x, after, c₀, hdefs, -, hx, hdeclared, hflags⟩ := exists_origin hc
  have hreferences : (b.read table).definition.references = (definitionsOf b.definitions).flatMap referencesIn :=
    b.references_draft table
  rw [hreferences, hdefs]
  rcases (hflags .foreign).mp hon with hown | ⟨name, hname, hk⟩
  · obtain ⟨r, hr⟩ := (isOn_column? hx).2.1.mp hown
    refine ⟨r, List.mem_flatMap.mpr ⟨x, by simp, hr⟩, ?_⟩
    have hname : c.name = c₀.name := congrArg Prod.fst hdeclared
    rw [localColumn_of_column? hx r hr, hname]
    exact sameFold_refl c₀.name
  · rcases List.mem_append.mp hname with hname | hname
    · obtain ⟨y, hy, hname⟩ := List.mem_flatMap.mp hname
      rcases mem_flagsIn_iff.mp hname with ⟨hflag, -⟩ | ⟨-, -, r, hr, rfl⟩
      · cases hflag
      · refine ⟨r, List.mem_flatMap.mpr ⟨y, by simp [hy], hr⟩, ?_⟩
        rw [sameFold_comm]
        exact columnIndex?_sameFold hc hk
    · simp [optionFlags] at hname

/-- A column that is declared in front of a constraint, or by the definition itself, when a key is about it. -/
theorem foreignKey_complete (hdefs : definitionsOf b.definitions = before ++ x :: after) {r : Reference}
    (hr : r ∈ referencesIn x) {d : String × String} (hd : d ∈ (before ++ [x]).filterMap declaration?)
    (hname : sameFold d.1 r.localColumn = true) : ∃ c ∈ (b.read table).definition.columns,
      sameFold c.name r.localColumn = true ∧ c.isForeignKey = true := by
  cases hkind : Draft.isConstraint x with
  | false =>
    have hadded := hr
    rw [referencesIn_of_not_constraint hkind, Option.mem_toList] at hadded
    obtain ⟨d', hx, -⟩ := Option.bind_eq_some_iff.mp hadded
    obtain ⟨c₀, hc₀⟩ := exists_column? hx
    obtain ⟨c, hc, hdeclared, hon⟩ := getElem?_read table hdefs hc₀
    have hsame : c.name = r.localColumn :=
      (congrArg Prod.fst hdeclared).trans (localColumn_of_column? hc₀ r hr).symm
    refine ⟨c, List.mem_of_getElem? hc, ?_, (hon .foreign).mpr (.inl ((isOn_column? hc₀).2.1.mpr ⟨r, hr⟩))⟩
    rw [hsame]
    exact sameFold_refl r.localColumn
  | true =>
    -- The first column of the name is the first one in front of the constraint, which names it.
    have hnone : declaration? x = none := if_pos hkind
    rw [List.filterMap_append, List.filterMap_cons_none hnone, List.filterMap_nil, List.append_nil] at hd
    have hfound : ((before.filterMap declaration?).findIdx? fun d => sameFold d.1 r.localColumn).isSome = true := by
      rw [List.findIdx?_isSome]
      exact List.any_eq_true.mpr ⟨d, hd, hname⟩
    obtain ⟨k, hk⟩ := Option.isSome_iff_exists.mp hfound
    have hindex : (b.read table).definition.columnIndex? r.localColumn = some k := by
      show Column.index? _ _ = _
      rw [Column.index?_eq_declared, map_declared_read, hdefs, List.filterMap_append, List.findIdx?_append, hk]
      rfl
    obtain ⟨hlt, -⟩ := List.findIdx?_eq_some_iff_getElem.mp hk
    obtain ⟨front, z, between, rfl, rfl, hz⟩ := exists_definition (List.getElem?_eq_getElem hlt)
    obtain ⟨c₀, hc₀⟩ := exists_column? hz
    rw [List.append_assoc, List.cons_append] at hdefs
    obtain ⟨c, hc, -, hon⟩ := getElem?_read table hdefs hc₀
    have hflag : (KeyFlag.foreign, r.localColumn) ∈ flagsIn x := mem_flagsIn_iff.mpr (.inr ⟨rfl, hkind, r, hr, rfl⟩)
    refine ⟨c, List.mem_of_getElem? hc, columnIndex?_sameFold hc hindex, (hon .foreign).mpr (.inr ?_)⟩
    exact ⟨r.localColumn, List.mem_append_left _ (List.mem_flatMap.mpr ⟨x, by simp, hflag⟩), hindex⟩

/-- What the definitions and the options say of the column at `k`, which the definition `x` declares. -/
structure HasKeyFlags (b : ColumnBlock) (t : Definition) (k : Nat) (c : Column) (x : List Token)
    (after : List (List Token)) : Prop where
  primary : c.isPrimaryKey = true ↔ (∃ i, PairAt "PRIMARY" "KEY" x i) ∨
    ∃ name, (∃ y ∈ after, ListsPrimaryKey y name) ∧ t.columnIndex? name = some k
  sort : c.isSortKey = true ↔ (∃ u ∈ x, u.isWord "SORTKEY" = true) ∨
    ∃ name ∈ b.option "SORTKEY", t.columnIndex? name = some k
  dist : c.isDistKey = true ↔ (∃ u ∈ x, u.isWord "DISTKEY" = true) ∨
    ∃ name ∈ b.option "DISTKEY", t.columnIndex? name = some k

theorem hasKeyFlags {t : Definition} {k : Nat} {c : Column} (hx : column? x = some c₀)
    (h : ∀ flag : KeyFlag, flag.isOn c = true ↔ flag.isOn c₀ = true ∨
      ∃ name, (flag, name) ∈ after.flatMap flagsIn ++ b.optionFlags ∧ t.columnIndex? name = some k) :
    HasKeyFlags b t k c x after := by
  obtain ⟨hprimary, -, hsort, hdist⟩ := isOn_column? hx
  simp only [optionFlags, List.mem_append, List.mem_flatMap, mem_flagsIn_iff] at h
  exact ⟨(h .primary).trans (or_congr hprimary (by simp)), (h .sort).trans (or_congr hsort (by simp)),
    (h .dist).trans (or_congr hdist (by simp))⟩

end Block

/-- The flags of the columns of a block. Foreign keys flag the columns that they are about, and no others, if those are
declared when the key is. A column is a primary key, a sort key or a distribution key just when its own definition says
so, or when it is the first column of a name that a later constraint or an option of the table lists. -/
theorem read_keyFlags (b : ColumnBlock) (table : String) :
    let t := (b.read table).definition
    let definitions := definitionsOf b.definitions
    (t.columns.map Column.declared = definitions.filterMap declaration? ∧
      t.references = definitions.flatMap referencesIn) ∧
    (∀ c ∈ t.columns, c.isForeignKey = true → ∃ r ∈ t.references, sameFold r.localColumn c.name = true) ∧
    (∀ before x after, definitions = before ++ x :: after → ∀ r ∈ referencesIn x,
      ∀ d ∈ (before ++ [x]).filterMap declaration?, sameFold d.1 r.localColumn = true →
        ∃ c ∈ t.columns, sameFold c.name r.localColumn = true ∧ c.isForeignKey = true) ∧
    ∀ k c, t.columns[k]? = some c → ∃ before x after, definitions = before ++ x :: after ∧
      (before.filterMap declaration?).length = k ∧ declaration? x = some c.declared ∧ HasKeyFlags b t k c x after := by
  refine ⟨⟨b.map_declared_read table, b.references_draft table⟩, foreignKey_sound, ?_, ?_⟩
  · exact fun before x after hdefs r hr d hd hname => foreignKey_complete hdefs hr hd hname
  · intro k c hc
    obtain ⟨before, x, after, c₀, hdefs, hk, hx, hdeclared, hflags⟩ := exists_origin hc
    have hdeclaration : declaration? x = some c.declared := by
      rw [← map_declared_column?, hx, Option.map_some, hdeclared]
    exact ⟨before, x, after, hdefs, hk, hdeclaration, hasKeyFlags hx hflags⟩

/-- Where `PRIMARY KEY` is said twice, the names behind the second one are not looked at. -/
theorem primaryKey_said_twice :
    let b : ColumnBlock := ⟨scan "a INT, CONSTRAINT PRIMARY KEY PRIMARY KEY (a)", [], [], true⟩
    let t := (b.read "t").definition
    ∃ x y, definitionsOf b.definitions = [x, y] ∧ declaration? x = some ("a", "INT") ∧
      Draft.isConstraint y = true ∧ (∀ i < y.length, ¬ PairAt "FOREIGN" "KEY" y i) ∧
      PairAt "PRIMARY" "KEY" y 3 ∧ (nameList? y 5).map NameList.names = some ["a"] ∧
      t.columnIndex? "a" = some 0 ∧ t.columns = [⟨"a", "INT", false, false, false, false, false⟩] := by
  refine ⟨(scan "a INT, CONSTRAINT PRIMARY KEY PRIMARY KEY (a)").take 2,
    (scan "a INT, CONSTRAINT PRIMARY KEY PRIMARY KEY (a)").drop 3, ?_⟩
  decide +kernel

end ColumnBlock
end SqlLineage
