/-!
# Maps in order of insertion

A map that remembers the order in which its keys came. A key that is inserted again keeps its place and
takes the new value.

* `find?`, `keys`, `values`: the views.
* `insert`, `erase`, `ofList`: the ways to build one.
-/

namespace SqlLineage
set_option autoImplicit false

/-! ## Distinct values -/

/-- A list of distinct values with `x` at the end, unless `x` is in it already. -/
def appendNew {α : Type} [DecidableEq α] (xs : List α) (x : α) : List α :=
  if x ∈ xs then xs else xs ++ [x]

theorem mem_appendNew {α : Type} [DecidableEq α] {xs : List α} {x y : α} :
    y ∈ appendNew xs x ↔ y ∈ xs ∨ y = x := by
  unfold appendNew
  split
  · next h =>
    constructor
    · exact .inl
    · rintro (h' | rfl)
      · exact h'
      · exact h
  · simp

theorem mem_foldl_appendNew {α : Type} [DecidableEq α] {xs ys : List α} {y : α} :
    y ∈ ys.foldl appendNew xs ↔ y ∈ xs ∨ y ∈ ys := by
  induction ys generalizing xs with
  | nil => simp
  | cons z ys ih => rw [List.foldl_cons, ih, mem_appendNew, List.mem_cons, or_assoc]

/-! ## Maps -/

/-- Keys and values in the order in which the keys were first inserted. -/
structure OrderedMap (κ ν : Type) where
  entries : List (κ × ν)

namespace OrderedMap
variable {κ ν : Type} [DecidableEq κ]

def empty : OrderedMap κ ν := ⟨[]⟩

def find? (m : OrderedMap κ ν) (k : κ) : Option ν :=
  m.entries.lookup k

def keys (m : OrderedMap κ ν) : List κ :=
  m.entries.map Prod.fst

def values (m : OrderedMap κ ν) : List ν :=
  m.entries.map Prod.snd

/-- Sets a key in a list of entries: in place if it is there, else at the end. -/
def set (k : κ) (v : ν) : List (κ × ν) → List (κ × ν)
  | [] => [(k, v)]
  | e :: es => if e.1 = k then (k, v) :: es else e :: set k v es

def insert (m : OrderedMap κ ν) (k : κ) (v : ν) : OrderedMap κ ν :=
  ⟨set k v m.entries⟩

/-- The map without the key `k`; the other keys keep their order. -/
def erase (m : OrderedMap κ ν) (k : κ) : OrderedMap κ ν :=
  ⟨m.entries.filter fun e => e.1 ≠ k⟩

def ofList (es : List (κ × ν)) : OrderedMap κ ν :=
  es.foldl (fun m e => m.insert e.1 e.2) empty

@[simp] theorem find?_empty (k : κ) : (empty : OrderedMap κ ν).find? k = none := rfl

theorem lookup_set (k k' : κ) (v : ν) (es : List (κ × ν)) :
    (set k v es).lookup k' = if k' = k then some v else es.lookup k' := by
  induction es with
  | nil => grind [set]
  | cons e es ih => grind [set]

theorem find?_insert (m : OrderedMap κ ν) (k k' : κ) (v : ν) :
    (m.insert k v).find? k' = if k' = k then some v else m.find? k' :=
  lookup_set k k' v m.entries

theorem find?_erase (m : OrderedMap κ ν) (k k' : κ) :
    (m.erase k).find? k' = if k' = k then none else m.find? k' := by
  unfold find? erase
  induction m.entries with
  | nil => simp
  | cons e es ih => grind

theorem map_fst_set (k : κ) (v : ν) (es : List (κ × ν)) :
    (set k v es).map Prod.fst = appendNew (es.map Prod.fst) k := by
  induction es with
  | nil => simp [set, appendNew]
  | cons e es ih => grind [set, appendNew]

theorem keys_insert (m : OrderedMap κ ν) (k : κ) (v : ν) :
    (m.insert k v).keys = appendNew m.keys k :=
  map_fst_set k v m.entries

end OrderedMap

end SqlLineage
