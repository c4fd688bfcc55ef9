import SqlLineage.Definition
import SqlLineage.OrderedMap

/-!
# The registry of definitions

Definitions stand in slots, in the order in which they came, and a slot is never removed. They are filed
under their names in upper case, so a name has one definition whatever its spelling.

* `Registry.find?`, `lookup`, `canonicalName`: from a name to its definition.
* `Registry.unusedName`: a name that no definition has.
* `Registry.define`: files a definition. A name that is taken changes its definition in place, except
  that a common table expression gives way to any other kind: it moves to an unused name, and every
  reference to it moves along.
-/

namespace SqlLineage
open SqlLineage.Text
set_option autoImplicit false

/-- Slots in the order of definition, and the slot of every upper-cased name. -/
structure Registry where
  slots : List Definition
  index : OrderedMap String Nat

namespace Registry

def empty : Registry := ⟨[], .empty⟩

/-! ## Finding definitions -/

/-- The definition of a name in any case, and its slot. -/
def find? (r : Registry) (name : String) : Option (Nat × Definition) :=
  (r.index.find? (upper name)).bind fun i => r.slots[i]?.map fun d => (i, d)

def lookup (r : Registry) (name : String) : Option Definition :=
  (r.find? name).map Prod.snd

def defines (r : Registry) (name : String) : Bool :=
  (r.lookup name).isSome

/-- The name as its definition spells it, or the name itself if it has none. -/
def canonicalName (r : Registry) (name : String) : String :=
  ((r.lookup name).map Definition.name).getD name

/-! ## Unused names -/

/-- The names tried instead of `base`: `base 2`, `base 3` and so on, one more than there are names. -/
def candidates (r : Registry) (base : String) : List String :=
  (List.range' 2 (r.index.entries.length + 1)).map fun k => base ++ " " ++ toString k

/-- The name `base` if it is free, or else the first free one among `base 2`, `base 3` and so on. -/
def unusedName (r : Registry) (base : String) : String :=
  if r.defines base then ((r.candidates base).find? fun n => !r.defines n).getD base else base

/-! ## Changing the registry -/

def append (r : Registry) (d : Definition) : Registry :=
  ⟨r.slots ++ [d], r.index.insert (upper d.name) r.slots.length⟩

/-- The registry in which the definition in slot `i`, called `old`, is called `new`; all references that
are spelled `old` follow. -/
def rename (r : Registry) (i : Nat) (old new : String) : Registry :=
  ⟨(r.slots.modify i fun d => { d with name := new }).map (·.redirect old new),
    (r.index.erase (upper old)).insert (upper new) i⟩

/-- What filing a definition leads to: the registry, the slot of the definition, and the definition
whose place it took. -/
structure Filed where
  registry : Registry
  slot : Nat
  replaced : Option Definition

def define (r : Registry) (d : Definition) : Filed :=
  match r.find? d.name with
  | none => ⟨r.append d, r.slots.length, none⟩
  | some (i, old) =>
    if old.kind = .cte ∧ d.kind ≠ .cte then
      let new := r.unusedName old.name
      ⟨(r.rename i old.name new).append (d.redirect old.name new), r.slots.length, none⟩
    else ⟨⟨r.slots.set i d, r.index⟩, i, some old⟩

def mapReferenced (r : Registry) (f : String → String) : Registry :=
  ⟨r.slots.map (·.mapReferenced f), r.index⟩

end Registry
end SqlLineage
