import Mathlib.Order.Bounds.Basic
import SqlLineage.Proofs.Registry.Usage
import SqlLineage.Proofs.Script.Stubs

/-! # Reachable registries

Whatever operations an inventory has seen, the index of its registry pairs the upper-cased names with the slots, and
what a further operation does to a slot can be told from the slot alone.

* `Registry.Continued`: one registry comes from another one without a slot that is lost or moved. `f` says how names
  are spelled now, and definitions have been filed into the slots of a list.
* `Operation.continued_run`, `Operation.continued_runAll`: one operation, and any sequence of them.
* `Operation.index_runAll`: names, keys and slots of a reachable registry, and of all that come from it.
* `Operation.exists_runAll_ofStatements`: what a script reaches, operations reach too.
* `Operation.unusedName_runAll`: the name that a reachable registry finds for a new definition. -/

namespace SqlLineage
open SqlLineage.Text
set_option autoImplicit false

/-! ## Keys are distinct -/

namespace Registry
variable {r : Registry}

theorem nodup_keys_append (h : r.index.keys.Nodup) (d : Definition) : (r.append d).index.keys.Nodup := by
  show (r.index.insert _ _).keys.Nodup
  rw [OrderedMap.keys_insert]
  exact nodup_appendNew h _

theorem nodup_keys_rename (h : r.index.keys.Nodup) (i : Nat) (old new : String) :
    (r.rename i old new).index.keys.Nodup := by
  show ((r.index.erase _).insert _ _).keys.Nodup
  rw [OrderedMap.keys_insert]
  apply nodup_appendNew
  exact h.sublist (List.filter_sublist.map Prod.fst)

theorem nodup_keys_define (h : r.index.keys.Nodup) (d : Definition) : (r.define d).registry.index.keys.Nodup := by
  rcases define_cases r d with ⟨-, hd⟩ | ⟨i, old, -, -, -, hd⟩ | ⟨i, old, -, -, hd⟩
  · rw [hd]
    exact nodup_keys_append h d
  · rw [hd]
    exact nodup_keys_append (nodup_keys_rename h i _ _) _
  · rw [hd]
    exact h

theorem nodup_keys_fileAll (h : r.index.keys.Nodup) (ds : List Definition) : (r.fileAll ds).index.keys.Nodup := by
  induction ds generalizing r with
  | nil => exact h
  | cons d ds ih => exact ih (nodup_keys_define h d)

theorem Coherent.mem_entries_iff (h : r.Coherent) (hkeys : r.index.keys.Nodup) {k : String} {i : Nat} :
    (k, i) ∈ r.index.entries ↔ ∃ d, r.slots[i]? = some d ∧ upper d.name = k := by
  have hfind : (k, i) ∈ r.index.entries ↔ r.index.find? k = some i := by
    constructor
    · intro hmem
      have hfilter : (k, i) ∈ r.index.entries.filter fun e => e.1 = k := by simp [hmem]
      rw [OrderedMap.filter_entries hkeys] at hfilter
      obtain ⟨j, hj, heq⟩ := List.mem_map.mp hfilter
      rw [← (Prod.mk.inj heq).2]
      exact Option.mem_toList.mp hj
    · exact OrderedMap.mem_of_find?
  rw [hfind]
  constructor
  · exact h.slot_of_key k i
  · rintro ⟨d, hd, rfl⟩
    exact h.key_of_slot i d hd

/-! ## Slots stay where they are -/

/-- The names of `r` have been respelled by `f`, definitions have been filed into the slots `filed`, and this made
`r'`. A new spelling differs in case only, or nothing in `r` had it; so no slot takes the name of another one. -/
structure Continued (f : String → String) (filed : List Nat) (r r' : Registry) : Prop where
  spelling : ∀ name, upper (f name) = upper name ∨ r.defines (f name) = false
  defines : ∀ name, r.defines name = true → r'.defines name = true
  slot : ∀ i d, r.slots[i]? = some d → ∃ d', r'.slots[i]? = some d' ∧
    (upper d'.name = upper d.name ∨ r.defines d'.name = false) ∧ (i ∉ filed → d' = d.respelled f)

theorem Continued.free {f : String → String} {filed : List Nat} {r' : Registry} (h : Continued f filed r r')
    {name : String} (hn : r'.defines name = false) : r.defines name = false := by
  rw [← Bool.not_eq_true]
  intro hd
  rw [h.defines name hd] at hn
  cases hn

theorem Continued.trans {f g : String → String} {filed filed' : List Nat} {r' r'' : Registry}
    (h : Continued f filed r r') (h' : Continued g filed' r' r'') : Continued (g ∘ f) (filed ++ filed') r r'' where
  spelling := by
    intro name
    show upper (g (f name)) = _ ∨ r.defines (g (f name)) = _
    rcases h'.spelling (f name) with hsame | hfree
    · rcases h.spelling name with hn | hn
      · exact .inl (hsame.trans hn)
      · exact .inr ((defines_congr r hsame).trans hn)
    · exact .inr (h.free hfree)
  defines := by
    intro name hn
    exact h'.defines name (h.defines name hn)
  slot := by
    intro i d hi
    obtain ⟨d', hd', hname, heq⟩ := h.slot i d hi
    obtain ⟨d'', hd'', hname', heq'⟩ := h'.slot i d' hd'
    refine ⟨d'', hd'', ?_, ?_⟩
    · rcases hname' with hsame | hfree
      · rcases hname with hn | hn
        · exact .inl (hsame.trans hn)
        · exact .inr ((defines_congr r hsame).trans hn)
      · exact .inr (h.free hfree)
    · intro hnot
      rw [List.mem_append, not_or] at hnot
      rw [heq' hnot.2, heq hnot.1, Definition.respelled_respelled]

theorem Coherent.continued_of_prefix {r' : Registry} (h : r.Coherent) (h' : r'.Coherent)
    (hp : r.slots <+: r'.slots) : Continued id [] r r' where
  spelling := fun _ => .inl rfl
  defines := by
    intro name hn
    obtain ⟨d, hd, hdn⟩ := h.defines_iff.mp hn
    exact h'.defines_iff.mpr ⟨d, hp.subset hd, hdn⟩
  slot := by
    intro i d hi
    obtain ⟨rest, hrest⟩ := hp
    refine ⟨d, ?_, .inl rfl, fun _ => (Definition.respelled_id d).symm⟩
    rw [← hrest, List.getElem?_append_left (List.getElem?_eq_some_iff.mp hi).1]
    exact hi

theorem upper_respellOne_or_free (r : Registry) (d : Definition) (name : String) :
    upper (r.respellOne d name) = upper name ∨ r.defines (r.respellOne d name) = false := by
  unfold respellOne
  split
  · split
    · exact .inr (defines_unusedName r _)
    · exact .inl rfl
  · exact .inl rfl

theorem Coherent.continued_define (h : r.Coherent) (d : Definition) :
    Continued (r.respellOne d) [(r.define d).slot] r (r.define d).registry where
  spelling := r.upper_respellOne_or_free d
  defines := fun _ => h.defines_define d
  slot := by
    intro i e hi
    have hslot := h.getElem?_define d i
    by_cases hid : i = (r.define d).slot
    · rw [if_pos hid] at hslot
      refine ⟨_, hslot, .inl ?_, fun hnot => absurd (List.mem_singleton.mpr hid) hnot⟩
      -- the slot was there before, so what it held had the name of `d`
      rcases h.slot_define d with hnew | ⟨old, hold, hname⟩
      · have hlt := (List.getElem?_eq_some_iff.mp hi).1
        omega
      · rw [← hid, hi] at hold
        rw [Definition.name_mapReferenced, Option.some.inj hold, hname]
    · rw [if_neg hid, hi] at hslot
      exact ⟨_, hslot, r.upper_respellOne_or_free d e.name, fun _ => rfl⟩

end Registry

/-! ## One operation -/

namespace Operation
open Registry

theorem nodup_keys_fileIf (file : Bool) {inv : Inventory} (h : inv.registry.index.keys.Nodup) (d : Definition)
    (ctes? : Option CteBindings) : (fileIf file inv d ctes?).inventory.registry.index.keys.Nodup := by
  unfold fileIf
  split
  · exact nodup_keys_define h d
  · exact h

theorem nodup_keys_run {inv : Inventory} (h : inv.registry.index.keys.Nodup) (op : Operation) :
    (op.run inv).inventory.registry.index.keys.Nodup := by
  cases op with
  | define d => exact nodup_keys_define h d
  | observe use => exact h
  | report n => exact h
  | query ts name kind ctes columns file =>
    refine nodup_keys_fileIf file ?_ _ _
    rw [Query.registry_unwind]
    exact nodup_keys_fileAll h _
  | block b name file =>
    have ha : (inv.absorb (b.read name)).registry.index.keys.Nodup := h
    exact nodup_keys_fileIf file ha _ none
  | inferStubs =>
    show inv.inferStubs.registry.index.keys.Nodup
    rw [Inventory.registry_inferStubs]
    exact nodup_keys_fileAll h _

theorem continued_fileIf (file : Bool) {inv : Inventory} (h : inv.registry.Coherent) (d : Definition)
    (ctes? : Option CteBindings) : ∃ f, Continued f (fileIf file inv d ctes?).slot?.toList inv.registry
      (fileIf file inv d ctes?).inventory.registry := by
  unfold fileIf
  split
  · exact ⟨_, h.continued_define d⟩
  · exact ⟨id, h.continued_of_prefix h (List.prefix_refl _)⟩

/-- The common table expressions of a query take new slots, whatever its bindings are. -/
theorem continued_unwind {inv : Inventory} (h : inv.registry.Coherent) (q : Query) (name : String)
    (kind : Definition.Kind) (ctes : CteBindings) :
    Continued id [] inv.registry (q.unwind name kind inv ctes).inventory.registry := by
  refine h.continued_of_prefix (Inventory.coherent_unwind q name kind ctes h) ?_
  rw [q.registry_unwind]
  refine h.prefix_fileAll h (List.prefix_refl _) fun d hd => ?_
  obtain ⟨g, hg, rfl⟩ := List.mem_map.mp hd
  refine ⟨g.kind_definition, ?_⟩
  rw [g.name_definition]
  exact @Query.free_of_mem_filings q ⟨inv.registry, ctes⟩ h g hg

theorem continued_inferStubs {inv : Inventory} (h : inv.registry.Coherent) :
    Continued inv.stubbed.canonicalName [] inv.registry inv.inferStubs.registry where
  spelling := fun name => .inl ((Inventory.coherent_stubbed h).upper_canonicalName name)
  defines := by
    intro name hn
    obtain ⟨d, hd, hdn⟩ := h.defines_iff.mp hn
    refine (Inventory.coherent_inferStubs h).defines_iff.mpr
      ⟨d.mapReferenced inv.stubbed.canonicalName, ?_, hdn⟩
    rw [Inventory.slots_inferStubs h]
    exact List.mem_map_of_mem (List.mem_append_left _ hd)
  slot := by
    intro i d hi
    have hs : d ∈ inv.stubbed.slots := by
      rw [Inventory.slots_stubbed h]
      exact List.mem_append_left _ (List.mem_of_getElem? hi)
    refine ⟨d.mapReferenced inv.stubbed.canonicalName, ?_, .inl rfl, fun _ => ?_⟩
    · rw [Inventory.slots_inferStubs h, List.getElem?_map,
        List.getElem?_append_left (List.getElem?_eq_some_iff.mp hi).1, hi]
      rfl
    · -- a definition is its own canonical spelling
      rw [Definition.respelled, (Inventory.coherent_stubbed h).canonicalName_of_mem hs rfl]
      rfl

theorem continued_run {inv : Inventory} (h : inv.registry.Coherent) (op : Operation) :
    ∃ f, Continued f (op.run inv).slot?.toList inv.registry (op.run inv).inventory.registry := by
  have hself : Continued id [] inv.registry inv.registry := h.continued_of_prefix h (List.prefix_refl _)
  cases op with
  | define d => exact continued_fileIf true h d none
  | observe use => exact ⟨id, hself⟩
  | report n => exact ⟨id, hself⟩
  | query ts name kind ctes columns file =>
    obtain ⟨f, hf⟩ := continued_fileIf file (Inventory.coherent_unwind (.ofTokens ts) name kind ctes h)
      (((Query.ofTokens ts).unwind name kind inv ctes).definition.renameColumns columns)
      (some ((Query.ofTokens ts).unwind name kind inv ctes).ctes)
    exact ⟨_, (continued_unwind h (.ofTokens ts) name kind ctes).trans hf⟩
  | block b name file =>
    have ha : (inv.absorb (b.read name)).registry.Coherent := h
    exact continued_fileIf file ha _ none
  | inferStubs => exact ⟨_, continued_inferStubs h⟩

/-! ## Any sequence of operations -/

/-- The slots into which the operations file a definition that is not a common table expression of a query. -/
def filedSlots (inv : Inventory) : List Operation → List Nat
  | [] => []
  | op :: ops => (op.run inv).slot?.toList ++ filedSlots (op.run inv).inventory ops

theorem nodup_keys_runAll (ops : List Operation) : (runAll .empty ops).registry.index.keys.Nodup := by
  have hall : ∀ inv : Inventory, inv.registry.index.keys.Nodup → (runAll inv ops).registry.index.keys.Nodup := by
    induction ops with
    | nil => exact fun inv h => h
    | cons op ops ih => exact fun inv h => ih _ (nodup_keys_run h op)
  exact hall .empty List.nodup_nil

theorem continued_runAll {inv : Inventory} (h : inv.registry.Coherent) (ops : List Operation) :
    ∃ f, Continued f (filedSlots inv ops) inv.registry (runAll inv ops).registry := by
  induction ops generalizing inv with
  | nil => exact ⟨id, h.continued_of_prefix h (List.prefix_refl _)⟩
  | cons op ops ih =>
    obtain ⟨f, hf⟩ := continued_run h op
    obtain ⟨g, hg⟩ := ih (coherent_run h op)
    exact ⟨g ∘ f, hf.trans hg⟩

/-- The registry of every reachable inventory. Its index is a bijection between the upper-cased names of the
definitions and the slots, so looking a name up gives the one definition that has it in some case. Behind any
further operations its keys are still there, and so are its slots, in their places. -/
theorem index_runAll (ops : List Operation) :
    let r := (runAll .empty ops).registry
    r.index.keys.Nodup ∧
      (∀ k i, (k, i) ∈ r.index.entries ↔ ∃ d, r.slots[i]? = some d ∧ upper d.name = k) ∧
      (r.slots.map fun d => upper d.name).Nodup ∧
      (∀ name d, r.lookup name = some d ↔ d ∈ r.slots ∧ upper d.name = upper name) ∧
      ∀ more, let r' := (runAll .empty (ops ++ more)).registry
        (∀ k ∈ r.index.keys, k ∈ r'.index.keys) ∧
        ∃ f, r.Continued f (filedSlots (runAll .empty ops) more) r' := by
  intro r
  have hr : r.Coherent := coherent_runAll ops
  have hkeys : r.index.keys.Nodup := nodup_keys_runAll ops
  refine ⟨hkeys, fun k i => hr.mem_entries_iff hkeys, hr.nodup_upper, fun name d => hr.lookup_eq_some_iff, ?_⟩
  intro more r'
  have hsplit : r' = (runAll (runAll .empty ops) more).registry := by
    show (runAll .empty (ops ++ more)).registry = _
    rw [runAll, List.foldl_append]
    rfl
  obtain ⟨f, hf⟩ := continued_runAll hr more
  rw [← hsplit] at hf
  refine ⟨fun k hk => ?_, f, hf⟩
  obtain ⟨⟨k', i⟩, hentry, rfl⟩ := List.mem_map.mp hk
  obtain ⟨d, hd, rfl⟩ := (hr.mem_entries_iff hkeys).mp hentry
  exact mem_keys_of_defines (hf.defines d.name (hr.defines_iff.mpr ⟨d, List.mem_of_getElem? hd, rfl⟩))

/-! ## What scripts reach -/

theorem runAll_append (inv : Inventory) (ops more : List Operation) :
    runAll inv (ops ++ more) = runAll (runAll inv ops) more :=
  List.foldl_append

/-- A statement does to an inventory what one or two operations do. -/
theorem exists_runAll_addTo (resultName : String) (inv : Inventory) (s : Statement) :
    ∃ ops, runAll inv ops = s.addTo resultName inv := by
  have hquery : ∀ ts name kind, runAll inv [.query ts name kind .empty [] true] =
      Statement.addQuery inv ts name kind id := by
    intro ts name kind
    show Inventory.define _ (Definition.renameColumns _ []) = _
    rw [Definition.renameColumns_nil]
    rfl
  cases s with
  | createTable name body =>
    cases body with
    | columns b =>
      cases hclosed : b.closed with
      | true => exact ⟨[.block b name true], by rw [Statement.addTo, hclosed]; rfl⟩
      | false => exact ⟨[.report (.unclosedBlock name), .block b name true], by rw [Statement.addTo, hclosed]; rfl⟩
    | query ts => exact ⟨_, hquery ts name .table⟩
    | empty => exact ⟨[.define (.bare name .table)], rfl⟩
  | createView name columns ts => exact ⟨[.query ts name .view .empty columns true], rfl⟩
  | query ts => exact ⟨_, hquery ts _ .view⟩

theorem exists_runAll_addText (resultName : String) (inv : Inventory) (text : String) :
    ∃ ops, runAll inv ops = Statement.addText resultName inv text := by
  unfold Statement.addText
  split
  · next s _ => exact exists_runAll_addTo resultName inv s
  · exact ⟨[.report (.skipped (Statement.summary text))], rfl⟩

/-- The inventory behind any statements of a script is one that operations reach. -/
theorem exists_runAll_ofStatements (resultName : String) (texts : List String) :
    ∃ ops, runAll .empty ops = Inventory.ofStatements resultName texts := by
  have hall : ∀ inv, ∃ ops, runAll inv ops = texts.foldl (Statement.addText resultName) inv := by
    induction texts with
    | nil => exact fun inv => ⟨[], rfl⟩
    | cons text texts ih =>
      intro inv
      obtain ⟨ops, hops⟩ := exists_runAll_addText resultName inv text
      obtain ⟨more, hmore⟩ := ih (Statement.addText resultName inv text)
      refine ⟨ops ++ more, ?_⟩
      rw [runAll_append, hops, hmore]
      rfl
  exact hall .empty

/-! ## Fresh names -/

/-- The name that a reachable registry finds for `base` is one that no definition has in any case. It is `base` itself
if no definition has that, and else `base k` with the least `k` from 2 on for which `base k` is free. -/
theorem unusedName_runAll (ops : List Operation) (base : String) :
    let r := (runAll .empty ops).registry
    ¬ Taken r.slots (r.unusedName base) ∧
      if Taken r.slots base then
        ∃ k, IsLeast {k | 2 ≤ k ∧ ¬ Taken r.slots (base ++ " " ++ toString k)} k ∧
          r.unusedName base = base ++ " " ++ toString k
      else r.unusedName base = base := by
  intro r
  have hr : r.Coherent := coherent_runAll ops
  obtain ⟨hfree, hfirst⟩ := hr.firstFree_unusedName base
  refine ⟨hfree, ?_⟩
  split
  · next htaken =>
    rcases hfirst with hbase | ⟨-, k, hk, hname, hbefore⟩
    · rw [hbase] at hfree
      exact absurd htaken hfree
    · refine ⟨k, ⟨⟨hk, hname ▸ hfree⟩, fun j hj => ?_⟩, hname⟩
      by_contra hlt
      exact hj.2 (hbefore j hj.1 (Nat.lt_of_not_le hlt))
  · next hbase =>
    rcases hfirst with hname | ⟨htaken, -⟩
    · exact hname
    · exact absurd htaken hbase

/-- A gap in the numbers is filled, and case makes no difference. -/
example : (runAll .empty (["q", "Q 2", "q 4"].map fun name => .define (.bare name .view))).registry.unusedName "Q" =
    "Q 3" := by
  decide +kernel

end Operation
end SqlLineage
