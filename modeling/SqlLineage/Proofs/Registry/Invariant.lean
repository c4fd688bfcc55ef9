import SqlLineage.Proofs.Registry.FreshName

/-! # The registry and its index

* `Registry.Coherent`: the index leads from every filed key to the slot of that name, and every slot is
  filed under its name. So a name has one definition at most, whatever its case.
* `FirstFree`: the name that is found instead of one that is taken.
* `Registry.define_cases`: the three things that filing a definition can do. Everything that later
  modules say about filing is read off from it.
* `Registry.Coherent.define`: filing keeps the registry coherent. The step that needs an argument is the
  move of a common table expression, which frees a key and takes an unused one. -/

namespace SqlLineage
open SqlLineage.Text
set_option autoImplicit false

/-- Some definition has the name, in whatever case. -/
def Taken (ds : List Definition) (name : String) : Prop :=
  ∃ d ∈ ds, upper d.name = upper name

instance (ds : List Definition) (name : String) : Decidable (Taken ds name) :=
  inferInstanceAs (Decidable (∃ d ∈ ds, upper d.name = upper name))

/-- The name is free: it is `base`, or the first free one among `base 2`, `base 3` and so on if `base` is taken. -/
structure FirstFree (ds : List Definition) (base name : String) : Prop where
  free : ¬ Taken ds name
  first : name = base ∨ Taken ds base ∧ ∃ k, 2 ≤ k ∧ name = base ++ " " ++ toString k ∧
    ∀ j, 2 ≤ j → j < k → Taken ds (base ++ " " ++ toString j)

namespace Registry

/-- The index and the slots say the same. -/
structure Coherent (r : Registry) : Prop where
  slot_of_key : ∀ k i, r.index.find? k = some i → ∃ d, r.slots[i]? = some d ∧ upper d.name = k
  key_of_slot : ∀ i d, r.slots[i]? = some d → r.index.find? (upper d.name) = some i

theorem coherent_empty : empty.Coherent where
  slot_of_key := by
    intro k i h
    simp [empty] at h
  key_of_slot := by
    intro i d h
    simp [empty] at h

/-! ## Finding in a coherent registry -/

theorem defines_congr (r : Registry) {a b : String} (h : upper a = upper b) : r.defines a = r.defines b := by
  unfold defines lookup find?
  rw [h]

section Finding
variable {r : Registry}

theorem Coherent.slot_unique (h : r.Coherent) {i j : Nat} {d e : Definition}
    (hi : r.slots[i]? = some d) (hj : r.slots[j]? = some e) (hn : upper d.name = upper e.name) : i = j := by
  have hd := h.key_of_slot i d hi
  have he := h.key_of_slot j e hj
  rw [hn, he] at hd
  exact (Option.some.inj hd).symm

theorem Coherent.find?_eq_some_iff (h : r.Coherent) {name : String} {i : Nat} {d : Definition} :
    r.find? name = some (i, d) ↔ r.slots[i]? = some d ∧ upper d.name = upper name := by
  unfold find?
  constructor
  · intro hf
    obtain ⟨j, hj, hm⟩ := Option.bind_eq_some_iff.mp hf
    obtain ⟨e, he, hp⟩ := Option.map_eq_some_iff.mp hm
    obtain ⟨rfl, rfl⟩ := Prod.mk.inj hp
    obtain ⟨e', he', hk⟩ := h.slot_of_key _ _ hj
    rw [he] at he'
    exact ⟨he, Option.some.inj he' ▸ hk⟩
  · rintro ⟨hs, hn⟩
    rw [← hn, h.key_of_slot i d hs]
    simp [hs]

theorem Coherent.find?_eq_none_iff (h : r.Coherent) {name : String} :
    r.find? name = none ↔ ∀ d ∈ r.slots, upper d.name ≠ upper name := by
  constructor
  · intro hf d hd hn
    obtain ⟨i, hi⟩ := List.mem_iff_getElem?.mp hd
    rw [h.find?_eq_some_iff.mpr ⟨hi, hn⟩] at hf
    cases hf
  · intro hall
    cases hf : r.find? name with
    | none => rfl
    | some p =>
      obtain ⟨hs, hn⟩ := h.find?_eq_some_iff.mp (show r.find? name = some (p.1, p.2) from hf)
      exact absurd hn (hall _ (List.mem_of_getElem? hs))

theorem Coherent.lookup_eq_some_iff (h : r.Coherent) {name : String} {d : Definition} :
    r.lookup name = some d ↔ d ∈ r.slots ∧ upper d.name = upper name := by
  unfold lookup
  constructor
  · intro hl
    obtain ⟨p, hp, rfl⟩ := Option.map_eq_some_iff.mp hl
    obtain ⟨hs, hn⟩ := h.find?_eq_some_iff.mp (show r.find? name = some (p.1, p.2) from hp)
    exact ⟨List.mem_of_getElem? hs, hn⟩
  · rintro ⟨hd, hn⟩
    obtain ⟨i, hi⟩ := List.mem_iff_getElem?.mp hd
    rw [h.find?_eq_some_iff.mpr ⟨hi, hn⟩]
    rfl

theorem Coherent.defines_iff (h : r.Coherent) {name : String} :
    r.defines name = true ↔ ∃ d ∈ r.slots, upper d.name = upper name := by
  unfold defines
  rw [Option.isSome_iff_exists]
  exact exists_congr fun d => h.lookup_eq_some_iff

theorem Coherent.defines_eq_false_iff (h : r.Coherent) {name : String} :
    r.defines name = false ↔ ∀ d ∈ r.slots, upper d.name ≠ upper name := by
  rw [← Bool.not_eq_true, h.defines_iff]
  exact ⟨fun hno d hd hn => hno ⟨d, hd, hn⟩, fun hall ⟨d, hd, hn⟩ => hall d hd hn⟩

theorem Coherent.upper_canonicalName (h : r.Coherent) (name : String) :
    upper (r.canonicalName name) = upper name := by
  unfold canonicalName
  cases hl : r.lookup name with
  | none => rfl
  | some d => exact (h.lookup_eq_some_iff.mp hl).2

theorem Coherent.nodup_upper (h : r.Coherent) : (r.slots.map fun d => upper d.name).Nodup := by
  rw [List.nodup_iff_getElem?_ne_getElem?]
  intro i j hij hj hne
  rw [List.length_map] at hj
  have hi : i < r.slots.length := by omega
  rw [List.getElem?_map, List.getElem?_map, List.getElem?_eq_getElem hj,
    List.getElem?_eq_getElem hi] at hne
  have := h.slot_unique (List.getElem?_eq_getElem hi) (List.getElem?_eq_getElem hj)
    (Option.some.inj hne)
  omega

end Finding

/-! ## What filing can do -/

/-- Filing a definition appends it, or moves the common table expression that has its name out of the
way and appends it, or puts it in the place of the definition that has its name. -/
theorem define_cases (r : Registry) (d : Definition) :
    (r.find? d.name = none ∧ r.define d = ⟨r.append d, r.slots.length, none⟩) ∨
    (∃ i old, r.find? d.name = some (i, old) ∧ old.kind = .cte ∧ d.kind ≠ .cte ∧
      r.define d = ⟨(r.rename i old.name (r.unusedName old.name)).append
        (d.redirect old.name (r.unusedName old.name)), r.slots.length, none⟩) ∨
    (∃ i old, r.find? d.name = some (i, old) ∧ (old.kind = .cte → d.kind = .cte) ∧
      r.define d = ⟨⟨r.slots.set i d, r.index⟩, i, some old⟩) := by
  cases hf : r.find? d.name with
  | none => exact .inl ⟨rfl, by simp [define, hf]⟩
  | some p =>
    obtain ⟨i, old⟩ := p
    by_cases hk : old.kind = .cte ∧ d.kind ≠ .cte
    · exact .inr (.inl ⟨i, old, rfl, hk.1, hk.2, by simp [define, hf, hk]⟩)
    · refine .inr (.inr ⟨i, old, rfl, ?_, by simp [define, hf, hk]⟩)
      intro hold
      by_contra hd
      exact hk ⟨hold, hd⟩

@[simp] theorem slots_append (r : Registry) (d : Definition) : (r.append d).slots = r.slots ++ [d] := rfl

theorem getElem?_slots_rename (r : Registry) (i j : Nat) (old new : String) :
    (r.rename i old new).slots[j]? =
      r.slots[j]?.map fun d => (if i = j then { d with name := new } else d).redirect old new := by
  unfold rename
  rw [List.getElem?_map, List.getElem?_modify, Option.map_eq_map, Option.map_map]
  rfl

theorem length_slots_rename (r : Registry) (i : Nat) (old new : String) :
    (r.rename i old new).slots.length = r.slots.length := by
  unfold rename
  rw [List.length_map, List.length_modify]

/-! ## Filing keeps the registry coherent -/

section Coherence
variable {r : Registry}

theorem Coherent.append (h : r.Coherent) {d : Definition} (hd : ∀ e ∈ r.slots, upper e.name ≠ upper d.name) :
    (r.append d).Coherent where
  slot_of_key := by
    intro k i hk
    unfold Registry.append at hk ⊢
    rw [OrderedMap.find?_insert] at hk
    split at hk
    · next hkd =>
      obtain rfl := Option.some.inj hk
      exact ⟨d, by simp, hkd.symm⟩
    · obtain ⟨e, he, hn⟩ := h.slot_of_key k i hk
      exact ⟨e, by rw [List.getElem?_append_left (List.getElem?_eq_some_iff.mp he).1]; exact he, hn⟩
  key_of_slot := by
    intro i e he
    unfold Registry.append at he ⊢
    rw [OrderedMap.find?_insert]
    rcases Nat.lt_trichotomy i r.slots.length with hi | rfl | hi
    · rw [List.getElem?_append_left hi] at he
      rw [if_neg (hd e (List.mem_of_getElem? he))]
      exact h.key_of_slot i e he
    · rw [List.getElem?_concat_length] at he
      rw [if_pos (by rw [Option.some.inj he])]
    · rw [List.getElem?_eq_none (by rw [List.length_append, List.length_singleton]; omega)] at he
      cases he

theorem Coherent.rename (h : r.Coherent) {i : Nat} {d : Definition} {new : String}
    (hi : r.slots[i]? = some d) (hnew : ∀ e ∈ r.slots, upper e.name ≠ upper new) :
    (r.rename i d.name new).Coherent where
  slot_of_key := by
    intro k j hk
    rw [getElem?_slots_rename]
    unfold Registry.rename at hk
    rw [OrderedMap.find?_insert, OrderedMap.find?_erase] at hk
    split at hk
    · next hkn =>
      obtain rfl := Option.some.inj hk
      exact ⟨_, by rw [hi]; rfl, by simp [hkn]⟩
    · split at hk
      · cases hk
      · next hkd =>
        obtain ⟨e, he, hn⟩ := h.slot_of_key k j hk
        have hij : i ≠ j := by
          rintro rfl
          rw [hi] at he
          obtain rfl := Option.some.inj he
          exact hkd hn.symm
        exact ⟨_, by rw [he]; rfl, by simp [hij, hn]⟩
  key_of_slot := by
    intro j e' he'
    rw [getElem?_slots_rename] at he'
    obtain ⟨e, he, rfl⟩ := Option.map_eq_some_iff.mp he'
    unfold Registry.rename
    rw [OrderedMap.find?_insert, OrderedMap.find?_erase]
    by_cases hij : i = j
    · simp [hij]
    · have hne : upper e.name ≠ upper d.name := fun hn => hij (h.slot_unique hi he hn.symm)
      simp only [if_neg hij, Definition.name_redirect, if_neg (hnew e (List.mem_of_getElem? he)), if_neg hne]
      exact h.key_of_slot j e he

theorem Coherent.set (h : r.Coherent) {i : Nat} {d old : Definition} (hi : r.slots[i]? = some old)
    (hn : upper old.name = upper d.name) : Coherent ⟨r.slots.set i d, r.index⟩ where
  slot_of_key := by
    intro k j hk
    obtain ⟨e, he, hek⟩ := h.slot_of_key k j hk
    by_cases hij : i = j
    · subst hij
      rw [hi] at he
      obtain rfl := Option.some.inj he
      exact ⟨d, List.getElem?_set_self (List.getElem?_eq_some_iff.mp hi).1, hn ▸ hek⟩
    · exact ⟨e, by rw [List.getElem?_set_ne hij]; exact he, hek⟩
  key_of_slot := by
    intro j e he
    by_cases hij : i = j
    · subst hij
      rw [List.getElem?_set_self (List.getElem?_eq_some_iff.mp hi).1] at he
      obtain rfl := Option.some.inj he
      exact hn ▸ h.key_of_slot i old hi
    · rw [List.getElem?_set_ne hij] at he
      exact h.key_of_slot j e he

theorem Coherent.mapReferenced (h : r.Coherent) (f : String → String) : (r.mapReferenced f).Coherent where
  slot_of_key := by
    intro k i hk
    obtain ⟨d, hd, hn⟩ := h.slot_of_key k i hk
    exact ⟨d.mapReferenced f, by simp [Registry.mapReferenced, hd], hn⟩
  key_of_slot := by
    intro i d' hd'
    simp only [Registry.mapReferenced, List.getElem?_map] at hd'
    obtain ⟨d, hd, rfl⟩ := Option.map_eq_some_iff.mp hd'
    exact h.key_of_slot i d hd

theorem Coherent.unusedName_ne (h : r.Coherent) (base : String) :
    ∀ e ∈ r.slots, upper e.name ≠ upper (r.unusedName base) :=
  h.defines_eq_false_iff.mp (defines_unusedName r base)

theorem Coherent.firstFree_unusedName (h : r.Coherent) (base : String) :
    FirstFree r.slots base (r.unusedName base) where
  free := by
    rintro ⟨d, hd, hn⟩
    exact h.unusedName_ne base d hd hn
  first := by
    by_cases hbase : r.defines base = true
    · obtain ⟨k, hk, hname, -, htaken⟩ := exists_unusedName_eq hbase
      exact .inr ⟨h.defines_iff.mp hbase, k, hk, hname, fun j hj hjk => h.defines_iff.mp (htaken j hj hjk)⟩
    · exact .inl (if_neg hbase)

theorem Coherent.rename_ne (h : r.Coherent) {i : Nat} {d : Definition} {new : String}
    (hi : r.slots[i]? = some d) (hnew : upper new ≠ upper d.name) :
    ∀ e ∈ (r.rename i d.name new).slots, upper e.name ≠ upper d.name := by
  intro e' he'
  obtain ⟨j, hj⟩ := List.mem_iff_getElem?.mp he'
  rw [getElem?_slots_rename] at hj
  obtain ⟨e, he, rfl⟩ := Option.map_eq_some_iff.mp hj
  by_cases hij : i = j
  · simpa [hij] using hnew
  · intro hn
    simp only [if_neg hij, Definition.name_redirect] at hn
    exact hij (h.slot_unique hi he hn.symm)

theorem Coherent.define (h : r.Coherent) (d : Definition) : (r.define d).registry.Coherent := by
  rcases define_cases r d with ⟨hf, hd⟩ | ⟨i, old, hf, -, -, hd⟩ | ⟨i, old, hf, -, hd⟩
  · rw [hd]
    exact h.append (h.find?_eq_none_iff.mp hf)
  · -- the move takes an unused name, so nothing has the old one when `d` is appended
    obtain ⟨hi, hn⟩ := h.find?_eq_some_iff.mp hf
    have hfresh := h.unusedName_ne old.name
    have hne : upper (r.unusedName old.name) ≠ upper old.name :=
      (hfresh old (List.mem_of_getElem? hi)).symm
    rw [hd]
    refine (h.rename hi hfresh).append ?_
    rw [Definition.name_redirect, ← hn]
    exact h.rename_ne hi hne
  · obtain ⟨hi, hn⟩ := h.find?_eq_some_iff.mp hf
    rw [hd]
    exact h.set hi hn

end Coherence
end Registry
end SqlLineage
