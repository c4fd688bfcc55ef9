import SqlLineage.Proofs.Registry.Filing

/-! # What becomes of a name

* `Registry.Coherent.defines_respell`: a name that has a definition has one behind every list of filings, under its
  spelling of then.
* `Registry.Keeps.upper_respell_append_ne`: a name that another slot takes in the course of the filings never becomes
  the name in a slot that is passed by.
* `Registry.Coherent.holds_fileAll`: the name of a table or view stays in its slot, where a definition of another kind
  than a common table expression has it, if no common table expression is filed under the name of a table or view.
* `Registry.Coherent.occupies_fileAll`: whatever has a name keeps it, or a table or view takes it. -/

namespace SqlLineage
open SqlLineage.Text
set_option autoImplicit false

namespace Registry
variable {r : Registry}

/-! ## Filings one list behind the other -/

theorem respell_append (r : Registry) (ds es : List Definition) (name : String) :
    r.respell (ds ++ es) name = (r.fileAll ds).respell es (r.respell ds name) := by
  induction ds generalizing r name with
  | nil => rfl
  | cons d ds ih => exact ih (r.define d).registry (r.respellOne d name)

theorem keeps_append {i : Nat} {ds es : List Definition} :
    r.Keeps i (ds ++ es) ↔ r.Keeps i ds ∧ (r.fileAll ds).Keeps i es := by
  induction ds generalizing r with
  | nil => exact (true_and _).symm.to_iff
  | cons d ds ih => rw [List.cons_append, Keeps, Keeps, ih, fileAll_cons, and_assoc]

/-- Common table expressions leave all spellings as they are. -/
theorem respell_of_ctes {ds : List Definition} (hds : ∀ d ∈ ds, d.kind = .cte) : r.respell ds = id := by
  induction ds generalizing r with
  | nil => rfl
  | cons d ds ih =>
    rw [respell, ih fun e he => hds e (List.mem_cons_of_mem _ he), respellOne_of_cte (hds d (List.mem_cons_self ..))]
    rfl

/-- Behind common table expressions there are the definitions of before, and common table expressions. -/
theorem mem_fileAll_ctes {ds : List Definition} (hds : ∀ d ∈ ds, d.kind = .cte) {e : Definition}
    (he : e ∈ (r.fileAll ds).slots) : e ∈ r.slots ∨ e.kind = .cte := by
  induction ds generalizing r with
  | nil => exact .inl he
  | cons d ds ih =>
    obtain ⟨hd, hds⟩ := List.forall_mem_cons.mp hds
    rcases ih hds he with he | he
    · have he : e ∈ (r.define d).registry.slots := he
      rcases define_cases r d with ⟨-, hdef⟩ | ⟨i, old, -, -, hne, -⟩ | ⟨i, old, -, -, hdef⟩
      · rw [hdef, slots_append] at he
        rcases List.mem_append.mp he with he | he
        · exact .inl he
        · exact .inr (List.mem_singleton.mp he ▸ hd)
      · exact absurd hd hne
      · rw [hdef] at he
        exact (List.mem_or_eq_of_mem_set he).imp_right fun heq : e = d => heq ▸ hd
    · exact .inr he

/-! ## Defined names -/

/-- A name that changes its spelling behind a filing gets that of a definition. -/
theorem Coherent.respellOne_cases {r : Registry} (h : r.Coherent) (d : Definition) (name : String) :
    r.respellOne d name = name ∨ (r.define d).registry.defines (r.respellOne d name) = true := by
  rcases define_cases r d with ⟨hf, -⟩ | ⟨i, old, hf, hold, hk, hdef⟩ | ⟨i, old, hf, hk, -⟩
  · exact .inl (by rw [respellOne_of_free hf]; rfl)
  · rw [respellOne_of_moves hf hold hk]
    by_cases hn : name = old.name
    · -- the definition that gives way keeps its slot
      have hi := (h.find?_eq_some_iff.mp hf).1
      have hne : i ≠ (r.define d).slot := by
        rw [hdef]
        exact Nat.ne_of_lt (List.getElem?_eq_some_iff.mp hi).1
      have hslot := h.getElem?_define d i
      rw [if_neg hne, hi, respellOne_of_moves hf hold hk] at hslot
      refine .inr ((h.define d).defines_iff.mpr ⟨_, List.mem_of_getElem? hslot, ?_⟩)
      simp [hn]
    · exact .inl (if_neg hn)
  · exact .inl (by rw [respellOne_of_replaces hf hk]; rfl)

theorem Coherent.defines_respell (h : r.Coherent) (ds : List Definition) {name : String}
    (hn : r.defines name = true) : (r.fileAll ds).defines (r.respell ds name) = true := by
  induction ds generalizing r name with
  | nil => exact hn
  | cons d ds ih =>
    refine ih (h.define d) ?_
    rcases h.respellOne_cases d name with hsame | hdef
    · exact hsame.symm ▸ h.defines_define d hn
    · exact hdef

theorem Keeps.upper_respell_append_ne (h : r.Coherent) {i : Nat} {ds es : List Definition}
    (hk : r.Keeps i (ds ++ es)) {d : Definition} (hi : r.slots[i]? = some d) {name : String} {j : Nat} {e : Definition}
    (hj : (r.fileAll ds).slots[j]? = some e) (hij : j ≠ i) (hen : upper e.name = upper name) :
    upper ((r.fileAll ds).respell es name) ≠ upper (r.respell (ds ++ es) d.name) := by
  obtain ⟨hds, hes⟩ := keeps_append.mp hk
  have hslot := hds.getElem?_fileAll h
  rw [hi] at hslot
  rw [respell_append]
  exact hes.upper_respell_ne (h.fileAll ds) hslot hj hij hen

/-! ## Names of tables and views -/

/-- No filing of the list puts a common table expression into the slot of another kind of definition. -/
def SparesTables (r : Registry) : List Definition → Prop
  | [] => True
  | d :: ds => (d.kind = .cte → ∀ i old, r.find? d.name = some (i, old) → old.kind = .cte) ∧
      (r.define d).registry.SparesTables ds

theorem sparesTables_of_split {ds : List Definition}
    (hds : ∀ before d after, ds = before ++ d :: after → d.kind = .cte →
      ∀ i old, (r.fileAll before).find? d.name = some (i, old) → old.kind = .cte) : r.SparesTables ds := by
  induction ds generalizing r with
  | nil => trivial
  | cons d ds ih =>
    refine ⟨hds [] d ds rfl, ih fun before e after hsplit => ?_⟩
    exact hds (d :: before) e after (congrArg (d :: ·) hsplit)

theorem SparesTables.of_append {ds es : List Definition} (hs : r.SparesTables (ds ++ es)) :
    (r.fileAll ds).SparesTables es := by
  induction ds generalizing r with
  | nil => exact hs
  | cons d ds ih => exact ih hs.2

/-- Slot `i` holds something else than a common table expression, under the given name. -/
def Holds (r : Registry) (i : Nat) (name : String) : Prop :=
  ∃ d, r.slots[i]? = some d ∧ d.kind ≠ .cte ∧ upper d.name = upper name

theorem Coherent.holds_define (h : r.Coherent) {d : Definition}
    (hd : d.kind = .cte → ∀ i old, r.find? d.name = some (i, old) → old.kind = .cte) {i : Nat} {name : String}
    (hi : r.Holds i name) : (r.define d).registry.Holds i (r.respellOne d name) := by
  obtain ⟨e, he, hk, hen⟩ := hi
  by_cases hname : upper e.name = upper d.name
  · -- `d` has the name, so it takes the slot over
    have hfind := h.find?_eq_some_iff.mpr ⟨he, hname⟩
    rcases define_cases r d with ⟨hf, -⟩ | ⟨j, old, hf, hold, -⟩ | ⟨j, old, hf, hkind, hdef⟩
    · rw [hf] at hfind
      cases hfind
    · rw [hf] at hfind
      obtain ⟨rfl, rfl⟩ := Prod.mk.inj (Option.some.inj hfind)
      exact absurd hold hk
    · rw [respellOne_of_replaces hf hkind, hdef]
      rw [hf] at hfind
      obtain ⟨rfl, rfl⟩ := Prod.mk.inj (Option.some.inj hfind)
      refine ⟨d, List.getElem?_set_self (List.getElem?_eq_some_iff.mp he).1, ?_, hname.symm.trans hen⟩
      exact fun hcte => hk (hd hcte j old hf)
  · obtain ⟨hne, e', he', hsame⟩ := h.stays_define he hname
    have hslot := h.getElem?_define d i
    rw [if_neg hne, he, he'] at hslot
    refine ⟨e', he', ?_, ?_⟩
    · rw [Option.some.inj hslot]
      exact hk
    · rw [hsame, h.respellOne_of_ne (hen ▸ hname), hen]

theorem Coherent.holds_fileAll (h : r.Coherent) {ds : List Definition} (hds : r.SparesTables ds) {i : Nat}
    {name : String} (hi : r.Holds i name) : (r.fileAll ds).Holds i (r.respell ds name) := by
  induction ds generalizing r name with
  | nil => exact hi
  | cons d ds ih => exact ih (h.define d) hds.2 (h.holds_define hds.1 hi)

/-! ## Names of slots -/

/-- Slot `i` has the name, or something else than a common table expression has it. -/
def Occupies (r : Registry) (i : Nat) (name : String) : Prop :=
  (∃ d, r.slots[i]? = some d ∧ upper d.name = upper name) ∨ ∃ j, r.Holds j name

theorem Holds.respellOne_eq (h : r.Coherent) {i : Nat} {name : String} (hi : r.Holds i name) (d : Definition) :
    r.respellOne d name = name := by
  obtain ⟨e, he, hk, hen⟩ := hi
  by_cases hname : upper name = upper d.name
  · have hfind := h.find?_eq_some_iff.mpr ⟨he, hen.trans hname⟩
    exact congrFun (respellOne_of_replaces hfind fun hcte => absurd hcte hk) name
  · exact h.respellOne_of_ne hname

/-- A common table expression can lose its name to a table or view only. -/
theorem Coherent.occupies_define (h : r.Coherent) {d : Definition}
    (hd : d.kind = .cte → ∀ i old, r.find? d.name = some (i, old) → old.kind = .cte) {i : Nat} {name : String}
    (hi : r.Occupies i name) : (r.define d).registry.Occupies i name := by
  rcases hi with ⟨e, he, hen⟩ | ⟨j, hj⟩
  · by_cases hname : upper e.name = upper d.name
    · have hfind := h.find?_eq_some_iff.mpr ⟨he, hname⟩
      have hself := h.getElem?_define d (r.define d).slot
      rw [if_pos rfl] at hself
      have hown : upper (d.mapReferenced (r.respellOne d)).name = upper name := hname.symm.trans hen
      rcases define_cases r d with ⟨hf, -⟩ | ⟨j, old, hf, -, hk, -⟩ | ⟨j, old, hf, -, hdef⟩
      · rw [hf] at hfind
        cases hfind
      · exact .inr ⟨_, _, hself, hk, hown⟩
      · rw [hf] at hfind
        obtain ⟨rfl, rfl⟩ := Prod.mk.inj (Option.some.inj hfind)
        have hslot : (r.define d).slot = j := by rw [hdef]
        rw [hslot] at hself
        exact .inl ⟨_, hself, hown⟩
    · obtain ⟨-, e', he', hsame⟩ := h.stays_define he hname
      exact .inl ⟨e', he', by rw [hsame, hen]⟩
  · have hholds := h.holds_define hd hj
    rw [hj.respellOne_eq h] at hholds
    exact .inr ⟨j, hholds⟩

theorem Coherent.occupies_fileAll (h : r.Coherent) {ds : List Definition} (hds : r.SparesTables ds) {i : Nat}
    {name : String} (hi : r.Occupies i name) : (r.fileAll ds).Occupies i name := by
  induction ds generalizing r with
  | nil => exact hi
  | cons d ds ih => exact ih (h.define d) hds.2 (h.occupies_define hds.1 hi)

/-- So a common table expression that has the name in the end has been in its slot. -/
theorem Occupies.slot_eq (h : r.Coherent) {i j : Nat} {name : String} (hi : r.Occupies i name) {d : Definition}
    (hj : r.slots[j]? = some d) (hd : upper d.name = upper name) (hk : d.kind = .cte) : i = j := by
  rcases hi with ⟨e, he, hen⟩ | ⟨k, e, he, hkind, hen⟩
  · exact h.slot_unique he hj (hen.trans hd.symm)
  · obtain rfl := h.slot_unique he hj (hen.trans hd.symm)
    rw [hj] at he
    exact absurd (Option.some.inj he ▸ hk) hkind

end Registry
end SqlLineage
