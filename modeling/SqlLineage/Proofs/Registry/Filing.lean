import SqlLineage.Proofs.Registry.Invariant

/-! # Filing definitions one after the other

* `Registry.respellOne`, `Registry.respell`: how a name is spelled behind one filing, and behind a list of
  them. Only a common table expression that gives way changes a spelling, and it takes its references
  along.
* `Registry.getElem?_define`: what every slot holds behind a filing.
* `Registry.Keeps`: no filing of a list goes into a given slot. `Registry.last_filing` finds the filing
  that a slot holds in the end.
* `Registry.slots_fileAll_of_nodup`: common table expressions with free and distinct names are appended. -/

namespace SqlLineage
open SqlLineage.Text
set_option autoImplicit false

/-- The definition with `f` applied to its own name and to every name that it refers to. -/
def Definition.respelled (f : String → String) (d : Definition) : Definition :=
  { d.mapReferenced f with name := f d.name }

namespace Definition

@[simp] theorem name_respelled (f : String → String) (d : Definition) : (d.respelled f).name = f d.name := rfl

theorem mapReferenced_id (d : Definition) : d.mapReferenced id = d := by
  simp [mapReferenced]

theorem respelled_id (d : Definition) : d.respelled id = d := by
  rw [respelled, mapReferenced_id]
  rfl

theorem mapReferenced_congr {d : Definition} {f g : String → String} (h : ∀ n ∈ d.referenced, f n = g n) :
    d.mapReferenced f = d.mapReferenced g := by
  obtain ⟨hrefs, hlineage⟩ := List.forall_mem_append.mp h
  rw [Definition.mapReferenced, Definition.mapReferenced]
  congr 1
  · exact List.map_congr_left fun r hr => by rw [hrefs _ (List.mem_map_of_mem hr)]
  · exact List.map_congr_left fun r hr => by rw [hlineage _ (List.mem_map_of_mem hr)]

theorem mapReferenced_mapReferenced (f g : String → String) (d : Definition) :
    (d.mapReferenced f).mapReferenced g = d.mapReferenced (g ∘ f) := by
  simp [mapReferenced, Function.comp_def]

theorem respelled_respelled (f g : String → String) (d : Definition) :
    (d.respelled f).respelled g = d.respelled (g ∘ f) := by
  have h := mapReferenced_mapReferenced f g d
  simp only [mapReferenced, Definition.mk.injEq] at h
  simp only [respelled, mapReferenced, Definition.mk.injEq, Function.comp_apply, true_and]
  exact h.2.2.2

theorem referenced_respelled (f : String → String) (d : Definition) :
    (d.respelled f).referenced = d.referenced.map f :=
  referenced_mapReferenced f d

theorem referenced_renameColumns (d : Definition) (names : List String) :
    (d.renameColumns names).referenced = d.referenced := by
  rw [referenced, referenced, references_renameColumns, renameColumns,
    map_foldl_retarget (f := LineageRecord.sourceTable) fun _ _ => rfl]

end Definition

namespace Registry

/-! ## One filing -/

/-- The spelling of a name behind the filing of `d`. -/
def respellOne (r : Registry) (d : Definition) (name : String) : String :=
  match r.find? d.name with
  | some (_, old) =>
    if old.kind = .cte ∧ d.kind ≠ .cte ∧ name = old.name then r.unusedName old.name else name
  | none => name

theorem respellOne_of_cte {r : Registry} {d : Definition} (hd : d.kind = .cte) : r.respellOne d = id := by
  funext name
  unfold respellOne
  split <;> simp [hd]

theorem respellOne_of_free {r : Registry} {d : Definition} (hf : r.find? d.name = none) :
    r.respellOne d = id := by
  funext name
  simp [respellOne, hf]

theorem respellOne_of_moves {r : Registry} {d old : Definition} {i : Nat} (hf : r.find? d.name = some (i, old))
    (hold : old.kind = .cte) (hd : d.kind ≠ .cte) :
    r.respellOne d = fun name => if name = old.name then r.unusedName old.name else name := by
  funext name
  simp [respellOne, hf, hold, hd]

theorem respellOne_of_replaces {r : Registry} {d old : Definition} {i : Nat}
    (hf : r.find? d.name = some (i, old)) (hk : old.kind = .cte → d.kind = .cte) : r.respellOne d = id := by
  funext name
  simp only [respellOne, hf]
  rw [if_neg]
  · rfl
  · rintro ⟨hold, hd, -⟩
    exact hd (hk hold)

section Slots
variable {r : Registry}

theorem Coherent.getElem?_rename (h : r.Coherent) {i : Nat} {old : Definition} {new : String}
    (hi : r.slots[i]? = some old) (j : Nat) :
    (r.rename i old.name new).slots[j]? =
      r.slots[j]?.map (·.respelled fun name => if name = old.name then new else name) := by
  rw [getElem?_slots_rename]
  cases hj : r.slots[j]? with
  | none => rfl
  | some e =>
    simp only [Option.map_some, Option.some.injEq]
    by_cases hij : i = j
    · subst hij
      obtain rfl : old = e := Option.some.inj (hi ▸ hj)
      simp [Definition.respelled, Definition.redirect, Definition.mapReferenced]
    · have hne : e.name ≠ old.name := fun hn => hij (h.slot_unique hi hj (by rw [hn]))
      simp [Definition.respelled, Definition.redirect, Definition.mapReferenced, hij, hne]

/-- What a slot holds behind a filing: the definition that went into it, or what it held before, up to
the spelling of the name that gave way. -/
theorem Coherent.getElem?_define (h : r.Coherent) (d : Definition) (i : Nat) :
    (r.define d).registry.slots[i]? =
      if i = (r.define d).slot then some (d.mapReferenced (r.respellOne d))
      else r.slots[i]?.map (·.respelled (r.respellOne d)) := by
  have happend : ∀ (s : List Definition) (e : Definition), (s ++ [e])[i]? = if i = s.length then some e else s[i]? := by
    intro s e
    rcases Nat.lt_trichotomy i s.length with hi | rfl | hi
    · rw [List.getElem?_append_left hi, if_neg (by omega)]
    · simp
    · rw [if_neg (by omega), List.getElem?_eq_none (by simp; omega), List.getElem?_eq_none (by omega)]
  have hid : (fun e : Definition => e.respelled id) = id := funext Definition.respelled_id
  rcases define_cases r d with ⟨hf, hd⟩ | ⟨k, old, hf, hold, hk, hd⟩ | ⟨k, old, hf, hk, hd⟩
  · rw [hd, respellOne_of_free hf, hid, Definition.mapReferenced_id, slots_append, happend, Option.map_id_apply]
  · have hs := (h.find?_eq_some_iff.mp hf).1
    rw [hd, respellOne_of_moves hf hold hk, slots_append, happend, length_slots_rename, h.getElem?_rename hs]
    rfl
  · have hs := (List.getElem?_eq_some_iff.mp (h.find?_eq_some_iff.mp hf).1).1
    rw [hd, respellOne_of_replaces hf hk, hid, Definition.mapReferenced_id, Option.map_id_apply]
    by_cases hik : i = k
    · rw [if_pos hik, hik, List.getElem?_set_self hs]
    · rw [if_neg hik, List.getElem?_set_ne (Ne.symm hik)]

theorem Coherent.slot_define (h : r.Coherent) (d : Definition) :
    (r.define d).slot = r.slots.length ∨
      ∃ old, r.slots[(r.define d).slot]? = some old ∧ upper old.name = upper d.name := by
  rcases define_cases r d with ⟨-, hd⟩ | ⟨k, old, -, -, -, hd⟩ | ⟨k, old, hf, -, hd⟩
  · exact .inl (by rw [hd])
  · exact .inl (by rw [hd])
  · rw [hd]
    exact .inr ⟨old, h.find?_eq_some_iff.mp hf⟩

theorem Coherent.respellOne_of_ne (h : r.Coherent) {d : Definition} {name : String}
    (hn : upper name ≠ upper d.name) : r.respellOne d name = name := by
  unfold respellOne
  split
  · next i old hf =>
    rw [if_neg]
    rintro ⟨-, -, rfl⟩
    exact hn (h.find?_eq_some_iff.mp hf).2
  · rfl

theorem Coherent.stays_define (h : r.Coherent) {d e : Definition} {i : Nat} (hi : r.slots[i]? = some e)
    (hn : upper e.name ≠ upper d.name) :
    i ≠ (r.define d).slot ∧ ∃ e', (r.define d).registry.slots[i]? = some e' ∧ e'.name = e.name := by
  have hne : i ≠ (r.define d).slot := by
    rintro rfl
    rcases h.slot_define d with hs | ⟨old, ho, hon⟩
    · rw [hs, List.getElem?_eq_none (Nat.le_refl _)] at hi
      cases hi
    · rw [hi] at ho
      exact hn (Option.some.inj ho ▸ hon)
  have hg := h.getElem?_define d i
  rw [if_neg hne, hi] at hg
  exact ⟨hne, _, hg, h.respellOne_of_ne hn⟩

theorem Coherent.defines_define (h : r.Coherent) (d : Definition) {name : String}
    (hn : r.defines name = true) : (r.define d).registry.defines name = true := by
  obtain ⟨e, he, hen⟩ := h.defines_iff.mp hn
  refine (h.define d).defines_iff.mpr ?_
  by_cases hd : upper e.name = upper d.name
  · have hslot := h.getElem?_define d (r.define d).slot
    rw [if_pos rfl] at hslot
    exact ⟨_, List.mem_of_getElem? hslot, hd.symm.trans hen⟩
  · obtain ⟨i, hi⟩ := List.mem_iff_getElem?.mp he
    obtain ⟨-, e', he', hname⟩ := h.stays_define hi hd
    exact ⟨e', List.mem_of_getElem? he', by rw [hname, hen]⟩

theorem Coherent.defines_define_self (h : r.Coherent) (d : Definition) :
    (r.define d).registry.defines d.name = true := by
  have hslot := h.getElem?_define d (r.define d).slot
  rw [if_pos rfl] at hslot
  exact (h.define d).defines_iff.mpr ⟨_, List.mem_of_getElem? hslot, rfl⟩

/-- A name that is held by another slot than `i` is still held by one behind a filing that passes `i` by,
under its new spelling. -/
theorem Coherent.held_define (h : r.Coherent) (d : Definition) {i : Nat} (hi : (r.define d).slot ≠ i)
    {name : String} {j : Nat} {e : Definition} (hj : r.slots[j]? = some e) (hij : j ≠ i)
    (hen : upper e.name = upper name) :
    ∃ k e', (r.define d).registry.slots[k]? = some e' ∧ k ≠ i ∧ upper e'.name = upper (r.respellOne d name) := by
  by_cases hd : upper e.name = upper d.name
  · have hfj := h.find?_eq_some_iff.mpr ⟨hj, hd⟩
    have hslot := h.getElem?_define d (r.define d).slot
    rw [if_pos rfl] at hslot
    have hnew : r.respellOne d name = name →
        ∃ k e', (r.define d).registry.slots[k]? = some e' ∧ k ≠ i ∧
          upper e'.name = upper (r.respellOne d name) := by
      intro hsame
      exact ⟨_, _, hslot, hi, by rw [hsame, Definition.name_mapReferenced, ← hd, hen]⟩
    -- if `d` has the name, it takes it over in its own slot, unless the old holder moves away
    rcases define_cases r d with ⟨hf, -⟩ | ⟨k, old, hf, hold, hk, hdef⟩ | ⟨k, old, hf, hk, -⟩
    · rw [hf] at hfj
      cases hfj
    · rw [hf] at hfj
      obtain ⟨rfl, rfl⟩ := Prod.mk.inj (Option.some.inj hfj)
      by_cases hname : name = old.name
      · have hg := h.getElem?_define d k
        have hlt := (List.getElem?_eq_some_iff.mp hj).1
        rw [if_neg (by rw [hdef]; exact Nat.ne_of_lt hlt), hj] at hg
        exact ⟨k, _, hg, hij, by rw [hname]; rfl⟩
      · exact hnew (by rw [respellOne_of_moves hf hold hk]; exact if_neg hname)
    · exact hnew (by rw [respellOne_of_replaces hf hk]; rfl)
  · obtain ⟨-, e', he', hname⟩ := h.stays_define hj hd
    exact ⟨j, e', he', hij, by rw [hname, h.respellOne_of_ne (hen ▸ hd), hen]⟩

end Slots

/-! ## A list of filings -/

def fileAll (r : Registry) (ds : List Definition) : Registry :=
  ds.foldl (fun r d => (r.define d).registry) r

/-- The spelling of a name behind a list of filings. -/
def respell (r : Registry) : List Definition → String → String
  | [] => id
  | d :: ds => (r.define d).registry.respell ds ∘ r.respellOne d

/-- No filing of the list goes into slot `i`. -/
def Keeps (r : Registry) (i : Nat) : List Definition → Prop
  | [] => True
  | d :: ds => (r.define d).slot ≠ i ∧ (r.define d).registry.Keeps i ds

@[simp] theorem fileAll_nil (r : Registry) : r.fileAll [] = r := rfl

@[simp] theorem fileAll_cons (r : Registry) (d : Definition) (ds : List Definition) :
    r.fileAll (d :: ds) = (r.define d).registry.fileAll ds := rfl

theorem fileAll_append (r : Registry) (ds es : List Definition) :
    r.fileAll (ds ++ es) = (r.fileAll ds).fileAll es :=
  List.foldl_append

theorem Coherent.fileAll {r : Registry} (h : r.Coherent) (ds : List Definition) : (r.fileAll ds).Coherent := by
  induction ds generalizing r with
  | nil => exact h
  | cons d ds ih => exact ih (h.define d)

/-- What is so of the filed definitions and kept by every respelling is so of all slots. -/
theorem Coherent.forall_fileAll {r : Registry} (h : r.Coherent) {P : Definition → Prop}
    (hP : ∀ f d, P d → P (d.mapReferenced f) ∧ P (d.respelled f)) {ds : List Definition}
    (hr : ∀ d ∈ r.slots, P d) (hds : ∀ d ∈ ds, P d) : ∀ d ∈ (r.fileAll ds).slots, P d := by
  induction ds generalizing r with
  | nil => exact hr
  | cons d ds ih =>
    obtain ⟨hd, hds⟩ := List.forall_mem_cons.mp hds
    refine ih (h.define d) (fun e he => ?_) hds
    obtain ⟨i, hi⟩ := List.mem_iff_getElem?.mp he
    rw [h.getElem?_define] at hi
    split at hi
    · exact Option.some.inj hi ▸ (hP _ d hd).1
    · obtain ⟨o, ho, rfl⟩ := Option.map_eq_some_iff.mp hi
      exact (hP _ o (hr o (List.mem_of_getElem? ho))).2

theorem Coherent.defines_fileAll {r : Registry} (h : r.Coherent) (ds : List Definition) {name : String}
    (hn : r.defines name = true) : (r.fileAll ds).defines name = true := by
  induction ds generalizing r with
  | nil => exact hn
  | cons d ds ih => exact ih (h.define d) (h.defines_define d hn)

theorem Coherent.defines_fileAll_of_mem {r : Registry} (h : r.Coherent) {ds : List Definition} {d : Definition}
    (hd : d ∈ ds) : (r.fileAll ds).defines d.name = true := by
  induction ds generalizing r with
  | nil => cases hd
  | cons e ds ih =>
    rcases List.mem_cons.mp hd with rfl | hd
    · exact (h.define d).defines_fileAll ds (h.defines_define_self d)
    · exact ih (h.define e) hd

theorem Keeps.getElem?_fileAll {r : Registry} (h : r.Coherent) {i : Nat} {ds : List Definition}
    (hk : r.Keeps i ds) : (r.fileAll ds).slots[i]? = r.slots[i]?.map (·.respelled (r.respell ds)) := by
  induction ds generalizing r with
  | nil =>
    cases hi : r.slots[i]? with
    | none => simp [hi]
    | some e => simp [hi, respell, Definition.respelled_id]
  | cons d ds ih =>
    rw [fileAll_cons, ih (h.define d) hk.2, h.getElem?_define, if_neg hk.1.symm, Option.map_map]
    congr 1
    funext e
    exact Definition.respelled_respelled _ _ _

/-- A name that another slot holds never becomes the name in a slot that is passed by. -/
theorem Keeps.upper_respell_ne {r : Registry} (h : r.Coherent) {i : Nat} {ds : List Definition}
    (hk : r.Keeps i ds) {d : Definition} (hi : r.slots[i]? = some d) {name : String} {j : Nat} {e : Definition}
    (hj : r.slots[j]? = some e) (hij : j ≠ i) (hen : upper e.name = upper name) :
    upper (r.respell ds name) ≠ upper (r.respell ds d.name) := by
  -- behind every filing some slot other than `i` holds the name, under its spelling of then
  induction ds generalizing r d name j e with
  | nil =>
    intro hsame
    exact hij (h.slot_unique hj hi (hen.trans hsame))
  | cons d' ds ih =>
    obtain ⟨k, e', he', hki, hen'⟩ := h.held_define d' hk.1 hj hij hen
    have hg := h.getElem?_define d' i
    rw [if_neg hk.1.symm, hi] at hg
    exact ih (h.define d') hk.2 hg he' hki hen'

/-- What a slot holds behind a list of filings was there before and is passed by, or it is the last one
of the list that was filed into the slot. -/
theorem last_filing {r : Registry} (i : Nat) (ds : List Definition) :
    r.Keeps i ds ∨ ∃ before d after, ds = before ++ d :: after ∧
      ((r.fileAll before).define d).slot = i ∧ ((r.fileAll before).define d).registry.Keeps i after := by
  induction ds generalizing r with
  | nil => exact .inl trivial
  | cons d ds ih =>
    rcases ih (r := (r.define d).registry) with hk | ⟨before, e, after, rfl, hs, hk⟩
    · by_cases hd : (r.define d).slot = i
      · exact .inr ⟨[], d, ds, rfl, hd, hk⟩
      · exact .inl ⟨hd, hk⟩
    · exact .inr ⟨d :: before, e, after, rfl, hs, hk⟩

/-! ## Filing common table expressions -/

theorem Coherent.define_of_free {r : Registry} (h : r.Coherent) {d : Definition}
    (hd : r.defines d.name = false) : r.define d = ⟨r.append d, r.slots.length, none⟩ := by
  have hf := h.find?_eq_none_iff.mpr (h.defines_eq_false_iff.mp hd)
  rcases define_cases r d with ⟨-, hdef⟩ | ⟨i, old, hs, -⟩ | ⟨i, old, hs, -⟩
  · exact hdef
  · rw [hf] at hs
    cases hs
  · rw [hf] at hs
    cases hs

theorem Coherent.replaced_of_cte {r : Registry} (h : r.Coherent) {d : Definition} (hk : d.kind = .cte)
    (hd : r.defines d.name = true) : ∃ old, (r.define d).replaced = some old := by
  rcases define_cases r d with ⟨hf, -⟩ | ⟨i, old, -, -, hne, -⟩ | ⟨i, old, -, -, hdef⟩
  · obtain ⟨e, he, hen⟩ := h.defines_iff.mp hd
    exact absurd hen (h.find?_eq_none_iff.mp hf e he)
  · exact absurd hk hne
  · exact ⟨old, by rw [hdef]⟩

/-- Filing a common table expression whose name was free at first touches no slot that was there then. -/
theorem Coherent.prefix_define {r r' : Registry} (h : r.Coherent) (h' : r'.Coherent)
    (hp : r.slots <+: r'.slots) {d : Definition} (hk : d.kind = .cte) (hd : r.defines d.name = false) :
    r.slots <+: (r'.define d).registry.slots := by
  rcases define_cases r' d with ⟨-, hdef⟩ | ⟨i, old, -, -, hne, -⟩ | ⟨i, old, hf, -, hdef⟩
  · rw [hdef]
    exact hp.trans (List.prefix_append _ _)
  · exact absurd hk hne
  · rw [hdef]
    obtain ⟨hi, hn⟩ := h'.find?_eq_some_iff.mp hf
    -- the name was free in `r`, so what holds it now was filed later
    have hle : r.slots.length ≤ i := by
      by_contra hlt
      obtain ⟨rest, hrest⟩ := hp
      have hri : r.slots[i]? = some old := by
        rw [← hi, ← hrest, List.getElem?_append_left (by omega)]
      exact h.defines_eq_false_iff.mp hd old (List.mem_of_getElem? hri) hn
    rw [List.prefix_iff_eq_take] at hp ⊢
    rw [List.take_set_of_le hle]
    exact hp

theorem Coherent.prefix_fileAll {r r' : Registry} (h : r.Coherent) (h' : r'.Coherent)
    (hp : r.slots <+: r'.slots) {ds : List Definition}
    (hds : ∀ d ∈ ds, d.kind = .cte ∧ r.defines d.name = false) : r.slots <+: (r'.fileAll ds).slots := by
  induction ds generalizing r' with
  | nil => exact hp
  | cons d ds ih =>
    have hd := hds d (List.mem_cons_self ..)
    exact ih (h'.define d) (h.prefix_define h' hp hd.1 hd.2) (fun e he => hds e (List.mem_cons_of_mem _ he))

theorem Coherent.defines_define_of_free {r : Registry} (h : r.Coherent) {d : Definition}
    (hd : r.defines d.name = false) {name : String} :
    (r.define d).registry.defines name = false ↔ r.defines name = false ∧ upper d.name ≠ upper name := by
  rw [(h.define d).defines_eq_false_iff, h.defines_eq_false_iff, h.define_of_free hd, slots_append,
    List.forall_mem_append, List.forall_mem_singleton]

theorem Coherent.slots_fileAll_of_nodup {r : Registry} (h : r.Coherent) {ds : List Definition}
    (hfree : ∀ d ∈ ds, r.defines d.name = false) (hnodup : (ds.map fun d => upper d.name).Nodup) :
    (r.fileAll ds).slots = r.slots ++ ds := by
  induction ds generalizing r with
  | nil => simp
  | cons d ds ih =>
    rw [List.map_cons, List.nodup_cons] at hnodup
    have hd := hfree d (List.mem_cons_self ..)
    have hrest : ∀ e ∈ ds, (r.define d).registry.defines e.name = false := by
      intro e he
      refine (h.defines_define_of_free hd).mpr ⟨hfree e (List.mem_cons_of_mem _ he), ?_⟩
      intro hn
      exact hnodup.1 (hn ▸ List.mem_map_of_mem he)
    rw [fileAll_cons, ih (h.define d) hrest hnodup.2, h.define_of_free hd]
    simp

def replacedBy (r : Registry) : List Definition → List Definition
  | [] => []
  | d :: ds => (r.define d).replaced.toList ++ (r.define d).registry.replacedBy ds

theorem replacedBy_append (r : Registry) (ds es : List Definition) :
    r.replacedBy (ds ++ es) = r.replacedBy ds ++ (r.fileAll ds).replacedBy es := by
  induction ds generalizing r with
  | nil => rfl
  | cons d ds ih => rw [List.cons_append, replacedBy, replacedBy, ih, List.append_assoc, fileAll_cons]

/-- Common table expressions replace nothing just when all their names are free and distinct. -/
theorem Coherent.replacedBy_eq_nil_iff {r : Registry} (h : r.Coherent) {ds : List Definition}
    (hk : ∀ d ∈ ds, d.kind = .cte) :
    r.replacedBy ds = [] ↔
      (∀ d ∈ ds, r.defines d.name = false) ∧ (ds.map fun d => upper d.name).Nodup := by
  induction ds generalizing r with
  | nil => simp [replacedBy]
  | cons d ds ih =>
    rw [replacedBy, List.append_eq_nil_iff, ih (h.define d) fun e he => hk e (List.mem_cons_of_mem _ he),
      List.forall_mem_cons, List.map_cons, List.nodup_cons]
    constructor
    · rintro ⟨hnone, hrest, hnodup⟩
      have hd : r.defines d.name = false := by
        by_contra hd
        obtain ⟨old, hold⟩ := h.replaced_of_cte (hk d (List.mem_cons_self ..)) (Bool.not_eq_false _ ▸ hd)
        rw [hold] at hnone
        cases hnone
      refine ⟨⟨hd, fun e he => ((h.defines_define_of_free hd).mp (hrest e he)).1⟩, ?_, hnodup⟩
      intro hmem
      obtain ⟨e, he, hen⟩ := List.mem_map.mp hmem
      exact ((h.defines_define_of_free hd).mp (hrest e he)).2 hen.symm
    · rintro ⟨⟨hd, hrest⟩, hnot, hnodup⟩
      refine ⟨by rw [h.define_of_free hd]; rfl, ?_, hnodup⟩
      intro e he
      refine (h.defines_define_of_free hd).mpr ⟨hrest e he, ?_⟩
      intro hn
      exact hnot (hn ▸ List.mem_map_of_mem he)

end Registry
end SqlLineage
