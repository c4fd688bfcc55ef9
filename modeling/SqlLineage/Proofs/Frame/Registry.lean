import SqlLineage.Proofs.Registry.Filing

/-! # Filing behind definitions of other names

Two registries are compared: one of them, and a longer one whose slots begin with definitions that have nothing to
do with it, since all their names are *foreign*. Filing the same definitions in both does the same.

* `Definition.Alike`: two definitions that are the same, unless the first one refers to a foreign name. Such a name
  may be spelled differently when something foreign is defined; a definition that keeps one is none of those that
  the comparison is about in the end.
* `Registry.Beside`: the longer registry begins with the foreign definitions, and slot by slot the others are alike.
* `Registry.Beside.define`: filing keeps it so, as long as no name in the registry is foreign. -/

namespace SqlLineage
open SqlLineage.Text
set_option autoImplicit false

/-- The name is one of the upper-cased names `ks`, in some case. -/
def Foreign (ks : List String) (name : String) : Prop := upper name ∈ ks

theorem foreign_congr {ks : List String} {a b : String} (h : upper a = upper b) : Foreign ks a ↔ Foreign ks b := by
  rw [Foreign, Foreign, h]

/-- Related options stay related under functions that relate what is in them. -/
theorem rel_map {α β γ δ : Type} {R : α → β → Prop} {S : γ → δ → Prop} {f : α → γ} {g : β → δ}
    (hfg : ∀ a b, R a b → S (f a) (g b)) {a? : Option α} {b? : Option β} (h : Option.Rel R a? b?) :
    Option.Rel S (a?.map f) (b?.map g) := by
  cases h with
  | some h => exact .some (hfg _ _ h)
  | none => exact .none

section
variable {ks : List String}

/-! ## Definitions -/

namespace Definition

/-- The same definition, up to foreign names: these may be spelled differently in what it refers to. -/
structure Alike (ks : List String) (d d' : Definition) : Prop where
  name : d'.name = d.name
  kind : d'.kind = d.kind
  columns : d'.columns = d.columns
  eq_or_foreign : d' = d ∨ ∃ n ∈ d.referenced, Foreign ks n

theorem Alike.refl (d : Definition) : Alike ks d d := ⟨rfl, rfl, rfl, .inl rfl⟩

theorem Alike.renameColumns {d d' : Definition} (h : Alike ks d d') (names : List String) :
    Alike ks (d.renameColumns names) (d'.renameColumns names) where
  name := h.name
  kind := h.kind
  columns := by simp only [Definition.renameColumns, h.columns]
  eq_or_foreign := by
    rw [referenced_renameColumns]
    exact h.eq_or_foreign.imp_left fun heq => by rw [heq]

/-- A respelling of names that leaves the foreign ones alone. -/
theorem Alike.mapReferenced {d d' : Definition} (h : Alike ks d d') {f : String → String}
    (hf : ∀ n, Foreign ks n → f n = n) : Alike ks (d.mapReferenced f) (d'.mapReferenced f) where
  name := h.name
  kind := h.kind
  columns := h.columns
  eq_or_foreign := by
    refine h.eq_or_foreign.imp (fun heq => by rw [heq]) fun ⟨n, hn, hforeign⟩ => ⟨n, ?_, hforeign⟩
    rw [referenced_mapReferenced, List.mem_map]
    exact ⟨n, hn, hf n hforeign⟩

theorem Alike.respelled {d d' : Definition} (h : Alike ks d d') {f : String → String}
    (hf : ∀ n, Foreign ks n → f n = n) : Alike ks (d.respelled f) (d'.respelled f) where
  name := congrArg f h.name
  kind := h.kind
  columns := h.columns
  eq_or_foreign := by
    refine (h.mapReferenced hf).eq_or_foreign.imp_left fun heq => ?_
    rw [Definition.respelled, Definition.respelled, heq, h.name]

/-- All names in the definition are foreign. -/
def Settled (ks : List String) (d : Definition) : Prop :=
  Foreign ks d.name ∧ ∀ n ∈ d.referenced, Foreign ks n

theorem Settled.respelled {d : Definition} (h : d.Settled ks) {f : String → String}
    (hf : ∀ n, Foreign ks n → f n = n) : d.respelled f = d := by
  have hreferenced : d.mapReferenced f = d.mapReferenced id :=
    mapReferenced_congr fun n hn => hf n (h.2 n hn)
  rw [Definition.respelled, hreferenced, mapReferenced_id, hf _ h.1]

end Definition

namespace Registry

/-! ## Registries side by side -/

/-- No name in the registry is foreign. -/
def Clear (ks : List String) (r : Registry) : Prop :=
  ∀ n, r.defines n = true → ¬ Foreign ks n

theorem Clear.of_define {r : Registry} (h : r.Coherent) {d : Definition} (hc : (r.define d).registry.Clear ks) :
    r.Clear ks ∧ ¬ Foreign ks d.name :=
  ⟨fun n hn => hc n (h.defines_define d hn), hc d.name (h.defines_define_self d)⟩

/-- The registry `r'` begins with the slots `front`, and its further slots are those of `r`. -/
structure Beside (ks : List String) (front : List Definition) (r r' : Registry) : Prop where
  coherent : r.Coherent
  coherent' : r'.Coherent
  settled : ∀ d ∈ front, d.Settled ks
  leading : ∀ i, (h : i < front.length) → r'.slots[i]? = some front[i]
  behind : ∀ i, Option.Rel (Definition.Alike ks) r.slots[i]? r'.slots[front.length + i]?

namespace Beside
variable {front : List Definition} {r r' : Registry}

theorem getElem?_behind (h : Beside ks front r r') {i : Nat} {d : Definition} (hd : r.slots[i]? = some d) :
    ∃ d', r'.slots[front.length + i]? = some d' ∧ Definition.Alike ks d d' := by
  have hbehind := h.behind i
  rw [hd] at hbehind
  cases hrel : r'.slots[front.length + i]? with
  | some d' =>
    rw [hrel] at hbehind
    exact ⟨d', rfl, Option.rel_some_some.mp hbehind⟩
  | none =>
    rw [hrel] at hbehind
    cases hbehind

theorem length_slots (h : Beside ks front r r') : r'.slots.length = front.length + r.slots.length := by
  have hnone := h.behind r.slots.length
  rw [List.getElem?_eq_none (Nat.le_refl _)] at hnone
  have hle : r'.slots.length ≤ front.length + r.slots.length := by
    rw [← List.getElem?_eq_none_iff]
    generalize r'.slots[front.length + r.slots.length]? = d? at hnone
    cases hnone
    rfl
  -- the last slot of `r`, or else of `front`, is there
  rcases Nat.eq_zero_or_pos r.slots.length with hzero | hpos
  · rcases Nat.eq_zero_or_pos front.length with hfront | hfront
    · omega
    · have hlast := (List.getElem?_eq_some_iff.mp (h.leading (front.length - 1) (by omega))).1
      omega
  · have hin : r.slots.length - 1 < r.slots.length := by omega
    obtain ⟨d', hd', -⟩ := h.getElem?_behind (List.getElem?_eq_getElem hin)
    have hlast := (List.getElem?_eq_some_iff.mp hd').1
    omega

/-- Every definition of the longer registry is a foreign one, or it is alike to one of the shorter registry. -/
theorem cases (h : Beside ks front r r') {j : Nat} {d' : Definition} (hj : r'.slots[j]? = some d') :
    d'.Settled ks ∨ ∃ i d, j = front.length + i ∧ r.slots[i]? = some d ∧ Definition.Alike ks d d' := by
  rcases Nat.lt_or_ge j front.length with hlt | hge
  · rw [h.leading j hlt] at hj
    exact .inl (Option.some.inj hj ▸ h.settled _ (List.getElem_mem hlt))
  · obtain ⟨i, rfl⟩ := Nat.exists_eq_add_of_le hge
    have hlt := (List.getElem?_eq_some_iff.mp hj).1
    rw [h.length_slots] at hlt
    have hin : i < r.slots.length := by omega
    obtain ⟨e', he', halike⟩ := h.getElem?_behind (List.getElem?_eq_getElem hin)
    rw [hj] at he'
    exact .inr ⟨i, _, rfl, List.getElem?_eq_getElem hin, Option.some.inj he' ▸ halike⟩

theorem find?_of_some (h : Beside ks front r r') {n : String} {i : Nat} {d : Definition}
    (hf : r.find? n = some (i, d)) : ∃ d', r'.find? n = some (front.length + i, d') ∧ Definition.Alike ks d d' := by
  obtain ⟨hi, hn⟩ := h.coherent.find?_eq_some_iff.mp hf
  obtain ⟨d', hd', halike⟩ := h.getElem?_behind hi
  exact ⟨d', h.coherent'.find?_eq_some_iff.mpr ⟨hd', by rw [halike.name, hn]⟩, halike⟩

theorem find?_of_none (h : Beside ks front r r') {n : String} (hn : ¬ Foreign ks n) (hf : r.find? n = none) :
    r'.find? n = none := by
  rw [h.coherent'.find?_eq_none_iff]
  rw [h.coherent.find?_eq_none_iff] at hf
  intro d' hd' hsame
  obtain ⟨j, hj⟩ := List.mem_iff_getElem?.mp hd'
  rcases h.cases hj with hsettled | ⟨i, d, -, hd, halike⟩
  · exact hn ((foreign_congr hsame).mp hsettled.1)
  · exact hf d (List.mem_of_getElem? hd) (by rw [← halike.name, hsame])

theorem rel_lookup (h : Beside ks front r r') {n : String} (hn : ¬ Foreign ks n) :
    Option.Rel (Definition.Alike ks) (r.lookup n) (r'.lookup n) := by
  unfold lookup
  cases hf : r.find? n with
  | none =>
    rw [h.find?_of_none hn hf]
    exact .none
  | some found =>
    obtain ⟨d', hd', halike⟩ := h.find?_of_some hf
    rw [hd']
    exact .some halike

theorem defines_eq (h : Beside ks front r r') {n : String} (hn : ¬ Foreign ks n) : r'.defines n = r.defines n := by
  have hrel := h.rel_lookup hn
  unfold defines
  generalize r.lookup n = d?, r'.lookup n = d'? at hrel
  cases hrel <;> rfl

theorem canonicalName_eq (h : Beside ks front r r') {n : String} (hn : ¬ Foreign ks n) :
    r'.canonicalName n = r.canonicalName n := by
  have hrel := h.rel_lookup hn
  unfold canonicalName
  generalize r.lookup n = d?, r'.lookup n = d'? at hrel
  cases hrel with
  | some halike => exact halike.name
  | none => rfl

/-- A name that is not foreign is chosen in both registries. -/
theorem unusedName_eq (h : Beside ks front r r') (hclear : r.Clear ks) {base : String}
    (hfree : ¬ Foreign ks (r.unusedName base)) : r'.unusedName base = r.unusedName base := by
  cases hd : r.defines base with
  | false =>
    have hname : r.unusedName base = base := by simp [unusedName, hd]
    rw [hname] at hfree ⊢
    rw [unusedName, h.defines_eq hfree, hd]
    rfl
  | true =>
    have hd' : r'.defines base = true := (h.defines_eq (hclear base hd)).trans hd
    obtain ⟨k, hk, hname, hnone, hleast⟩ := exists_unusedName_eq hd
    obtain ⟨k', hk', hname', hnone', hleast'⟩ := exists_unusedName_eq hd'
    rw [hname] at hfree ⊢
    rw [hname']
    -- candidates that are taken in the shorter registry are taken in the longer one
    rcases Nat.lt_trichotomy k k' with hlt | heq | hlt
    · have htaken := hleast' k hk hlt
      rw [h.defines_eq hfree, hnone] at htaken
      cases htaken
    · rw [heq]
    · have htaken := hleast k' hk' hlt
      rw [← h.defines_eq (hclear _ htaken), hnone'] at htaken
      cases htaken

/-! ## Filing -/

section Filing
variable (h : Beside ks front r r') {d d' : Definition} (hd : Definition.Alike ks d d')
    (hclear : (r.define d).registry.Clear ks)
include h hd hclear

/-- Filing does the same in both registries: names are respelled in the same way, and what it replaces is alike. -/
theorem define_spec :
    (r'.define d').slot = front.length + (r.define d).slot ∧ r'.respellOne d' = r.respellOne d ∧
      Option.Rel (Definition.Alike ks) (r.define d).replaced (r'.define d').replaced := by
  obtain ⟨hr, hname⟩ := Clear.of_define h.coherent hclear
  rcases define_cases r d with ⟨hf, hdef⟩ | ⟨i, old, hf, hold, hk, hdef⟩ | ⟨i, old, hf, hk, hdef⟩
  · have hf' : r'.find? d'.name = none := hd.name ▸ h.find?_of_none hname hf
    have hdef' : r'.define d' = ⟨r'.append d', r'.slots.length, none⟩ := by simp [define, hf']
    rw [hdef, hdef', respellOne_of_free hf, respellOne_of_free hf']
    exact ⟨h.length_slots, rfl, .none⟩
  · obtain ⟨old', hf', halike⟩ := h.find?_of_some hf
    rw [← hd.name] at hf'
    have hold' : old'.kind = .cte := halike.kind.trans hold
    have hk' : d'.kind ≠ .cte := hd.kind ▸ hk
    -- the new name of the old definition is in the registry, so it is not foreign
    have hfree : ¬ Foreign ks (r.unusedName old.name) := by
      have hi := (h.coherent.find?_eq_some_iff.mp hf).1
      have hslot := h.coherent.getElem?_define d i
      have hne : i ≠ (r.define d).slot := by
        rw [hdef]
        exact Nat.ne_of_lt (List.getElem?_eq_some_iff.mp hi).1
      rw [if_neg hne, hi, respellOne_of_moves hf hold hk] at hslot
      have hdefines := (h.coherent.define d).defines_iff.mpr ⟨_, List.mem_of_getElem? hslot, rfl⟩
      have hnot := hclear _ hdefines
      rwa [Definition.name_respelled, if_pos rfl] at hnot
    have hnew : r'.unusedName old'.name = r.unusedName old.name := by
      rw [halike.name]
      exact h.unusedName_eq hr hfree
    have hdef' : r'.define d' = ⟨(r'.rename (front.length + i) old'.name (r'.unusedName old'.name)).append
        (d'.redirect old'.name (r'.unusedName old'.name)), r'.slots.length, none⟩ := by
      simp [define, hf', hold', hk']
    rw [hdef, hdef', respellOne_of_moves hf hold hk, respellOne_of_moves hf' hold' hk', halike.name]
    rw [halike.name] at hnew
    exact ⟨h.length_slots, by rw [hnew], .none⟩
  · obtain ⟨old', hf', halike⟩ := h.find?_of_some hf
    rw [← hd.name] at hf'
    have hk' : old'.kind = .cte → d'.kind = .cte := by
      rw [halike.kind, hd.kind]
      exact hk
    have hdef' : r'.define d' = ⟨⟨r'.slots.set (front.length + i) d', r'.index⟩, front.length + i, some old'⟩ := by
      rw [define, hf']
      exact if_neg fun hmoves => hmoves.2 (hk' hmoves.1)
    rw [hdef, hdef', respellOne_of_replaces hf hk, respellOne_of_replaces hf' hk']
    exact ⟨rfl, rfl, .some halike⟩

theorem define : Beside ks front (r.define d).registry (r'.define d').registry := by
  obtain ⟨hslot, hrespell, -⟩ := h.define_spec hd hclear
  have hname := (Clear.of_define h.coherent hclear).2
  have hfixed : ∀ n, Foreign ks n → r.respellOne d n = n := fun n hn =>
    h.coherent.respellOne_of_ne fun hsame => hname ((foreign_congr hsame).mp hn)
  refine ⟨h.coherent.define d, h.coherent'.define d', h.settled, fun i hi => ?_, fun i => ?_⟩
  · rw [h.coherent'.getElem?_define, hrespell, if_neg (by omega), h.leading i hi, Option.map_some,
      (h.settled _ (List.getElem_mem hi)).respelled hfixed]
  · rw [h.coherent'.getElem?_define, h.coherent.getElem?_define, hrespell, hslot]
    by_cases hi : i = (r.define d).slot
    · rw [if_pos hi, if_pos (by omega)]
      exact .some (hd.mapReferenced hfixed)
    · rw [if_neg hi, if_neg (by omega)]
      exact rel_map (fun e e' he => he.respelled hfixed) (h.behind i)

end Filing

/-- The registry that only has the foreign definitions. -/
theorem start {r' : Registry} (h' : r'.Coherent) (hsettled : ∀ d ∈ r'.slots, d.Settled ks) :
    Beside ks r'.slots empty r' where
  coherent := coherent_empty
  coherent' := h'
  settled := hsettled
  leading := fun i hi => List.getElem?_eq_getElem hi
  behind := by
    intro i
    rw [List.getElem?_eq_none (Nat.le_add_right _ _)]
    exact .none

/-- If nothing in the shorter registry is foreign in the end, then its slots are the further ones of the longer. -/
theorem slots_eq (h : Beside ks front r r') (hclear : ∀ d ∈ r.slots, ∀ n ∈ d.referenced, ¬ Foreign ks n) :
    r'.slots = front ++ r.slots := by
  apply List.ext_getElem?
  intro j
  rcases Nat.lt_or_ge j front.length with hlt | hge
  · rw [h.leading j hlt, List.getElem?_append_left hlt, List.getElem?_eq_getElem hlt]
  · obtain ⟨i, rfl⟩ := Nat.exists_eq_add_of_le hge
    rw [List.getElem?_append_right hge, Nat.add_sub_cancel_left]
    cases hi : r.slots[i]? with
    | none =>
      rw [List.getElem?_eq_none_iff] at hi ⊢
      rw [h.length_slots]
      omega
    | some d =>
      obtain ⟨d', hd', halike⟩ := h.getElem?_behind hi
      rw [hd']
      rcases halike.eq_or_foreign with heq | ⟨n, hn, hforeign⟩
      · rw [heq]
      · exact absurd hforeign (hclear d (List.mem_of_getElem? hi) n hn)

end Beside
end Registry
end
end SqlLineage
