import Mathlib.Data.List.Nodup
import SqlLineage.Registry

/-! # Unused names

The candidates `base 2`, `base 3`, … keep apart in upper case, because a numeral is its own upper case
and says which number it is. There is one candidate more than there are filed names, so by counting one
of them is free: `Registry.unusedName` always finds a name that nothing has, in any case. -/

namespace SqlLineage
open SqlLineage.Text
set_option autoImplicit false

/-! ## Numerals -/

theorem upperChar_of_isDigit {c : Char} (h : c.isDigit = true) : upperChar c = [c] := by
  have hc : 48 ≤ c.toNat ∧ c.toNat ≤ 57 := by
    simpa [Char.isDigit, UInt32.le_iff_toNat_le] using h
  have hu : c.toUpper = c := by
    unfold Char.toUpper
    rw [dif_neg]
    simp only [UInt32.le_iff_toNat_le, not_and]
    intro h97
    have : 97 ≤ c.toNat := h97
    omega
  unfold upperChar
  rw [if_pos (by omega), hu]

theorem upper_repr (n : Nat) : upper n.repr = n.repr := by
  rw [← String.toList_inj, toList_upper, Nat.toList_repr]
  have hd : ∀ c ∈ Nat.toDigits 10 n, upperChar c = [c] := fun c hc =>
    upperChar_of_isDigit (Nat.isDigit_of_mem_toDigits (by decide) (by decide) hc)
  rw [List.flatMap_congr hd]
  simp

theorem repr_inj {m n : Nat} (h : m.repr = n.repr) : m = n := by
  have hl : Nat.toDigits 10 m = Nat.toDigits 10 n := by
    rw [← Nat.toList_repr, ← Nat.toList_repr, h]
  rw [← Nat.ofDigitChars_ten_toDigits (n := m), hl, Nat.ofDigitChars_ten_toDigits]

theorem upper_numbered_inj (base : String) {m n : Nat}
    (h : upper (base ++ " " ++ toString m) = upper (base ++ " " ++ toString n)) : m = n := by
  rw [upper_append, upper_append (base ++ " "), String.append_right_inj] at h
  have hr : upper m.repr = upper n.repr := h
  rw [upper_repr, upper_repr] at hr
  exact repr_inj hr

/-! ## Counting candidates -/

namespace Registry

theorem mem_keys_of_defines {r : Registry} {name : String} (h : r.defines name = true) :
    upper name ∈ r.index.keys := by
  have hf : (r.index.find? (upper name)).isSome = true := by
    simp only [defines, lookup, find?, Option.isSome_map] at h
    exact Option.isSome_of_isSome_bind h
  obtain ⟨i, hi⟩ := Option.isSome_iff_exists.mp hf
  unfold OrderedMap.find? at hi
  obtain ⟨l₁, l₂, he, -⟩ := List.lookup_eq_some_iff.mp hi
  rw [OrderedMap.keys, he]
  simp

theorem nodup_upper_candidates (r : Registry) (base : String) :
    ((r.candidates base).map upper).Nodup := by
  unfold candidates
  rw [List.map_map]
  refine List.Nodup.map_on ?_ (List.nodup_range' ..)
  intro m _ n _ h
  exact upper_numbered_inj base h

theorem exists_unused_candidate (r : Registry) (base : String) :
    ∃ n ∈ r.candidates base, r.defines n = false := by
  by_contra hnone
  have hall : ∀ n ∈ r.candidates base, r.defines n = true := by
    intro n hn
    by_contra hd
    exact hnone ⟨n, hn, by simpa using hd⟩
  have hsub : (r.candidates base).map upper ⊆ r.index.keys := by
    intro k hk
    obtain ⟨n, hn, rfl⟩ := List.mem_map.mp hk
    exact mem_keys_of_defines (hall n hn)
  -- there is one candidate more than the index has keys
  have hle := (nodup_upper_candidates r base).length_le_of_subset hsub
  simp only [candidates, OrderedMap.keys, List.length_map, List.length_range'] at hle
  omega

theorem defines_unusedName (r : Registry) (base : String) : r.defines (r.unusedName base) = false := by
  unfold unusedName
  split
  · obtain ⟨n, hn, hfree⟩ := exists_unused_candidate r base
    cases hf : (r.candidates base).find? fun n => !r.defines n with
    | none =>
      have := List.find?_eq_none.mp hf n hn
      simp [hfree] at this
    | some m =>
      have := List.find?_some hf
      simpa using this
  · next h => simpa using h

/-- Instead of a name that is taken the first free one among `base 2`, `base 3` and so on is found. -/
theorem exists_unusedName_eq {r : Registry} {base : String} (h : r.defines base = true) :
    ∃ k, 2 ≤ k ∧ r.unusedName base = base ++ " " ++ toString k ∧
      r.defines (base ++ " " ++ toString k) = false ∧
      ∀ j, 2 ≤ j → j < k → r.defines (base ++ " " ++ toString j) = true := by
  have hname : r.unusedName base = ((r.candidates base).find? fun n => !r.defines n).getD base := if_pos h
  obtain ⟨n, hn, hfree⟩ := exists_unused_candidate r base
  have hsome : ((r.candidates base).find? fun n => !r.defines n).isSome = true :=
    List.find?_isSome.mpr ⟨n, hn, by simp [hfree]⟩
  obtain ⟨name, hfind⟩ := Option.isSome_iff_exists.mp hsome
  rw [hname, hfind]
  rw [candidates, List.find?_map] at hfind
  obtain ⟨k, hk, rfl⟩ := Option.map_eq_some_iff.mp hfind
  obtain ⟨hunused, hmem, hbefore⟩ := List.find?_range'_eq_some.mp hk
  refine ⟨k, (List.mem_range'_1.mp hmem).1, rfl, by simpa using hunused, fun j hj hjk => ?_⟩
  simpa using hbefore j hj hjk

end Registry
end SqlLineage
