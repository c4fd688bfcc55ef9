import SqlLineage.Token.Bracket
import SqlLineage.Token.QualifiedName

/-! # Qualified names, token by token

Behind its first identifier a name goes on with dots, each followed by an identifier, for as long as it can.

* `QualifiedName.getElem?_furtherParts`: the two tokens of a further part.
* `QualifiedName.inside`: no name begins inside a name.
* `QualifiedName.furtherParts_of_prefix`: fewer tokens give no more parts. -/

namespace SqlLineage.QualifiedName
open SqlLineage.Token
set_option autoImplicit false

theorem furtherParts_cons {t : Token} (h : t.kind ≠ .dot) (ts : List Token) : furtherParts (t :: ts) = [] := by
  cases ts with
  | nil => rfl
  | cons u ts => rw [furtherParts, if_neg h]

theorem ofTokens?_cons {t : Token} {part : String} (h : t.identifier? = some part) (start : Nat) (ts : List Token) :
    ofTokens? start (t :: ts) = some ⟨part :: furtherParts ts, start + 1 + 2 * (furtherParts ts).length⟩ := by
  rw [ofTokens?, h]
  rfl

theorem read?_eq_some_iff {ts : List Token} {start : Nat} {n : QualifiedName} :
    read? ts start = some n ↔ ∃ t part, ts[start]? = some t ∧ t.identifier? = some part ∧
      n = ⟨part :: furtherParts (ts.drop (start + 1)),
        start + 1 + 2 * (furtherParts (ts.drop (start + 1))).length⟩ := by
  rw [read?]
  cases ht : ts[start]? with
  | none =>
    rw [List.drop_eq_nil_of_le (List.getElem?_eq_none_iff.mp ht)]
    simp [ofTokens?]
  | some t =>
    obtain ⟨hlt, rfl⟩ := List.getElem?_eq_some_iff.mp ht
    rw [List.drop_eq_getElem_cons hlt, ofTokens?, Option.map_eq_some_iff]
    constructor
    · rintro ⟨part, hpart, rfl⟩
      exact ⟨_, part, rfl, hpart, rfl⟩
    · rintro ⟨_, part, ⟨⟩, hpart, rfl⟩
      exact ⟨part, hpart, rfl⟩

theorem getElem?_furtherParts {ts : List Token} {m : Nat} (h : m < (furtherParts ts).length) :
    (∃ d, ts[2 * m]? = some d ∧ d.kind = .dot) ∧ ∃ t, ts[2 * m + 1]? = some t ∧ t.isIdentifier = true := by
  fun_induction furtherParts ts generalizing m with
  | case1 d t ts hdot part hpart ih =>
    cases m with
    | zero => exact ⟨⟨d, rfl, hdot⟩, t, rfl, by simp [isIdentifier, hpart]⟩
    | succ m =>
      rw [List.length_cons, Nat.add_lt_add_iff_right] at h
      exact ih h
  | case2 => cases h
  | case3 => cases h
  | case4 => cases h

section Read
variable {ts : List Token} {start : Nat} {n : QualifiedName}

/-- A token inside a name is a dot or stands behind one. -/
theorem inside (h : read? ts start = some n) {k : Nat} (hlt : start < k) (hk : k < n.next) :
    (∃ d, ts[k]? = some d ∧ d.kind = .dot) ∨ (before? ts k).any (·.kind == .dot) = true := by
  obtain ⟨t, part, -, -, rfl⟩ := read?_eq_some_iff.mp h
  dsimp only at hk
  obtain ⟨m, rfl | rfl⟩ : ∃ m, k = start + 1 + 2 * m ∨ k = start + 1 + (2 * m + 1) := by
    refine ⟨(k - (start + 1)) / 2, ?_⟩
    omega
  · have hm : m < (furtherParts (ts.drop (start + 1))).length := by omega
    obtain ⟨hdot, -⟩ := getElem?_furtherParts hm
    rw [List.getElem?_drop] at hdot
    exact .inl hdot
  · have hm : m < (furtherParts (ts.drop (start + 1))).length := by omega
    obtain ⟨⟨d, hd, hdot⟩, -⟩ := getElem?_furtherParts hm
    rw [List.getElem?_drop] at hd
    refine .inr ?_
    rw [before?, if_neg (by omega), show start + 1 + (2 * m + 1) - 1 = start + 1 + 2 * m by omega, hd, Option.any_some,
      hdot]
    rfl

theorem parts_of_next (h : read? ts start = some n) (hn : n.next = start + 1) :
    ∃ t part, ts[start]? = some t ∧ t.identifier? = some part ∧ n.parts = [part] ∧
      furtherParts (ts.drop (start + 1)) = [] := by
  obtain ⟨t, part, ht, hpart, rfl⟩ := read?_eq_some_iff.mp h
  have hnil : furtherParts (ts.drop (start + 1)) = [] := by
    rw [← List.length_eq_zero_iff]
    dsimp only at hn
    omega
  exact ⟨t, part, ht, hpart, by rw [hnil], hnil⟩

end Read

theorem furtherParts_of_prefix {ts us : List Token} (h : us <+: ts) (hts : furtherParts ts = []) :
    furtherParts us = [] := by
  obtain ⟨rest, rfl⟩ := h
  match us, hts with
  | [], _ => rfl
  | [_], _ => rfl
  | d :: t :: us, hts =>
    rw [List.cons_append, List.cons_append, furtherParts] at hts
    rw [furtherParts]
    split
    · next hdot =>
      rw [if_pos hdot] at hts
      cases hpart : t.identifier? with
      | none => rfl
      | some part =>
        rw [hpart] at hts
        cases hts
    · rfl

end SqlLineage.QualifiedName
