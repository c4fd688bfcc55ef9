import SqlLineage.Proofs.Checked.Access
import SqlLineage.Token.QualifiedName

/-! # Reading tokens without faults

* `Token.closing?_drop`, `QualifiedName.read?_drop`, `Token.nameList?_drop`: readers find the same behind an index as
  in the tokens from that index on.
* `Checked.find_eq`: a search over indices finds what a search over places finds.
* `Checked.topLevel_eq`, `Checked.nameList?_eq`, `Checked.unwrapped_eq`, `Checked.readName?_eq`: groups, lists of names
  and names are cut out of the tokens without a fault. -/

namespace SqlLineage
set_option autoImplicit false

/-! ## Behind an index -/

theorem Token.Span.of_drop {α : Type} (k start stop : Nat) (xs : List α) :
    Span.of ⟨k + start, k + stop⟩ xs = Span.of ⟨start, stop⟩ (xs.drop k) := by
  rw [Span.of, Span.of, List.drop_drop]
  congr 1
  exact Nat.add_sub_add_left k stop start

theorem Token.opensAt_drop (k i : Nat) (ts : List Token) : opensAt (ts.drop k) i = opensAt ts (k + i) := by
  rw [opensAt, opensAt, List.getElem?_drop]

theorem Token.wordAt_drop (k i : Nat) (ts : List Token) (keyword : String) :
    wordAt (ts.drop k) i keyword = wordAt ts (k + i) keyword := by
  rw [wordAt, wordAt, List.getElem?_drop]

theorem Token.wordAt_lt {ts : List Token} {i : Nat} {keyword : String} (h : wordAt ts i keyword = true) :
    i < ts.length := by
  refine Nat.lt_of_not_le fun hge => ?_
  rw [wordAt, List.getElem?_eq_none hge] at h
  cases h

theorem Token.opensAt_lt {ts : List Token} {i : Nat} (h : opensAt ts i = true) : i < ts.length := by
  refine Nat.lt_of_not_le fun hge => ?_
  rw [opensAt, List.getElem?_eq_none hge] at h
  cases h

theorem Token.closingFrom_add (k i : Nat) (d : Int) (ts : List Token) :
    closingFrom (k + i) d ts = (closingFrom i d ts).map (k + ·) := by
  induction ts generalizing i d with
  | nil => rfl
  | cons t ts ih =>
    rw [closingFrom, closingFrom]
    split
    · rfl
    · exact ih (i + 1) _

theorem Token.closing?_drop (k i : Nat) (ts : List Token) :
    closing? ts (k + i) = (closing? (ts.drop k) i).map (k + ·) := by
  rw [closing?, closing?, List.drop_drop, closingFrom_add]

theorem QualifiedName.read?_drop (k i : Nat) (ts : List Token) :
    read? ts (k + i) = (read? (ts.drop k) i).map fun n => ⟨n.parts, k + n.next⟩ := by
  rw [read?, read?, List.drop_drop]
  cases ts.drop (k + i) with
  | nil => rfl
  | cons t rest =>
    rw [ofTokens?, ofTokens?]
    cases t.identifier? with
    | none => rfl
    | some first => simp [Nat.add_assoc]

theorem Token.nameList?_eq (ts : List Token) (start : Nat) :
    nameList? ts start = if opensAt ts start then
      (closing? ts start).map fun close => ⟨headNames (Span.of ⟨start + 1, close⟩ ts), close + 1⟩ else none := by
  unfold nameList? opensAt
  cases ts[start]? with
  | none => rfl
  | some t => simp

theorem Token.nameList?_drop (k i : Nat) (ts : List Token) :
    nameList? ts (k + i) = (nameList? (ts.drop k) i).map fun l => ⟨l.names, k + l.next⟩ := by
  rw [nameList?_eq, nameList?_eq, opensAt_drop, closing?_drop]
  split
  · cases closing? (ts.drop k) i with
    | none => rfl
    | some close => simp only [Option.map_some, Nat.add_assoc, Span.of_drop]
  · rfl

/-! ## Places -/

namespace Token

theorem mem_placed {ts : List Token} {p : Placed} (h : p ∈ placed ts) :
    ts[p.index]? = some p.token ∧ (depths ts)[p.index]? = some p.depth := by
  obtain ⟨x, hx, rfl⟩ := List.mem_map.mp h
  have hzip : (ts.zip (depths ts))[x.2]? = some x.1 := by
    rw [List.mem_zipIdx_iff_getElem?] at hx
    exact hx
  rw [List.getElem?_zip_eq_some] at hzip
  exact hzip

theorem lt_length_of_mem_placed {ts : List Token} {p : Placed} (h : p ∈ placed ts) : p.index < ts.length :=
  (List.getElem?_eq_some_iff.mp (mem_placed h).1).1

theorem map_index_placed (ts : List Token) : (placed ts).map Placed.index = List.range' 0 ts.length := by
  have hindex : Placed.index ∘ (fun p : (Token × Int) × Nat => (⟨p.1.1, p.1.2, p.2⟩ : Placed)) = Prod.snd := rfl
  rw [placed, List.map_map, hindex, List.zipIdx_map_snd, List.length_zip, length_depths, Nat.min_self]

theorem Span.mem_nonempty {s : Span} {start stop : Nat} :
    s ∈ Span.nonempty start stop ↔ start < stop ∧ s = ⟨start, stop⟩ := by
  unfold Span.nonempty
  split
  · next hlt => simp [hlt]
  · next hle => simp [hle]

theorem spansFrom_bounds {i start : Nat} {d : Int} {ts : List Token} (h : start ≤ i) :
    ∀ s ∈ spansFrom i start d ts, s.start < s.stop ∧ s.stop ≤ i + ts.length := by
  induction ts generalizing i start d with
  | nil =>
    intro s hs
    obtain ⟨hlt, rfl⟩ := Span.mem_nonempty.mp hs
    exact ⟨hlt, Nat.le_refl i⟩
  | cons t ts ih =>
    intro s hs
    rw [List.length_cons]
    unfold spansFrom at hs
    split at hs
    · rcases List.mem_append.mp hs with hs | hs
      · obtain ⟨hlt, rfl⟩ := Span.mem_nonempty.mp hs
        exact ⟨hlt, Nat.le_add_right ..⟩
      · obtain ⟨hlt, hle⟩ := ih (Nat.le_refl _) s hs
        exact ⟨hlt, by omega⟩
    · obtain ⟨hlt, hle⟩ := ih (Nat.le_succ_of_le h) s hs
      exact ⟨hlt, by omega⟩

theorem topLevelSpans_bounds {ts : List Token} :
    ∀ s ∈ topLevelSpans ts, s.start < s.stop ∧ s.stop ≤ ts.length := by
  intro s hs
  have hbounds := spansFrom_bounds (Nat.le_refl 0) s hs
  rwa [Nat.zero_add] at hbounds

end Token

namespace Checked
open Token

/-- Looks at the indices from `start` on up to the number of tokens. -/
def find (ts : List Token) (start : Nat) (p : Nat → Checked Bool) : Checked (Option Nat) :=
  (List.range' start (ts.length - start)).findM? p

theorem find_eq {ts : List Token} (start : Nat) {p : Nat → Checked Bool} {q : Placed → Bool}
    (h : ∀ x ∈ placed ts, p x.index = .ok (q x)) :
    find ts start p = .ok ((((placed ts).drop start).find? q).map Placed.index) := by
  have hrange : List.range' start (ts.length - start) = ((placed ts).drop start).map Placed.index := by
    rw [List.map_drop, map_index_placed, List.drop_range', Nat.zero_add, Nat.mul_one]
  rw [find, hrange]
  exact findM?_map_eq fun x hx => h x (List.mem_of_mem_drop hx)

theorem get_placed {ts : List Token} {x : Placed} (h : x ∈ placed ts) :
    get ts x.index = .ok x.token ∧ get (depths ts) x.index = .ok x.depth :=
  ⟨get_eq (mem_placed h).1, get_eq (mem_placed h).2⟩

/-! ## Groups and lists of names -/

def topLevel (ts : List Token) : Checked (List (List Token)) :=
  (topLevelSpans ts).mapM fun s => slice ts s.start s.stop

theorem topLevel_eq (ts : List Token) : topLevel ts = .ok (Token.topLevel ts) :=
  mapM_eq fun s hs => slice_eq (Nat.le_of_lt (topLevelSpans_bounds s hs).1) (topLevelSpans_bounds s hs).2

def headNames (ts : List Token) : Checked (List String) :=
  (fun groups => groups.filterMap fun group => group.head?.bind identifier?) <$> topLevel ts

theorem headNames_eq (ts : List Token) : headNames ts = .ok (Token.headNames ts) := by
  rw [headNames, topLevel_eq]
  rfl

def nameList? (ts : List Token) (start : Nat) : Checked (Option NameList) :=
  if opensAt ts start then
    match closing? ts start with
    | none => .ok none
    | some close => do
      let inner ← slice ts (start + 1) close
      let names ← headNames inner
      .ok (some ⟨names, close + 1⟩)
  else .ok none

theorem nameList?_eq (ts : List Token) (start : Nat) : nameList? ts start = .ok (Token.nameList? ts start) := by
  rw [nameList?, Token.nameList?_eq]
  split
  · cases hclose : closing? ts start with
    | none => rfl
    | some close =>
      obtain ⟨hlt, hle⟩ := closing?_bounds hclose
      dsimp only
      rw [slice_eq hlt (Nat.le_of_lt hle), ok_bind, headNames_eq]
      rfl
  · rfl

/-- Takes one pair of parentheses off the tokens, if it stands around all of them. -/
def unwrapped (ts : List Token) : Checked (List Token) :=
  if opensAt ts 0 then do
    let last ← sub ts.length 1
    if closing? ts 0 = some last then slice ts 1 last else .ok ts
  else .ok ts

theorem unwrapped_eq (ts : List Token) : unwrapped ts = .ok (Token.unwrapped ts) := by
  cases ts with
  | nil => rfl
  | cons t rest =>
    have hopens : opensAt (t :: rest) 0 = true ↔ t.kind = .leftParen := by simp [opensAt]
    rw [unwrapped, Token.unwrapped]
    by_cases ht : t.kind = .leftParen
    · rw [if_pos (hopens.mpr ht), List.length_cons, sub_eq (Nat.le_add_left 1 _), ok_bind, Nat.add_sub_cancel]
      by_cases hclose : closing? (t :: rest) 0 = some rest.length
      · have hpos := (closing?_bounds hclose).1
        rw [if_pos hclose, if_pos ⟨ht, hclose⟩, slice_eq hpos (Nat.le_succ _), Span.of, List.drop_succ_cons,
          List.drop_zero, List.dropLast_eq_take]
      · rw [if_neg hclose, if_neg fun h => hclose h.2]
    · rw [if_neg fun h => ht (hopens.mp h), if_neg fun h => ht h.1]

/-! ## Names -/

/-- The further parts of a name that goes on at `i`, and the index behind it. -/
def furtherParts (ts : List Token) (i : Nat) : Checked (List String × Nat) :=
  if i + 1 < ts.length then do
    let d ← get ts i
    let t ← get ts (i + 1)
    if d.kind = .dot then
      match t.identifier? with
      | some part => Prod.map (List.cons part) id <$> furtherParts ts (i + 2)
      | none => .ok ([], i)
    else .ok ([], i)
  else .ok ([], i)
termination_by ts.length - i

theorem furtherParts_eq (ts : List Token) (i : Nat) :
    furtherParts ts i = .ok (QualifiedName.furtherParts (ts.drop i),
      i + 2 * (QualifiedName.furtherParts (ts.drop i)).length) := by
  generalize hn : ts.length - i = n
  induction n using Nat.strongRecOn generalizing i with
  | ind n ih =>
    rw [furtherParts]
    split
    · next hi =>
      have hdrop := List.drop_eq_getElem_cons (Nat.lt_of_succ_lt hi)
      have hdrop' := List.drop_eq_getElem_cons hi
      rw [hdrop'] at hdrop
      rw [get_eq (List.getElem?_eq_getElem (Nat.lt_of_succ_lt hi)), ok_bind, get_eq (List.getElem?_eq_getElem hi),
        ok_bind, hdrop, QualifiedName.furtherParts]
      split
      · cases ts[i + 1].identifier? with
        | none => rfl
        | some part =>
          dsimp only
          rw [ih (ts.length - (i + 2)) (by omega) (i + 2) rfl, map_ok, List.length_cons]
          have hnext : ∀ k : Nat, i + 2 + 2 * k = i + 2 * (k + 1) := fun k => by omega
          exact congrArg Except.ok (Prod.ext rfl (hnext _))
      · rfl
    · next hi =>
      have hshort : (ts.drop i).length ≤ 1 := by
        rw [List.length_drop]
        omega
      have hnone : ∀ l : List Token, l.length ≤ 1 → QualifiedName.furtherParts l = [] := by
        intro l hl
        rcases l with _ | ⟨d, _ | ⟨t, l⟩⟩
        · rfl
        · rfl
        · simp at hl
      rw [hnone _ hshort]
      rfl

def readName? (ts : List Token) (start : Nat) : Checked (Option QualifiedName) :=
  match ts[start]?.bind identifier? with
  | none => .ok none
  | some first => do
    let (parts, next) ← furtherParts ts (start + 1)
    .ok (some ⟨first :: parts, next⟩)

theorem readName?_eq (ts : List Token) (start : Nat) : readName? ts start = .ok (QualifiedName.read? ts start) := by
  unfold readName? QualifiedName.read?
  rw [← List.head?_drop]
  cases hdrop : ts.drop start with
  | nil => rfl
  | cons t rest =>
    rw [List.head?_cons, Option.bind_some, QualifiedName.ofTokens?]
    cases t.identifier? with
    | none => rfl
    | some first =>
      dsimp only
      rw [furtherParts_eq, ok_bind, ← List.tail_drop, hdrop, List.tail_cons]
      rfl

end Checked
end SqlLineage
