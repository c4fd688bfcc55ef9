import SqlLineage.Proofs.Checked.Registry
import SqlLineage.Proofs.Checked.Token
import SqlLineage.Proofs.Select.Sources

/-! # The tables of a body without faults

The words that name tables are found by their indices, and what stands around them is looked at by index.

* `Checked.isNonTableFrom_eq`: the walk to the left stays inside the tokens.
* `Checked.readTableRef?_eq`: one table is read without a fault.
* `Checked.clauseEnd_bounds`: a clause ends behind its start and inside the tokens.
* `Checked.scopeOf_eq`: every body has a scope. -/

namespace SqlLineage
open SqlLineage.Token SqlLineage.Select
set_option autoImplicit false

namespace Checked

/-! ## Leftwards -/

def previous? (ts : List Token) (i : Nat) : Checked (Option Token) :=
  if 0 < i then do
    let j ← sub i 1
    some <$> get ts j
  else .ok none

theorem previous?_eq {ts : List Token} {i : Nat} (h : i ≤ ts.length) : previous? ts i = .ok (before? ts i) := by
  unfold previous? before?
  by_cases hi : 0 < i
  · have hlast : ts[i - 1]? = some ts[i - 1] := List.getElem?_eq_getElem (by omega)
    rw [if_pos hi, if_neg (Nat.ne_of_gt hi), sub_eq hi, ok_bind, get_eq hlast, hlast]
    rfl
  · rw [if_neg hi, if_pos (Nat.eq_zero_of_not_pos hi)]

theorem before?_eq_getLast? {ts : List Token} {i : Nat} (h : i ≤ ts.length) : before? ts i = (ts.take i).getLast? := by
  rw [List.getLast?_take, before?]
  by_cases hi : i = 0
  · rw [if_pos hi, if_pos hi]
  · rw [if_neg hi, if_neg hi, List.getElem?_eq_getElem (by omega : i - 1 < ts.length)]
    rfl

/-- Walks leftwards over the first `i` tokens. -/
def opensFromFunction (ts : List Token) (depth : Nat) : Nat → Checked Bool
  | 0 => .ok false
  | i + 1 => do
    let t ← get ts i
    match t.kind with
    | .rightParen => opensFromFunction ts (depth + 1) i
    | .leftParen =>
      if depth = 0 then (fun p => p.any (·.isOneOf fromFunctions)) <$> previous? ts i
      else do
        let depth ← sub depth 1
        opensFromFunction ts depth i
    | _ => opensFromFunction ts depth i

theorem opensFromFunction_eq {ts : List Token} (depth : Nat) {i : Nat} (h : i ≤ ts.length) :
    opensFromFunction ts depth i = .ok (Select.opensFromFunction depth (ts.take i).reverse) := by
  induction i generalizing depth with
  | zero => rfl
  | succ i ih =>
    have ih := fun depth => ih depth (Nat.le_of_succ_le h)
    have hget := List.getElem?_eq_getElem h
    have hleft : (ts.take (i + 1)).reverse = ts[i] :: (ts.take i).reverse := by
      rw [List.take_succ_eq_append_getElem h, List.reverse_append]
      rfl
    rw [hleft, opensFromFunction, get_eq hget, ok_bind, Select.opensFromFunction]
    cases ts[i].kind with
    | rightParen => exact ih _
    | leftParen =>
      dsimp only
      split
      · rw [previous?_eq (Nat.le_of_succ_le h), before?_eq_getLast? (Nat.le_of_succ_le h), map_ok, List.head?_reverse]
      · next hdepth =>
        rw [sub_eq (Nat.pos_of_ne_zero hdepth), ok_bind]
        exact ih _
    | _ => exact ih _

def isNonTableFrom (ts : List Token) (i : Nat) : Checked Bool := do
  let previous ← previous? ts i
  if previous.any (·.isWord "DISTINCT") then .ok true else opensFromFunction ts 0 i

theorem isNonTableFrom_eq {ts : List Token} {i : Nat} (h : i ≤ ts.length) :
    isNonTableFrom ts i = .ok (Select.isNonTableFrom ts i) := by
  rw [isNonTableFrom, previous?_eq h, ok_bind, opensFromFunction_eq 0 h, Select.isNonTableFrom]
  cases (before? ts i).any (·.isWord "DISTINCT") <;> rfl

/-! ## One table -/

/-- Whether a name of one part, read at `start`, is an unquoted keyword. -/
def isKeyword (ts : List Token) (start : Nat) (parts : List String) : Checked Bool :=
  if parts.length == 1 then do
    let t ← get ts start
    if t.isQuoted then .ok false else Keyword.isIgnored <$> get parts 0
  else .ok false

def readTableRef? (ts : List Token) (start : Nat) : Checked (Option TableRef) := do
  match ← readName? ts start with
  | none => .ok none
  | some n =>
    if opensAt ts n.next then .ok none
    else do
      let keyword ← isKeyword ts start n.parts
      .ok (if keyword then none else some ⟨n.parts, aliasAt? ts n.next⟩)

theorem isKeyword_eq {ts : List Token} {start : Nat} {n : QualifiedName} (h : QualifiedName.read? ts start = some n) :
    isKeyword ts start n.parts = .ok (n.parts.length == 1 && (ts[start]?.bind freeName?).isNone) := by
  unfold QualifiedName.read? at h
  rw [← List.head?_drop]
  cases hdrop : ts.drop start with
  | nil =>
    rw [hdrop] at h
    cases h
  | cons t rest =>
    have hget : ts[start]? = some t := by rw [← List.head?_drop, hdrop, List.head?_cons]
    rw [hdrop, QualifiedName.ofTokens?] at h
    obtain ⟨first, hfirst, rfl⟩ := Option.map_eq_some_iff.mp h
    rw [isKeyword, get_eq hget, ok_bind, List.head?_cons, Option.bind_some, freeName?, hfirst]
    cases (first :: QualifiedName.furtherParts rest).length == 1 with
    | false => rfl
    | true => cases t.isQuoted <;> cases hignored : Keyword.isIgnored first <;> simp [get, hignored]

theorem readTableRef?_eq (ts : List Token) (start : Nat) :
    readTableRef? ts start = .ok (TableRef.read? ts start) := by
  unfold readTableRef? TableRef.read?
  rw [readName?_eq, ok_bind]
  cases hname : QualifiedName.read? ts start with
  | none => rfl
  | some n =>
    dsimp only
    split
    · rfl
    · rw [isKeyword_eq hname, ok_bind]

/-! ## The tables behind keywords -/

def mentionAt? (ts : List Token) (depth : Int) (i : Nat) : Checked (Option Mention) := do
  let t ← get ts i
  if t.isOneOf tableKeywords then do
    let skipped ← if t.isWord "FROM" then isNonTableFrom ts i else .ok false
    if skipped then .ok none
    else
      match ← readTableRef? ts (i + 1) with
      | none => .ok none
      | some table =>
        (fun topLevel => some ⟨table, topLevel⟩) <$>
          if t.isWord "UNNEST" then .ok false else (· == depth) <$> get (depths ts) i
  else .ok none

def keywordMentions (ts : List Token) (depth : Int) : Checked (List Mention) :=
  (List.range' 0 ts.length).filterMapM (mentionAt? ts depth)

theorem mentionAt?_eq {ts : List Token} (depth : Int) {x : Placed} (h : x ∈ placed ts) :
    mentionAt? ts depth x.index = .ok (Select.mentionAt? ts depth x) := by
  obtain ⟨htoken, hdepth⟩ := get_placed h
  rw [mentionAt?, htoken, ok_bind, Select.mentionAt?, isNonTableFrom_eq (Nat.le_of_lt (lt_length_of_mem_placed h)),
    readTableRef?_eq, hdepth]
  cases x.token.isOneOf tableKeywords with
  | false => rfl
  | true =>
    cases x.token.isWord "FROM" <;> cases Select.isNonTableFrom ts x.index <;>
      cases TableRef.read? ts (x.index + 1) <;> cases x.token.isWord "UNNEST" <;> rfl

theorem keywordMentions_eq (ts : List Token) (depth : Int) :
    keywordMentions ts depth = .ok (Select.keywordMentions ts depth) := by
  rw [keywordMentions, ← map_index_placed]
  exact filterMapM_map_eq fun x hx => mentionAt?_eq depth hx

/-! ## The tables of a comma list -/

/-- The first `FROM` behind the `SELECT` at `select` that introduces a table. -/
def tableFrom? (ts : List Token) (select : Nat) : Checked (Option Nat) := do
  let depth ← get (depths ts) select
  find ts (select + 1) fun i => do
    let d ← get (depths ts) i
    if d == depth then do
      let t ← get ts i
      if t.isWord "FROM" then not <$> isNonTableFrom ts i else .ok false
    else .ok false

/-- Where a clause that begins at `start` ends. -/
def clauseEnd (ts : List Token) (start : Nat) (depth : Int) (ends : List String) : Checked Nat :=
  (·.getD ts.length) <$> find ts start fun i => do
    let d ← get (depths ts) i
    if d < depth then .ok true else if d == depth then (·.isOneOf ends) <$> get ts i else .ok false

def fromGroups (ts : List Token) (select : Nat) : Checked (List (List Token)) := do
  match ← tableFrom? ts select with
  | none => .ok []
  | some i => do
    let depth ← get (depths ts) select
    let stop ← clauseEnd ts (i + 1) depth fromListEnds
    let list ← slice ts (i + 1) stop
    topLevel list

def listMentions (ts : List Token) (select : Nat) : Checked (List Mention) := do
  let groups ← fromGroups ts select
  if groups.length < 2 then .ok []
  else groups.filterMapM fun group => Option.map (⟨·, true⟩) <$> readTableRef? group 0

theorem get_depths {ts : List Token} {i : Nat} (h : i < ts.length) : get (depths ts) i = .ok (depthAt ts i) := by
  have hlt : i < (depths ts).length := by rwa [length_depths]
  rw [get_eq (List.getElem?_eq_getElem hlt), depthAt, List.getD_eq_getElem?_getD, List.getElem?_eq_getElem hlt]
  rfl

theorem tableFrom?_eq {ts : List Token} {select : Nat} (h : select < ts.length) :
    tableFrom? ts select = .ok (Select.tableFrom? ts select) := by
  rw [tableFrom?, get_depths h, ok_bind]
  refine find_eq _ fun x hx => ?_
  obtain ⟨htoken, hdepth⟩ := get_placed hx
  rw [hdepth, ok_bind, htoken, ok_bind, isNonTableFrom_eq (Nat.le_of_lt (lt_length_of_mem_placed hx))]
  cases x.depth == depthAt ts select <;> cases x.token.isWord "FROM" <;> rfl

theorem clauseEnd_eq (ts : List Token) (start : Nat) (depth : Int) (ends : List String) :
    clauseEnd ts start depth ends = .ok (Select.clauseEnd ts start depth ends) := by
  unfold clauseEnd Select.clauseEnd
  rw [find_eq (q := fun p => p.depth < depth || p.depth == depth && p.token.isOneOf ends)]
  · cases ((placed ts).drop start).find? _ <;> rfl
  · intro x hx
    obtain ⟨htoken, hdepth⟩ := get_placed hx
    rw [hdepth, ok_bind, htoken, map_ok]
    by_cases hlt : x.depth < depth
    · simp [hlt]
    · cases x.depth == depth <;> simp [hlt]

theorem index_of_mem_drop_placed {ts : List Token} {start : Nat} {x : Placed} (h : x ∈ (placed ts).drop start) :
    start ≤ x.index ∧ x.index < ts.length := by
  have hindex := List.mem_map_of_mem (f := Placed.index) h
  rw [List.map_drop, map_index_placed, List.drop_range', Nat.zero_add, Nat.mul_one] at hindex
  exact ⟨(List.mem_range'_1.mp hindex).1, lt_length_of_mem_placed (List.mem_of_mem_drop h)⟩

theorem clauseEnd_bounds {ts : List Token} {start : Nat} (h : start ≤ ts.length) (depth : Int) (ends : List String) :
    start ≤ Select.clauseEnd ts start depth ends ∧ Select.clauseEnd ts start depth ends ≤ ts.length := by
  unfold Select.clauseEnd
  split
  · next x hx =>
    obtain ⟨hle, hlt⟩ := index_of_mem_drop_placed (List.mem_of_find?_eq_some hx)
    exact ⟨hle, Nat.le_of_lt hlt⟩
  · exact ⟨h, Nat.le_refl _⟩

theorem fromGroups_eq {ts : List Token} {select : Nat} (h : select < ts.length) :
    fromGroups ts select = .ok (Select.fromGroups ts select) := by
  unfold fromGroups Select.fromGroups
  rw [tableFrom?_eq h, ok_bind]
  cases hfrom : Select.tableFrom? ts select with
  | none => rfl
  | some i =>
    obtain ⟨x, hx, rfl⟩ := Option.map_eq_some_iff.mp hfrom
    have hlt := (index_of_mem_drop_placed (List.mem_of_find?_eq_some hx)).2
    obtain ⟨hle, hle'⟩ := clauseEnd_bounds hlt (depthAt ts select) fromListEnds
    dsimp only
    rw [get_depths h, ok_bind, clauseEnd_eq, ok_bind, slice_eq hle hle', ok_bind, topLevel_eq]

theorem listMentions_eq {ts : List Token} {select : Nat} (h : select < ts.length) :
    listMentions ts select = .ok (Select.listMentions ts select) := by
  unfold listMentions Select.listMentions
  rw [fromGroups_eq h, ok_bind]
  dsimp only
  split
  · rfl
  · exact filterMapM_eq fun group _ => by rw [readTableRef?_eq, map_ok]

/-! ## The scope -/

def mentions (ts : List Token) : Checked (List Mention) :=
  match select? ts with
  | some select => do
    let depth ← get (depths ts) select
    let behindKeywords ← keywordMentions ts depth
    let inList ← listMentions ts select
    .ok (behindKeywords ++ inList)
  | none => keywordMentions ts 0

theorem select?_lt {ts : List Token} {select : Nat} (h : select? ts = some select) : select < ts.length :=
  (List.findIdx?_eq_some_iff_findIdx_eq.mp h).1

theorem mentions_eq (ts : List Token) : mentions ts = .ok (Select.mentions ts) := by
  unfold mentions Select.mentions
  cases hselect : select? ts with
  | none => exact keywordMentions_eq ts 0
  | some select =>
    dsimp only
    rw [get_depths (select?_lt hselect), ok_bind, keywordMentions_eq, ok_bind, listMentions_eq (select?_lt hselect),
      ok_bind]

def resolve (env : Environment) (name : String) : Checked String :=
  match env.ctes.filed? name with
  | some filed => .ok filed
  | none => canonicalName env.registry name

def scopeOf (env : Environment) (ts : List Token) : Checked Scope := do
  let ms ← mentions ts
  ms.foldlM (fun s m => (s.add · m) <$> resolve env m.table.text) .empty

section Scope
variable {env : Environment} (h : env.registry.Coherent)
include h

theorem resolve_eq (name : String) : resolve env name = .ok (env.resolve name) := by
  unfold resolve Environment.resolve
  cases env.ctes.filed? name with
  | none => exact canonicalName_eq h name
  | some filed => rfl

theorem scopeOf_eq (ts : List Token) : scopeOf env ts = .ok (Select.scopeOf env ts) := by
  rw [scopeOf, mentions_eq, ok_bind, Select.scopeOf_eq]
  exact foldlM_eq (fun s m _ => by rw [resolve_eq h, map_ok]) Scope.empty

end Scope

end Checked
end SqlLineage
