import SqlLineage.Proofs.Checked.Select
import SqlLineage.Proofs.Query.Recursion
import SqlLineage.Proofs.Script.Trace

/-! # Queries without faults

A `WITH` list is read in a loop that keeps an index into the tokens, and the body of each common table expression is
a slice of the same tokens, read by a recursive call.

* `Checked.readCte_shrinks`: behind a common table expression the index is further on, and its body has fewer tokens.
  This is what the recursion and the loop end by.
* `Checked.readCte_eq`: one common table expression is cut out of the tokens without a fault.
* `Checked.unwind_eq`: every query is unwound without a fault. -/

namespace SqlLineage
open SqlLineage.Token
set_option autoImplicit false

/-! ## Behind an index -/

theorem Token.behindWord_drop (k i : Nat) (ts : List Token) (keyword : String) :
    behindWord ts (k + i) keyword = k + behindWord (ts.drop k) i keyword := by
  rw [behindWord, behindWord, wordAt_drop]
  split
  · exact Nat.add_assoc k i 1
  · rfl

theorem Cte.columnList?_drop (k i : Nat) (ts : List Token) :
    columnList? ts (k + i) = (columnList? (ts.drop k) i).map fun l => ⟨l.names, k + l.next⟩ := by
  rw [columnList?, columnList?, opensAt_drop, nameList?_drop]
  split <;> rfl

theorem Cte.bodyStart?_drop (k i : Nat) (ts : List Token) :
    bodyStart? ts (k + i) = (bodyStart? (ts.drop k) i).map (k + ·) := by
  rw [bodyStart?, bodyStart?, wordAt_drop, Nat.add_assoc, behindWord_drop, behindWord_drop]
  dsimp only
  rw [opensAt_drop]
  split
  · split <;> rfl
  · rfl

namespace Checked

/-! ## One common table expression -/

/-- The tokens of a body, whether it is closed, and the index behind it. -/
structure BodyAt where
  closed : Bool
  tokens : List Token
  next : Nat

/-- The body that opens at `i`. If it is not closed, it takes all tokens, and what is behind it is out of range. -/
def bodyAt (ts : List Token) (i : Nat) : Checked BodyAt :=
  match closing? ts i with
  | some close => (⟨true, ·, close + 1⟩) <$> slice ts (i + 1) close
  | none => (⟨false, ·, ts.length + 1⟩) <$> suffix ts (i + 1)

/-- A common table expression, the tokens of its body, and the index behind it. -/
structure CteAt where
  cte : Cte
  body : List Token
  next : Nat

def columnList? (ts : List Token) (i : Nat) : Checked (Option NameList) :=
  if opensAt ts i then nameList? ts i else .ok (some ⟨[], i⟩)

def readCte (recursive : Bool) (ts : List Token) (start : Nat) : Checked (Option CteAt) := do
  match ← readName? ts start with
  | none => .ok none
  | some name =>
    match ← columnList? ts name.next with
    | none => .ok none
    | some columns =>
      match Cte.bodyStart? ts columns.next with
      | none => .ok none
      | some i =>
        (fun b => some ⟨⟨name.text, columns.names, recursive, b.closed⟩, b.tokens, b.next⟩) <$> bodyAt ts i

theorem columnList?_eq (ts : List Token) (i : Nat) : columnList? ts i = .ok (Cte.columnList? ts i) := by
  unfold columnList? Cte.columnList?
  split
  · exact nameList?_eq ts i
  · rfl

theorem lt_of_bodyStart? {ts : List Token} {i j : Nat} (h : Cte.bodyStart? ts i = some j) : j < ts.length := by
  unfold Cte.bodyStart? at h
  split at h
  · dsimp only at h
    split at h
    · next hopens =>
      obtain rfl := Option.some.inj h
      exact opensAt_lt hopens
    · cases h
  · cases h

theorem bodyAt_eq {ts : List Token} {start i : Nat} (h : i < (ts.drop start).length) :
    ∃ b, bodyAt ts (start + i) = .ok b ∧ Cte.bodyAt (ts.drop start) i = (b.closed, b.tokens, ts.drop b.next) := by
  rw [List.length_drop] at h
  unfold bodyAt Cte.bodyAt
  rw [closing?_drop]
  cases hclose : closing? (ts.drop start) i with
  | none =>
    refine ⟨⟨false, ts.drop (start + i + 1), ts.length + 1⟩, ?_, ?_⟩
    · rw [Option.map_none, suffix_eq (by omega)]
      rfl
    · rw [List.drop_drop, Nat.add_assoc, List.drop_eq_nil_of_le (Nat.le_succ ts.length)]
  | some close =>
    obtain ⟨hlt, hle⟩ := closing?_bounds hclose
    rw [List.length_drop] at hle
    refine ⟨⟨true, Span.of ⟨start + i + 1, start + close⟩ ts, start + close + 1⟩, ?_, ?_⟩
    · rw [Option.map_some]
      dsimp only
      rw [slice_eq (by omega) (by omega)]
      rfl
    · dsimp only
      rw [Nat.add_assoc start i 1, Span.of_drop, List.drop_drop, Nat.add_assoc]

/-- What is read from the index `start` on is what the tokens from there on say. -/
theorem readCte_eq (recursive : Bool) (ts : List Token) (start : Nat) :
    ∃ c?, readCte recursive ts start = .ok c? ∧
      Cte.read? recursive (ts.drop start) = c?.map fun c => ⟨c.cte, c.body, ts.drop c.next⟩ := by
  have hname := QualifiedName.read?_drop start 0 ts
  rw [Nat.add_zero] at hname
  rw [readCte, readName?_eq, ok_bind, hname]
  unfold Cte.read?
  cases QualifiedName.read? (ts.drop start) 0 with
  | none => exact ⟨none, rfl, rfl⟩
  | some name =>
    dsimp only [Option.map_some]
    rw [columnList?_eq, ok_bind, Cte.columnList?_drop]
    cases Cte.columnList? (ts.drop start) name.next with
    | none => exact ⟨none, rfl, rfl⟩
    | some columns =>
      dsimp only [Option.map_some]
      rw [Cte.bodyStart?_drop]
      cases hstart : Cte.bodyStart? (ts.drop start) columns.next with
      | none => exact ⟨none, rfl, rfl⟩
      | some i =>
        obtain ⟨b, hb, heq⟩ := bodyAt_eq (lt_of_bodyStart? hstart)
        dsimp only [Option.map_some]
        rw [hb, heq]
        exact ⟨_, rfl, rfl⟩

/-- A common table expression begins inside the tokens, the index behind it is further on, and its body is shorter. -/
theorem readCte_shrinks {recursive : Bool} {ts : List Token} {start : Nat} {c : CteAt}
    (h : readCte recursive ts start = .ok (some c)) :
    start < ts.length ∧ start < c.next ∧ c.body.length < ts.length := by
  obtain ⟨c?, hc, hread⟩ := readCte_eq recursive ts start
  obtain rfl := Except.ok.inj (h.symm.trans hc)
  have hshorter := Cte.read?_shorter hread
  rw [List.length_drop, List.length_drop] at hshorter
  dsimp only at hshorter
  omega

theorem readCte_infix {recursive : Bool} {ts : List Token} {start : Nat} {c : CteAt}
    (h : readCte recursive ts start = .ok (some c)) : c.body <:+: ts := by
  obtain ⟨c?, hc, hread⟩ := readCte_eq recursive ts start
  obtain rfl := Except.ok.inj (h.symm.trans hc)
  exact (Cte.read?_infix hread).2.1.trans (List.drop_suffix _ _).isInfix

/-! ## Whole queries -/

/-- Reads what stands from the index `curr` on as the main body of a query. -/
def mainBody (ts : List Token) (curr : Nat) (name : String) (kind : Definition.Kind) (inv : Inventory)
    (ctes : CteBindings) : Checked Unwound := do
  let body ← suffix ts (min curr ts.length)
  let r ← readBody ⟨inv.registry, ctes⟩ body name kind
  .ok ⟨inv.absorb r, ctes, r.definition⟩

mutual
def unwind (ts : List Token) (name : String) (kind : Definition.Kind) (inv : Inventory) (ctes : CteBindings) :
    Checked Unwound :=
  if wordAt ts 0 "WITH" then
    if wordAt ts 1 "RECURSIVE" then unwindList true ts 2 name kind inv ctes
    else unwindList false ts 1 name kind inv ctes
  else mainBody ts 0 name kind inv ctes
termination_by (ts.length, ts.length + 3)

/-- Unwinds a query whose `WITH` list goes on at the index `curr`. -/
def unwindList (recursive : Bool) (ts : List Token) (curr : Nat) (name : String) (kind : Definition.Kind)
    (inv : Inventory) (ctes : CteBindings) : Checked Unwound :=
  match _h : readCte recursive ts curr with
  | .error e => .error e
  | .ok none => mainBody ts curr name kind inv ctes
  | .ok (some c) => do
    let entered := inv.enter name c.cte
    let filed ← unusedName entered.registry c.cte.name
    let u ← unwind c.body filed .cte entered (if c.cte.recursive then ctes.bind c.cte.name filed else ctes)
    let defined ← defineIn u.inventory (u.definition.renameColumns c.cte.columns)
    let bound := u.ctes.bind c.cte.name filed
    if ts[c.next]?.any (·.kind == .comma) then unwindList recursive ts (c.next + 1) name kind defined bound
    else mainBody ts c.next name kind defined bound
termination_by (ts.length, ts.length + 2 - curr)
decreasing_by
  · exact Prod.Lex.left _ _ (readCte_shrinks _h).2.2
  · have := readCte_shrinks _h
    exact Prod.Lex.right _ (by omega)
end

theorem mainBody_eq {inv : Inventory} (h : inv.registry.Coherent) (ts : List Token) (curr : Nat) (name : String)
    (kind : Definition.Kind) (ctes : CteBindings) :
    mainBody ts curr name kind inv ctes = .ok ((Query.body (ts.drop curr)).unwind name kind inv ctes) := by
  rw [mainBody, suffix_eq (Nat.min_le_right _ _), ok_bind, readBody_eq h, ok_bind, drop_min]
  rfl

theorem unwindList_of_none {recursive : Bool} {ts : List Token} {curr : Nat}
    (h : readCte recursive ts curr = .ok none) (name : String) (kind : Definition.Kind) (inv : Inventory)
    (ctes : CteBindings) : unwindList recursive ts curr name kind inv ctes = mainBody ts curr name kind inv ctes := by
  rw [unwindList]
  split
  · next he =>
    rw [h] at he
    cases he
  · rfl
  · next hc =>
    rw [h] at hc
    cases hc

/-- Unwinds what stands behind a common table expression. -/
def unwindRest (recursive : Bool) (ts : List Token) (curr : Nat) (name : String) (kind : Definition.Kind)
    (inv : Inventory) (ctes : CteBindings) : Checked Unwound :=
  if ts[curr]?.any (·.kind == .comma) then unwindList recursive ts (curr + 1) name kind inv ctes
  else mainBody ts curr name kind inv ctes

theorem unwindList_of_some {recursive : Bool} {ts : List Token} {curr : Nat} {c : CteAt}
    (h : readCte recursive ts curr = .ok (some c)) (name : String) (kind : Definition.Kind) (inv : Inventory)
    (ctes : CteBindings) :
    unwindList recursive ts curr name kind inv ctes = (do
      let entered := inv.enter name c.cte
      let filed ← unusedName entered.registry c.cte.name
      let u ← unwind c.body filed .cte entered (if c.cte.recursive then ctes.bind c.cte.name filed else ctes)
      let defined ← defineIn u.inventory (u.definition.renameColumns c.cte.columns)
      unwindRest recursive ts c.next name kind defined (u.ctes.bind c.cte.name filed)) := by
  rw [unwindList]
  split
  · next he =>
    rw [h] at he
    cases he
  · next hnone =>
    rw [h] at hnone
    cases hnone
  · next c' hc' =>
    obtain rfl : c = c' := Option.some.inj (Except.ok.inj (h.symm.trans hc'))
    rfl

/-- If the body of a common table expression and what stands behind it are unwound without a fault, then so is all of
the list. -/
theorem unwindList_eq {recursive : Bool} {ts : List Token} {curr : Nat} {c : CteAt}
    (h : readCte recursive ts curr = .ok (some c)) {rest : Query}
    (hbody : ∀ name kind inv ctes, inv.registry.Coherent →
      unwind c.body name kind inv ctes = .ok ((Query.ofTokens c.body).unwind name kind inv ctes))
    (hrest : ∀ name kind inv ctes, inv.registry.Coherent →
      unwindRest recursive ts c.next name kind inv ctes = .ok (rest.unwind name kind inv ctes))
    (name : String) (kind : Definition.Kind) {inv : Inventory} (ctes : CteBindings) (hinv : inv.registry.Coherent) :
    unwindList recursive ts curr name kind inv ctes =
      .ok ((Query.cte c.cte (Query.ofTokens c.body) rest).unwind name kind inv ctes) := by
  have henter : (inv.enter name c.cte).registry.Coherent := by rwa [inv.registry_enter]
  have hunwound := Inventory.coherent_unwind (Query.ofTokens c.body)
    ((inv.enter name c.cte).registry.unusedName c.cte.name) .cte (if c.cte.recursive then ctes.bind c.cte.name
      ((inv.enter name c.cte).registry.unusedName c.cte.name) else ctes) henter
  rw [unwindList_of_some h]
  dsimp only
  rw [unusedName_eq henter, ok_bind, hbody _ _ _ _ henter, ok_bind, defineIn_eq hunwound, ok_bind,
    hrest _ _ _ _ (hunwound.define _)]
  rfl

/-- A query is unwound from its tokens as it is after it has been read. -/
theorem unwind_eq (ts : List Token) : ∀ (name : String) (kind : Definition.Kind) (inv : Inventory) (ctes : CteBindings),
    inv.registry.Coherent → unwind ts name kind inv ctes = .ok ((Query.ofTokens ts).unwind name kind inv ctes) := by
  refine Query.ofTokens_induction
    (P := fun ts => ∀ name kind inv ctes, inv.registry.Coherent →
      unwind ts name kind inv ctes = .ok ((Query.ofTokens ts).unwind name kind inv ctes))
    (L := fun b us => ∀ ts curr, ts.drop curr = us → ∀ name kind inv ctes, inv.registry.Coherent →
      unwindList b ts curr name kind inv ctes = .ok ((Query.ofList b us).unwind name kind inv ctes))
    (R := fun b us => ∀ ts curr, ts.drop curr = us → ∀ name kind inv ctes, inv.registry.Coherent →
      unwindRest b ts curr name kind inv ctes = .ok ((Query.ofRest b us).unwind name kind inv ctes))
    ?body ?recursive ?list ?noCte ?cte ?further ?main ts
  case body =>
    intro ts hwith name kind inv ctes h
    rw [unwind, if_neg (Bool.eq_false_iff.mp hwith), mainBody_eq h, Query.ofTokens_of_no_with hwith, List.drop_zero]
  case recursive =>
    intro w r ts hw hr ih name kind inv ctes h
    have hwith : wordAt (w :: r :: ts) 0 "WITH" = true := hw
    have hrecursive : wordAt (w :: r :: ts) 1 "RECURSIVE" = true := hr
    rw [unwind, if_pos hwith, if_pos hrecursive, Query.ofTokens_with_recursive hw hr]
    exact ih _ 2 rfl name kind inv ctes h
  case list =>
    intro w ts hw hr ih name kind inv ctes h
    have hwith : wordAt (w :: ts) 0 "WITH" = true := hw
    have hrecursive : ¬ wordAt (w :: ts) 1 "RECURSIVE" = true := Bool.eq_false_iff.mp hr
    rw [unwind, if_pos hwith, if_neg hrecursive, Query.ofTokens_with hw hr]
    exact ih _ 1 rfl name kind inv ctes h
  case noCte =>
    intro b us hc ts curr hus name kind inv ctes h
    obtain ⟨c?, hread, heq⟩ := readCte_eq b ts curr
    rw [hus, hc] at heq
    obtain rfl := Option.map_eq_none_iff.mp heq.symm
    rw [unwindList_of_none hread, mainBody_eq h, hus, Query.ofList_of_none hc]
  case cte =>
    intro b us c hc ihbody ihrest ts curr hus name kind inv ctes h
    obtain ⟨c?, hread, heq⟩ := readCte_eq b ts curr
    rw [hus, hc] at heq
    obtain ⟨c, rfl, rfl⟩ := Option.map_eq_some_iff.mp heq.symm
    rw [Query.ofList_of_some hc]
    exact unwindList_eq hread ihbody (ihrest ts c.next rfl) name kind ctes h
  case further =>
    intro b comma us hcomma ih ts curr hus name kind inv ctes h
    have hhead : ts[curr]? = some comma := by rw [← List.head?_drop, hus, List.head?_cons]
    have htail : ts.drop (curr + 1) = us := by rw [← List.tail_drop, hus, List.tail_cons]
    rw [unwindRest, hhead, Option.any_some, if_pos (beq_iff_eq.mpr hcomma), Query.ofRest_of_comma b hcomma]
    exact ih ts (curr + 1) htail name kind inv ctes h
  case main =>
    intro b us hmain ts curr hus name kind inv ctes h
    have hno : ¬ ts[curr]?.any (·.kind == .comma) = true := by
      rw [← List.head?_drop, hus, Option.any_eq_true]
      rintro ⟨t, ht, hk⟩
      exact hmain t ht (beq_iff_eq.mp hk)
    rw [unwindRest, if_neg hno, mainBody_eq h, hus, Query.ofRest_of_no_comma b hmain]

end Checked
end SqlLineage
