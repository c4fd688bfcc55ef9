import SqlLineage.Proofs.Query.WithList
import SqlLineage.Proofs.Script.Trace
import SqlLineage.Proofs.Select.Behind

/-! # Parentheses around a query

The query of a `CREATE` statement may stand in parentheses. One pair of them is taken off before the query is read, and
a body is read alike with any number of pairs around it; but a `WITH` list is only seen where the query begins.

* `Token.Wrapped`: tokens in a number of pairs of parentheses.
* `Token.Wrapped.read_eq`: a body in parentheses is read like the body.
* `CreateHead`: what stands in front of the query, and `CreateHead.exists_statement`: what it makes of the query.
* `CreateHead.parentheses_iff`: when parentheses make no difference. -/

namespace SqlLineage
open SqlLineage.Text SqlLineage.Token
set_option autoImplicit false

/-! ## Tokens in parentheses -/

namespace Token

/-- The second tokens are the first ones in so many pairs of parentheses. -/
inductive Wrapped (q : List Token) : Nat → List Token → Prop where
  | bare : Wrapped q 0 q
  | layer {k : Nat} {ts : List Token} {o c : Token} (ho : o.kind = .leftParen) (hl : o.lexeme = "(")
      (hc : c.kind = .rightParen) (hts : Wrapped q k ts) : Wrapped q (k + 1) (o :: (ts ++ [c]))

theorem unwrapped_wrap {ts : List Token} (h : Balanced ts) {o c : Token} (ho : o.kind = .leftParen)
    (hc : c.kind = .rightParen) : unwrapped (o :: (ts ++ [c])) = ts := by
  have hclose : closing? (o :: (ts ++ [c])) 0 = some (ts ++ [c]).length := by
    rw [List.length_append, Nat.add_comm]
    exact closing?_group h ho hc [] []
  rw [unwrapped, if_pos ⟨ho, hclose⟩, List.dropLast_concat]

namespace Wrapped
variable {q ts : List Token} {k : Nat}

theorem balanced (h : Wrapped q k ts) (hq : Balanced q) : Balanced ts := by
  induction h with
  | bare => exact hq
  | layer ho _ hc _ ih => exact ih.wrap ho hc

theorem read_eq (h : Wrapped q k ts) (hq : Balanced q) (env : Environment) (name : String) (kind : Definition.Kind) :
    Select.read env ts name kind = Select.read env q name kind := by
  induction h with
  | bare => rfl
  | layer ho hl hc hts ih => rw [Select.read_cons ho hl, Select.read_concat hc (hts.balanced hq), ih]

theorem find?_eq (h : Wrapped q k ts) {s : Token} (hs : q.head? = some s) (hword : s.kind ≠ .leftParen) :
    ts.find? (·.kind != .leftParen) = some s := by
  induction h with
  | bare =>
    obtain ⟨rest, rfl⟩ := List.head?_eq_some_iff.mp hs
    exact List.find?_cons_of_pos (by simpa using hword)
  | layer ho _ _ _ ih =>
    rw [List.find?_cons_of_neg (by simp [ho]), List.find?_append, ih]
    rfl

theorem eq_of_zero (h : Wrapped q k ts) (hk : k = 0) : ts = q := by
  subst hk
  cases h
  rfl

theorem unwrapped (h : Wrapped q k ts) (hq : Balanced q) {s : Token} (hs : q.head? = some s)
    (hword : s.kind ≠ .leftParen) : Wrapped q (k - 1) (Token.unwrapped ts) := by
  cases h with
  | bare =>
    obtain ⟨rest, rfl⟩ := List.head?_eq_some_iff.mp hs
    rw [Token.unwrapped, if_neg fun hparen => hword hparen.1]
    exact .bare
  | layer ho _ hc hts =>
    rw [unwrapped_wrap (hts.balanced hq) ho hc]
    exact hts

theorem ofTokens_eq (h : Wrapped q k ts) (hk : k ≠ 0) : Query.ofTokens ts = .body ts := by
  cases h with
  | bare => exact absurd rfl hk
  | layer ho => exact Query.ofTokens_of_no_with (by simp [wordAt, isWord, ho])

end Wrapped
end Token

/-! ## Slots of common table expressions -/

namespace Registry
variable {r : Registry} (h : r.Coherent)
include h

/-- A slot of a common table expression stays one: nothing but another of them takes its place. -/
theorem Coherent.cte_define {i : Nat} (hi : r.slots[i]?.map Definition.kind = some .cte) (d : Definition) :
    (r.define d).registry.slots[i]?.map Definition.kind = some .cte := by
  obtain ⟨e, he, hk⟩ := Option.map_eq_some_iff.mp hi
  have hlt : i < r.slots.length := (List.getElem?_eq_some_iff.mp he).1
  rw [h.getElem?_define]
  split
  · next hslot =>
    rcases define_cases r d with ⟨-, hd⟩ | ⟨_, _, -, -, -, hd⟩ | ⟨j, old, hf, hkinds, hd⟩
    · rw [hd] at hslot
      exact absurd hslot (Nat.ne_of_lt hlt)
    · rw [hd] at hslot
      exact absurd hslot (Nat.ne_of_lt hlt)
    · rw [hd] at hslot
      obtain rfl : i = j := hslot
      obtain rfl : e = old := Option.some.inj (he.symm.trans (h.find?_eq_some_iff.mp hf).1)
      exact congrArg some (hkinds hk)
  · rw [he]
    exact congrArg some hk

theorem Coherent.cte_fileAll {i : Nat} (hi : r.slots[i]?.map Definition.kind = some .cte) (ds : List Definition) :
    (r.fileAll ds).slots[i]?.map Definition.kind = some .cte := by
  induction ds generalizing r with
  | nil => exact hi
  | cons d ds ih => exact ih (h.define d) (h.cte_define hi d)

theorem Coherent.kind_behind_define {d : Definition} (hd : d.kind ≠ .cte) :
    (r.define d).registry.slots[r.slots.length]?.map Definition.kind ≠ some .cte := by
  rw [h.getElem?_define]
  split
  · exact fun hk => hd (Option.some.inj hk)
  · rw [List.getElem?_eq_none (Nat.le_refl _)]
    rintro ⟨⟩

end Registry

namespace Query

/-- The first common table expression of a query gets the first new slot. -/
theorem cte_behind_filings {q : Query} {env : Environment} (h : env.registry.Coherent) (hq : q.heads ≠ []) :
    (env.registry.fileAll ((q.filings env).map Filing.definition)).slots[env.registry.slots.length]?.map
      Definition.kind = some .cte := by
  cases hf : q.filings env with
  | nil =>
    have hheads := q.map_head_filings env
    rw [hf] at hheads
    exact absurd hheads.symm hq
  | cons f fs =>
    have hfree : env.registry.defines f.definition.name = false := by
      rw [f.name_definition]
      exact q.free_of_mem_filings h f (hf ▸ List.mem_cons_self ..)
    rw [List.map_cons, Registry.fileAll_cons]
    refine (h.define _).cte_fileAll ?_ _
    rw [h.define_of_free hfree, Registry.slots_append, List.getElem?_concat_length]
    exact congrArg some f.kind_definition

theorem ofTokens_of_select {ts : List Token} (h : wordAt ts 0 "SELECT" = true) : ofTokens ts = .body ts := by
  cases ts with
  | nil => cases h
  | cons t rest => exact ofTokens_of_no_with (isWord_of_isWord (t := t) h "WITH")

theorem ofList_of_heads_nil {recursive : Bool} {ts : List Token} (h : (ofList recursive ts).heads = []) :
    ofList recursive ts = .body ts := by
  cases hread : Cte.read? recursive ts with
  | none => exact ofList_of_none hread
  | some c =>
    rw [ofList_of_some hread, heads] at h
    simp at h

/-- A query without common table expressions is a body, maybe behind the words of a list. -/
theorem body_of_heads_nil {ts : List Token} (h : (ofTokens ts).heads = []) :
    ∃ j ≤ ts.length, (∀ t ∈ ts.take j, Select.Idle t) ∧ ofTokens ts = .body (ts.drop j) := by
  cases hwith : wordAt ts 0 "WITH" with
  | false => exact ⟨0, Nat.zero_le _, by simp, ofTokens_of_no_with hwith⟩
  | true =>
    cases ts with
    | nil => cases hwith
    | cons w ts =>
      have hw := Select.idle_of_isWord (t := w) hwith (by decide)
      cases hrecursive : wordAt ts 0 "RECURSIVE" with
      | false =>
        rw [ofTokens_with hwith hrecursive] at h ⊢
        exact ⟨1, by simp, by simpa using hw, ofList_of_heads_nil h⟩
      | true =>
        cases ts with
        | nil => cases hrecursive
        | cons r ts =>
          have hr := Select.idle_of_isWord (t := r) hrecursive (by decide)
          rw [ofTokens_with_recursive hwith hrecursive] at h ⊢
          exact ⟨2, by simp, by simpa using ⟨hw, hr⟩, ofList_of_heads_nil h⟩

end Query

/-! ## Queries in parentheses -/

namespace Statement

theorem addQuery_of_body {ts us : List Token} (h : Query.ofTokens ts = .body us) (inv : Inventory) (name : String)
    (kind : Definition.Kind) (f : Definition → Definition) :
    addQuery inv ts name kind f = (inv.absorb (Select.read ⟨inv.registry, .empty⟩ us name kind)).define
      (f (Select.read ⟨inv.registry, .empty⟩ us name kind).definition) := by
  rw [addQuery, h]
  rfl

section Wrapped
variable {q ts : List Token} {k : Nat} (h : Wrapped q k ts) (hq : Balanced q) (inv : Inventory) (name : String)
  (kind : Definition.Kind) (f : Definition → Definition)
include h hq

theorem addQuery_wrapped_body (hbody : Query.ofTokens q = .body q) :
    addQuery inv ts name kind f = addQuery inv q name kind f := by
  rcases Nat.eq_zero_or_pos k with hk | hk
  · rw [h.eq_of_zero hk]
  · rw [addQuery_of_body (h.ofTokens_eq (Nat.ne_of_gt hk)), addQuery_of_body hbody, h.read_eq hq]

/-- Without common table expressions the definition is the same. -/
theorem registry_addQuery_wrapped (hheads : (Query.ofTokens q).heads = []) :
    (addQuery inv ts name kind f).registry = (addQuery inv q name kind f).registry := by
  rcases Nat.eq_zero_or_pos k with hk | hk
  · rw [h.eq_of_zero hk]
  · obtain ⟨j, hj, hidle, hbody⟩ := Query.body_of_heads_nil hheads
    rw [addQuery_of_body (h.ofTokens_eq (Nat.ne_of_gt hk)), addQuery_of_body hbody, h.read_eq hq,
      Inventory.registry_define, Inventory.registry_define, Inventory.registry_absorb, Inventory.registry_absorb,
      Select.definition_read_drop hj hidle]

omit hq in
/-- Common table expressions get slots, and in parentheses they get none. -/
theorem registry_addQuery_wrapped_ne (hinv : inv.registry.Coherent) (hk : k ≠ 0) (hkind : kind ≠ .cte)
    (hf : ∀ d, (f d).kind = d.kind) (hheads : (Query.ofTokens q).heads ≠ []) :
    (addQuery inv ts name kind f).registry ≠ (addQuery inv q name kind f).registry := by
  intro heq
  have hbare : (addQuery inv q name kind f).registry.slots[inv.registry.slots.length]?.map Definition.kind =
      some .cte := by
    rw [registry_addQuery, queryEntries, List.map_append, List.map_map, Entry.comp_definition_cte,
      Registry.fileAll_append]
    exact (hinv.fileAll _).cte_fileAll (@Query.cte_behind_filings _ ⟨inv.registry, .empty⟩ hinv hheads) _
  rw [← heq, addQuery_of_body (h.ofTokens_eq hk), Inventory.registry_define, Inventory.registry_absorb] at hbare
  refine hinv.kind_behind_define ?_ hbare
  rwa [hf, Select.kind_read]

end Wrapped
end Statement

/-! ## In front of the query -/

/-- The tokens `CREATE TABLE name AS` or `CREATE VIEW name AS`. -/
structure CreateHead where
  create : Token
  object : Token
  name : List Token
  as : Token

namespace CreateHead

def tokens (c : CreateHead) (query : List Token) : List Token :=
  c.create :: c.object :: (c.name ++ c.as :: query)

/-- The words are what they stand for, and the name is a whole name. A name `IF` would begin `IF NOT EXISTS`. -/
@[mk_iff]
structure Plain (c : CreateHead) : Prop where
  create : c.create.isWord "CREATE" = true
  object : c.object.isOneOf ["TABLE", "VIEW"] = true
  name : (QualifiedName.read? c.name 0).any (·.next == c.name.length) = true
  unconditional : wordAt c.name 0 "IF" = false
  as : c.as.isWord "AS" = true

instance (c : CreateHead) : Decidable c.Plain :=
  decidable_of_iff' _ (plain_iff c)

end CreateHead

theorem QualifiedName.furtherParts_append {ts rest : List Token} (hrest : furtherParts rest = [])
    (h : 2 * (furtherParts ts).length = ts.length) : furtherParts (ts ++ rest) = furtherParts ts := by
  fun_induction furtherParts ts with
  | case1 d t ts hdot part hpart ih =>
    rw [List.length_cons, List.length_cons, List.length_cons] at h
    rw [List.cons_append, List.cons_append, furtherParts, if_pos hdot, hpart]
    dsimp only
    rw [ih (by omega)]
  | case2 => cases h
  | case3 => cases h
  | case4 ts =>
    rw [List.eq_nil_of_length_eq_zero h.symm]
    exact hrest

namespace CreateHead

def called (c : CreateHead) : String := ((QualifiedName.read? c.name 0).map QualifiedName.text).getD ""

theorem name?_eq {c : CreateHead} (h : c.Plain) (query : List Token) :
    Statement.name? (c.name ++ c.as :: query) = some (c.called, c.as :: query) := by
  obtain ⟨n, hn, hnext⟩ := (Option.any_eq_true _ _).mp h.name
  rw [beq_iff_eq] at hnext
  obtain ⟨w, hw, -⟩ := exists_kind_of_isWord h.as
  cases hname : c.name with
  | nil =>
    rw [hname] at hn
    cases hn
  | cons t rest =>
    have hif : wordAt c.name 0 "IF" = false := h.unconditional
    rw [hname] at hn hnext hif
    obtain ⟨part, hpart, rfl⟩ := Option.map_eq_some_iff.mp hn
    have hlength : 2 * (QualifiedName.furtherParts rest).length = rest.length := by
      rw [List.length_cons] at hnext
      dsimp only at hnext
      omega
    have hbehind : QualifiedName.furtherParts (c.as :: query) = [] :=
      QualifiedName.furtherParts_cons (by simp [hw]) query
    have hskip : Statement.skipIfNotExists (t :: (rest ++ c.as :: query)) = t :: (rest ++ c.as :: query) := by
      have hword : t.isWord "IF" = false := hif
      rw [Statement.skipIfNotExists, Statement.expect?, if_neg (by simp [hword])]
    rw [Statement.name?, List.cons_append, hskip, QualifiedName.read?, List.drop_zero, QualifiedName.ofTokens?_cons hpart,
      QualifiedName.furtherParts_append hbehind hlength, hlength]
    refine congrArg some (Prod.ext ?_ ?_)
    · rw [called, hname, hn]
      rfl
    · show (t :: (rest ++ c.as :: query)).drop (0 + 1 + rest.length) = c.as :: query
      rw [Nat.zero_add, Nat.add_comm, List.drop_succ_cons, List.drop_left]

theorem asQuery?_eq {as : Token} (has : as.isWord "AS" = true) {query : List Token}
    (hquery : TableBody.startsQuery query = true) : TableBody.asQuery? (as :: query) = some 0 := by
  obtain ⟨w, hw, -⟩ := exists_kind_of_isWord has
  have hparen : as.isParen = false := by simp [isParen, hw]
  rw [TableBody.asQuery?, placed_eq, placedFrom_of_not_paren hparen, List.find?_cons_of_pos]
  · rfl
  · simp [has, hquery]

theorem tableBody_eq {as : Token} (has : as.isWord "AS" = true) {query : List Token}
    (hquery : TableBody.startsQuery query = true) : TableBody.ofTokens (as :: query) = .query (unwrapped query) := by
  obtain ⟨w, hw, -⟩ := exists_kind_of_isWord has
  have hparen : (as :: query).findIdx? (·.kind == .leftParen) =
      (query.findIdx? (·.kind == .leftParen)).map (· + 1) := by
    rw [List.findIdx?_cons, hw]
    rfl
  rw [TableBody.ofTokens, asQuery?_eq has hquery, hparen]
  cases query.findIdx? (·.kind == .leftParen) with
  | none => rfl
  | some i =>
    rw [Option.map_some]
    dsimp only
    cases closing? (as :: query) (i + 1) with
    | none => exact if_pos (Nat.succ_pos i)
    | some close => exact if_pos (.inl (Nat.succ_pos i))

theorem viewOf?_eq {as : Token} (has : as.isWord "AS" = true) (name : String) (query : List Token) :
    Statement.viewOf? name (as :: query) = some (.createView name [] (unwrapped query)) := by
  obtain ⟨w, hw, -⟩ := exists_kind_of_isWord has
  have hparen : as.isParen = false := by simp [isParen, hw]
  have hopens : opensAt (as :: query) 0 = false := by simp [opensAt, hw]
  have hbehind : Statement.behindAs? (as :: query) = some query := by
    rw [Statement.behindAs?, placed_eq, placedFrom_of_not_paren hparen, List.find?_cons_of_pos]
    · rfl
    · simp [has]
  rw [Statement.viewOf?, hopens, if_neg Bool.false_ne_true]
  dsimp only
  rw [List.drop_zero, hbehind]
  rfl

end CreateHead

namespace Statement

theorem skipOneOf_of_isWord {t : Token} {keyword : String} (h : t.isWord keyword = true) {keywords : List String}
    (hk : keyword ∉ keywords) (ts : List Token) : skipOneOf keywords (t :: ts) = t :: ts := by
  obtain ⟨w, hw, rfl⟩ := exists_kind_of_isWord h
  have hone : t.isOneOf keywords = false := by
    rw [isOneOf, hw]
    simpa using hk
  rw [skipOneOf, hone]
  rfl

theorem expect?_of_isWord {t : Token} {keyword : String} (h : t.isWord keyword = true) (other : String)
    (ts : List Token) : expect? other (t :: ts) = if keyword = other then some ts else none := by
  rw [expect?, isWord_of_isWord h]
  simp only [beq_iff_eq]

theorem skipOrReplace_of_isWord {t : Token} {keyword : String} (h : t.isWord keyword = true) (hk : keyword ≠ "OR")
    (ts : List Token) : skipOrReplace (t :: ts) = t :: ts := by
  rw [skipOrReplace, expect?_of_isWord h, if_neg hk]

theorem ofCreate?_table {t : Token} (h : t.isWord "TABLE" = true) (ts : List Token) :
    ofCreate? (t :: ts) = (name? ts).map fun n => .createTable n.1 (.ofTokens n.2) := by
  rw [ofCreate?, skipOrReplace_of_isWord h (by decide), skipOneOf_of_isWord h (by decide),
    skipOneOf_of_isWord h (by decide), expect?_of_isWord h, if_pos rfl]

theorem ofCreate?_view {t : Token} (h : t.isWord "VIEW" = true) (ts : List Token) :
    ofCreate? (t :: ts) = (name? ts).bind fun n => viewOf? n.1 n.2 := by
  rw [ofCreate?, skipOrReplace_of_isWord h (by decide), skipOneOf_of_isWord h (by decide),
    skipOneOf_of_isWord h (by decide), expect?_of_isWord h, if_neg (by decide)]
  dsimp only
  rw [skipOneOf_of_isWord h (by decide), skipOneOf_of_isWord h (by decide), expect?_of_isWord h, if_pos rfl]

end Statement

namespace CreateHead

/-- A head makes a statement of any query, and the statement adds the query under one name, as a table or as a view. -/
theorem exists_statement {c : CreateHead} (h : c.Plain) : ∃ kind f, kind ≠ .cte ∧
    (∀ d : Definition, (f d).kind = d.kind) ∧ ∀ query, TableBody.startsQuery query = true →
      ∃ s, Statement.ofTokens? (c.tokens query) = some s ∧
        ∀ resultName inv, s.addTo resultName inv = Statement.addQuery inv (unwrapped query) c.called kind f := by
  have hcreate : ∀ query, Statement.ofTokens? (c.tokens query) =
      Statement.ofCreate? (c.object :: (c.name ++ c.as :: query)) := fun query => if_pos h.create
  have hobject : c.object.isWord "TABLE" = true ∨ c.object.isWord "VIEW" = true := by
    have ho := h.object
    unfold isOneOf at ho
    unfold isWord
    split at ho
    · simpa using ho
    · cases ho
  rcases hobject with ho | ho
  · refine ⟨.table, id, by decide, fun d => rfl, fun query hquery => ?_⟩
    rw [hcreate, Statement.ofCreate?_table ho, name?_eq h, Option.map_some, tableBody_eq h.as hquery]
    exact ⟨_, rfl, fun resultName inv => rfl⟩
  · refine ⟨.view, (·.renameColumns []), by decide, fun d => rfl, fun query hquery => ?_⟩
    rw [hcreate, Statement.ofCreate?_view ho, name?_eq h, Option.bind_some, viewOf?_eq h.as]
    exact ⟨_, rfl, fun resultName inv => rfl⟩

end CreateHead

/-! ## What parentheses change -/

theorem kind_ne_of_isOneOf {t : Token} {keywords : List String} (h : t.isOneOf keywords = true) :
    t.kind ≠ .leftParen := by
  intro hk
  rw [isOneOf, hk] at h
  cases h

theorem startsQuery_of_wrapped {q ts : List Token} {k : Nat} (h : Wrapped q k ts) {t : Token}
    (ht : q.head? = some t) (hword : t.isOneOf ["SELECT", "WITH"] = true) : TableBody.startsQuery ts = true := by
  rw [TableBody.startsQuery, h.find?_eq ht (kind_ne_of_isOneOf hword)]
  exact hword

/-- Behind a head, a query in parentheses adds to any inventory that operations can reach the same as the query itself,
if the pairs are fewer than two or it begins with `SELECT`. The definitions are the same in just two cases: the pairs are
fewer than two, or the query has no common table expression. -/
theorem CreateHead.parentheses_iff (ops : List Operation) (resultName : String) {c : CreateHead} (hc : c.Plain)
    {q ts : List Token} {k : Nat} (hq : Balanced q) (hstart : q.head?.any (·.isOneOf ["SELECT", "WITH"]) = true)
    (h : Wrapped q k ts) :
    let inv := Operation.runAll .empty ops
    ∃ s s', Statement.ofTokens? (c.tokens q) = some s ∧ Statement.ofTokens? (c.tokens ts) = some s' ∧
      (k < 2 ∨ wordAt q 0 "SELECT" = true → s'.addTo resultName inv = s.addTo resultName inv) ∧
      ((s'.addTo resultName inv).registry = (s.addTo resultName inv).registry ↔
        k < 2 ∨ (Query.ofTokens q).heads = []) := by
  intro inv
  obtain ⟨kind, f, hkind, hf, hstatement⟩ := exists_statement hc
  obtain ⟨t, ht, hword⟩ := (Option.any_eq_true _ _).mp hstart
  obtain ⟨s, hs, hadd⟩ := hstatement q (startsQuery_of_wrapped .bare ht hword)
  obtain ⟨s', hs', hadd'⟩ := hstatement ts (startsQuery_of_wrapped h ht hword)
  have hparen := kind_ne_of_isOneOf hword
  have hbare : unwrapped q = q := (Wrapped.bare.unwrapped hq ht hparen).eq_of_zero rfl
  have hinner := h.unwrapped hq ht hparen
  have hfew : k < 2 → s'.addTo resultName inv = s.addTo resultName inv := by
    intro hk
    rw [hadd, hadd', hbare, hinner.eq_of_zero (by omega)]
  refine ⟨s, s', hs, hs', ?_, ?_⟩
  · rintro (hk | hselect)
    · exact hfew hk
    · rw [hadd, hadd', hbare]
      exact Statement.addQuery_wrapped_body hinner hq inv _ kind f (Query.ofTokens_of_select hselect)
  · constructor
    · intro heq
      by_contra hno
      rw [not_or] at hno
      rw [hadd, hadd', hbare] at heq
      have hinv : inv.registry.Coherent := Operation.coherent_runAll ops
      exact Statement.registry_addQuery_wrapped_ne hinner inv _ kind f hinv (by omega) hkind hf hno.2 heq
    · rintro (hk | hheads)
      · rw [hfew hk]
      · rw [hadd, hadd', hbare]
        exact Statement.registry_addQuery_wrapped hinner hq inv _ kind f hheads

theorem CreateHead.parentheses_iff_view :
    let head := scan "CREATE VIEW s.v AS"
    let t := fun i => head.getD i ⟨.comma, ",", 0, 0⟩
    let c : CreateHead := ⟨t 0, t 1, Span.of ⟨2, 5⟩ head, t 5⟩
    let q := scan "SELECT a.x AS y FROM a"
    let o : Token := ⟨.leftParen, "(", 1, 1⟩
    let p : Token := ⟨.rightParen, ")", 1, 1⟩
    let ts := o :: ((o :: (q ++ [p])) ++ [p])
    c.Plain ∧ Balanced q ∧ q.head?.any (·.isOneOf ["SELECT", "WITH"]) = true ∧ Wrapped q 2 ts ∧
      ∃ s s', Statement.ofTokens? (c.tokens q) = some s ∧ Statement.ofTokens? (c.tokens ts) = some s' ∧
        s'.addTo "r" .empty = s.addTo "r" .empty := by
  intro head t c q o p ts
  have hc : c.Plain := by decide +kernel
  have hq : Balanced q := by decide +kernel
  have hstart : q.head?.any (·.isOneOf ["SELECT", "WITH"]) = true := by decide +kernel
  have hts : Wrapped q 2 ts := .layer rfl rfl rfl (.layer rfl rfl rfl .bare)
  have hselect : wordAt q 0 "SELECT" = true := by decide +kernel
  obtain ⟨s, s', hs, hs', heq, -⟩ := CreateHead.parentheses_iff [] "r" hc hq hstart hts
  exact ⟨hc, hq, hstart, hts, s, s', hs, hs', heq (.inr hselect)⟩

/-- In a second pair of parentheses the list is no list any more, and `c` is not defined. -/
theorem CreateHead.list_lost_in_parentheses :
    let head := scan "CREATE TABLE t AS"
    let q := scan "WITH c AS (SELECT a.x FROM a) SELECT c.x FROM c"
    let o : Token := ⟨.leftParen, "(", 1, 1⟩
    let p : Token := ⟨.rightParen, ")", 1, 1⟩
    let names := fun query => (Statement.ofTokens? (head ++ query)).map fun s =>
      (s.addTo "r" .empty).registry.slots.map Definition.name
    Balanced q ∧ wordAt q 0 "WITH" = true ∧ names q = some ["c", "t"] ∧ names ([o, o] ++ q ++ [p, p]) = some ["t"] := by
  decide +kernel

end SqlLineage
