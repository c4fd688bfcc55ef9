import SqlLineage.Proofs.Script.Trace

/-! # What the names of a statement lead to

All `WITH` lists of a statement, nested ones too, bind their names in one map, so that a name is bound for
everything that follows in the statement.

* `Filing.last?`: where a name leads behind a list of filings.
* `Query.filed?_seen`, `Query.filed?_environment`: what is bound behind a query, and in the body of a common
  table expression.
* `Query.behind`: what is seen behind common table expressions that follow each other in a list.
* `Query.bindings_behind`: a common table expression changes no binding but its own and those of the names
  that are declared inside of it; so a name that a list declares leads to its last declaration. -/

namespace SqlLineage
open SqlLineage.Text
set_option autoImplicit false

theorem CteBindings.filed?_bind (b : CteBindings) (name filed n : String) :
    (b.bind name filed).filed? n = if upper n = upper name then some filed else b.filed? n :=
  OrderedMap.find?_insert b.names (upper name) (upper n) filed

/-! ## The last filing of a name -/

namespace Filing

/-- The name under which the last one of the common table expressions called `n` is filed. -/
def last? (n : String) (fs : List Filing) : Option String :=
  ((fs.filter fun f => upper f.head.name = upper n).getLast?).map Filing.name

theorem last?_append (n : String) (fs gs : List Filing) : last? n (fs ++ gs) = (last? n gs).or (last? n fs) := by
  rw [last?, List.filter_append, List.getLast?_append, last?, last?]
  cases (gs.filter fun f => upper f.head.name = upper n).getLast? <;> rfl

theorem last?_cons (n : String) (f : Filing) (fs : List Filing) :
    last? n (f :: fs) = (last? n fs).or (if upper n = upper f.head.name then some f.name else none) := by
  rw [← List.singleton_append, last?_append]
  congr 1
  by_cases h : upper n = upper f.head.name
  · simp [last?, h]
  · simp [last?, h, Ne.symm h]

theorem last?_eq_none {n : String} {fs : List Filing} (h : ∀ f ∈ fs, upper f.head.name ≠ upper n) :
    last? n fs = none := by
  rw [last?, List.filter_eq_nil_iff.mpr fun f hf => by simpa using h f hf]
  rfl

end Filing

namespace Query

theorem last?_filings {q : Query} {n : String} (h : ∀ head ∈ q.heads, upper head.name ≠ upper n)
    (env : Environment) : Filing.last? n (q.filings env) = none := by
  refine Filing.last?_eq_none fun f hf => h f.head ?_
  rw [← q.map_head_filings env]
  exact List.mem_map_of_mem hf

theorem filed?_within (env : Environment) (head : Cte) (n : String) :
    (env.within head).ctes.filed? n =
      if head.recursive ∧ upper n = upper head.name then some (env.registry.unusedName head.name)
      else env.ctes.filed? n := by
  unfold Environment.within
  by_cases hr : head.recursive = true
  · rw [if_pos hr, CteBindings.filed?_bind]
    simp only [hr, true_and]
  · rw [if_neg hr, if_neg (fun h => hr h.1)]

/-- A name leads to the last common table expression of the query that is called so. -/
theorem filed?_seen (q : Query) (env : Environment) (n : String) :
    (q.seen env).ctes.filed? n = (Filing.last? n (q.filings env)).or (env.ctes.filed? n) := by
  induction q generalizing env with
  | body ts => rfl
  | cte head definition rest ihd ihr =>
    have hown : (filing env head definition).after.ctes.filed? n =
        if upper n = upper head.name then some (env.registry.unusedName head.name)
        else (Filing.last? n (definition.filings (env.within head))).or ((env.within head).ctes.filed? n) := by
      rw [← ihd]
      exact CteBindings.filed?_bind _ head.name _ n
    rw [seen, ihr, filings, Filing.last?_append, Filing.last?_cons, Option.or_assoc, Option.or_assoc]
    congr 1
    refine hown.trans ?_
    by_cases hn : upper n = upper head.name
    · rw [if_pos hn, if_pos (show upper n = upper (filing env head definition).head.name from hn)]
      rfl
    · rw [if_neg hn, if_neg (show ¬ upper n = upper (filing env head definition).head.name from hn),
        filed?_within, if_neg (fun h => hn h.2)]
      rfl

/-- In the body of a common table expression a name leads to the last one nested inside it that is called so;
only a recursive one sees itself. -/
theorem filed?_environment (env : Environment) (head : Cte) (definition : Query) (n : String) :
    (filing env head definition).environment.ctes.filed? n =
      (Filing.last? n (definition.filings (env.within head))).or
        (if head.recursive ∧ upper n = upper head.name then some (env.registry.unusedName head.name)
        else env.ctes.filed? n) := by
  rw [← filed?_within]
  exact definition.filed?_seen (env.within head) n

/-- Behind a common table expression its own name leads to it, a name declared inside of it leads to the last
declaration, and every other name leads to where it led before. -/
theorem filed?_after (env : Environment) (head : Cte) (definition : Query) (n : String) :
    (filing env head definition).after.ctes.filed? n =
      if upper n = upper head.name then some (env.registry.unusedName head.name)
      else (Filing.last? n (definition.filings (env.within head))).or (env.ctes.filed? n) := by
  have hbind : (filing env head definition).after.ctes.filed? n =
      if upper n = upper head.name then some (env.registry.unusedName head.name)
      else (filing env head definition).environment.ctes.filed? n :=
    CteBindings.filed?_bind _ head.name _ n
  rw [hbind, filed?_environment]
  by_cases hn : upper n = upper head.name
  · rw [if_pos hn, if_pos hn]
  · rw [if_neg hn, if_neg hn, if_neg (fun h => hn h.2)]

/-! ## Lists of common table expressions -/

/-- The query of a list of common table expressions, in front of another query. -/
def withList (cs : List (Cte × Query)) (rest : Query) : Query :=
  cs.foldr (fun c q => .cte c.1 c.2 q) rest

/-- What is seen behind a list of common table expressions. -/
def behind (env : Environment) (cs : List (Cte × Query)) : Environment :=
  cs.foldl (fun env c => (filing env c.1 c.2).after) env

theorem seen_withList (cs : List (Cte × Query)) (rest : Query) (env : Environment) :
    (withList cs rest).seen env = rest.seen (behind env cs) := by
  induction cs generalizing env with
  | nil => rfl
  | cons c cs ih => exact ih _

theorem mainBody_withList (cs : List (Cte × Query)) (rest : Query) :
    (withList cs rest).mainBody = rest.mainBody := by
  induction cs with
  | nil => rfl
  | cons c cs ih => exact ih

theorem filing_mem_withList (cs : List (Cte × Query)) (head : Cte) (definition rest : Query) (env : Environment) :
    filing (behind env cs) head definition ∈ (withList cs (.cte head definition rest)).filings env := by
  induction cs generalizing env with
  | nil => exact List.mem_append_right _ (List.mem_cons_self ..)
  | cons c cs ih => exact List.mem_append_right _ (List.mem_cons_of_mem _ (ih _))

/-- A list that does not declare the name again leaves its binding alone. -/
theorem filed?_behind {n : String} {cs : List (Cte × Query)}
    (h : ∀ head ∈ (withList cs (.body [])).heads, upper head.name ≠ upper n) (env : Environment) :
    (behind env cs).ctes.filed? n = env.ctes.filed? n := by
  have hseen := (withList cs (.body [])).filed?_seen env n
  rwa [seen_withList, last?_filings h, Option.none_or] at hseen

/-! ## What a name finds -/

theorem prefix_seen (q : Query) {env : Environment} (h : env.registry.Coherent) :
    env.registry.slots <+: (q.seen env).registry.slots := by
  rw [q.registry_seen]
  refine h.prefix_fileAll h List.prefix_rfl fun d hd => ?_
  obtain ⟨f, hf, rfl⟩ := List.mem_map.mp hd
  rw [f.name_definition]
  exact ⟨f.kind_definition, q.free_of_mem_filings h f hf⟩

/-- What a name finds before a query, it finds behind it. -/
theorem lookup_seen (q : Query) {env : Environment} (h : env.registry.Coherent) {n : String} {d : Definition}
    (hd : env.registry.lookup n = some d) : (q.seen env).registry.lookup n = some d := by
  obtain ⟨hmem, hn⟩ := h.lookup_eq_some_iff.mp hd
  exact (q.coherent_seen h).lookup_eq_some_iff.mpr ⟨(q.prefix_seen h).subset hmem, hn⟩

theorem lookup_after {env : Environment} (h : env.registry.Coherent) (head : Cte) (definition : Query) :
    (filing env head definition).after.registry.Coherent ∧
    (filing env head definition).after.registry.lookup (filing env head definition).name =
      some (filing env head definition).definition := by
  have hcoh := coherent_filing h head definition
  have hslot := hcoh.getElem?_define (filing env head definition).definition
    ((filing env head definition).environment.registry.define (filing env head definition).definition).slot
  rw [if_pos rfl, Registry.respellOne_of_cte (Filing.kind_definition _), Definition.mapReferenced_id] at hslot
  exact ⟨hcoh.define _, (hcoh.define _).lookup_eq_some_iff.mpr
    ⟨List.mem_of_getElem? hslot, by rw [Filing.name_definition]⟩⟩

/-- In every inventory that operations can reach, a common table expression changes no binding but its own and
those of the names declared inside of it, which lead to the last declaration. So in the list that declares a
name, the main body and all later bodies find that common table expression under the name, unless the name
is declared again in between or in the body itself. -/
theorem bindings_behind (ops : List Operation) (ctes : CteBindings) (head : Cte) (definition : Query) :
    let inv := Operation.runAll .empty ops
    let env : Environment := ⟨inv.registry, ctes⟩
    let own := filing env head definition
    (∀ ts owner kind n, ((cte head definition (.body ts)).unwind owner kind inv ctes).ctes.filed? n =
      if upper n = upper head.name then some own.name
      else (Filing.last? n (definition.filings (env.within head))).or (ctes.filed? n)) ∧
    ∀ between n, upper n = upper head.name →
      (∀ h ∈ (withList between (.body [])).heads, upper h.name ≠ upper n) →
      let seen := behind env ((head, definition) :: between)
      (∀ ts owner kind,
        ((withList ((head, definition) :: between) (.body ts)).unwind owner kind inv ctes).definition =
          (Select.read seen ts owner kind).definition ∧
        seen.resolve n = own.name ∧ seen.registry.lookup own.name = some own.definition) ∧
      ∀ later inner rest, (∀ h ∈ inner.heads, upper h.name ≠ upper n) →
        ¬ (later.recursive ∧ upper n = upper later.name) →
        let f := filing seen later inner
        f ∈ (withList ((head, definition) :: between) (.cte later inner rest)).filings env ∧
        f.environment.resolve n = own.name ∧ f.environment.registry.lookup own.name = some own.definition := by
  intro inv env own
  have hcoh : env.registry.Coherent := Operation.coherent_runAll ops
  constructor
  · intro ts owner kind n
    have henv := congrArg Environment.ctes ((cte head definition (.body ts)).unwind_eq owner kind inv ctes).1
    exact (congrArg (·.filed? n) henv).trans (filed?_after env head definition n)
  · intro between n hn hbetween seen
    obtain ⟨hafter, hlookup⟩ := lookup_after hcoh head definition
    have hseen : seen = (withList between (.body [])).seen own.after := (seen_withList between (.body []) own.after).symm
    have hbound : seen.ctes.filed? n = some own.name := by
      have hown := filed?_after env head definition n
      rw [if_pos hn] at hown
      exact (filed?_behind hbetween own.after).trans hown
    have hregistry : seen.registry.Coherent := hseen ▸ coherent_seen _ hafter
    have hfound : seen.registry.lookup own.name = some own.definition := hseen ▸ lookup_seen _ hafter hlookup
    refine ⟨fun ts owner kind => ⟨?_, ?_, hfound⟩, fun later inner rest hinner hlater => ⟨?_, ?_, ?_⟩⟩
    · have hread := ((withList ((head, definition) :: between) (.body ts)).unwind_eq owner kind inv ctes).2
      rw [seen_withList, mainBody_withList] at hread
      exact hread
    · rw [Environment.resolve, hbound]
      rfl
    · exact filing_mem_withList _ later inner rest env
    · rw [Environment.resolve, filed?_environment, last?_filings hinner, Option.none_or, if_neg hlater, hbound]
      rfl
    · exact lookup_seen inner (by rwa [seen.registry_within]) (by rwa [seen.registry_within])

/-- A nested list declares the name `a` again, and the main body of the outer list finds that one. -/
theorem nested_list_captures :
    let q := Query.ofTokens (Token.scan
      "WITH a AS (SELECT t.x FROM t), b AS (WITH a AS (SELECT s.y FROM s) SELECT a.y FROM a) SELECT a.x FROM a")
    let u := q.unwind "Query Result" .view (Operation.runAll .empty []) .empty
    q.heads.map Cte.name = ["a", "a", "b"] ∧
    (u.inventory.registry.lookup "a").map Definition.references = some [.uses "t"] ∧
    (u.inventory.registry.lookup "a 2").map Definition.references = some [.uses "s"] ∧
    u.ctes.filed? "a" = some "a 2" ∧ u.definition.references = [.uses "a 2"] := by
  decide +kernel

end Query
end SqlLineage
