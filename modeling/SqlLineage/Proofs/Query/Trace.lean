import SqlLineage.Proofs.Registry.Filing
import SqlLineage.Query.Unwind

/-! # The trace of a query

Unwinding a query threads a whole inventory through nested `WITH` lists. What it does to the registry and
to the bindings depends on nothing else, so it is described here by itself.

* `Query.ofList_of_some`: how a `WITH` list is read. `Query.ofTokens_induction` is the induction along such readings.
* `Filing`: one common table expression at the moment in which it is filed.
* `Query.seen`: the environment in which the main body of a query is read.
* `Query.filings`: the common table expressions of a query, in the order in which they are filed.
* `Query.unwind_eq` ties both to `Query.unwind`; `Query.registry_seen` says that the registry in the end
  is the first one with the filings added one after the other. -/

namespace SqlLineage
open SqlLineage.Text
set_option autoImplicit false

@[simp] theorem Select.name_read (env : Environment) (ts : List Token) (name : String) (kind : Definition.Kind) :
    (Select.read env ts name kind).definition.name = name := by
  unfold Select.read
  split <;> rfl

@[simp] theorem Select.kind_read (env : Environment) (ts : List Token) (name : String) (kind : Definition.Kind) :
    (Select.read env ts name kind).definition.kind = kind := by
  unfold Select.read
  split <;> rfl

/-! ## Reading a list -/

namespace Query

/-- The query behind a common table expression. Behind a comma the list goes on. -/
def ofRest (recursive : Bool) : List Token → Query
  | [] => .body []
  | t :: rest => if t.kind = .comma then ofList recursive rest else .body (t :: rest)

theorem ofRest_of_comma (recursive : Bool) {comma : Token} (h : comma.kind = .comma) (ts : List Token) :
    ofRest recursive (comma :: ts) = ofList recursive ts :=
  if_pos h

theorem ofRest_of_no_comma (recursive : Bool) {ts : List Token} (h : ∀ t ∈ ts.head?, t.kind ≠ .comma) :
    ofRest recursive ts = .body ts := by
  cases ts with
  | nil => rfl
  | cons t rest => exact if_neg (h t rfl)

theorem ofList_of_none {recursive : Bool} {ts : List Token} (h : Cte.read? recursive ts = none) :
    ofList recursive ts = .body ts := by
  rw [ofList]
  split
  · rfl
  · next c hc =>
    rw [h] at hc
    cases hc

theorem ofList_of_some {recursive : Bool} {ts : List Token} {c : CteReading} (h : Cte.read? recursive ts = some c) :
    ofList recursive ts = .cte c.cte (ofTokens c.body) (ofRest recursive c.rest) := by
  rw [ofList]
  split
  · next hc =>
    rw [h] at hc
    cases hc
  · next c' hc =>
    obtain rfl : c = c' := Option.some.inj (h.symm.trans hc)
    congr 1
    unfold ofRest
    split
    · next hr => rw [hr]
    · next hr => rw [hr]

/-! ## Reading a query -/

theorem ofTokens_of_no_with {ts : List Token} (h : Token.wordAt ts 0 "WITH" = false) : ofTokens ts = .body ts := by
  cases ts with
  | nil => rw [ofTokens]
  | cons t rest =>
    have ht : t.isWord "WITH" = false := h
    rw [ofTokens.eq_def]
    simp only [ht, if_neg Bool.false_ne_true]

theorem ofTokens_with_recursive {w r : Token} (hw : w.isWord "WITH" = true) (hr : r.isWord "RECURSIVE" = true)
    (ts : List Token) : ofTokens (w :: r :: ts) = ofList true ts := by
  simp only [ofTokens, if_pos hw, if_pos hr]

theorem ofTokens_with {w : Token} (hw : w.isWord "WITH" = true) {ts : List Token}
    (hr : Token.wordAt ts 0 "RECURSIVE" = false) : ofTokens (w :: ts) = ofList false ts := by
  cases ts with
  | nil =>
    rw [ofList_of_none rfl, ofTokens, if_pos hw]
  | cons r ts =>
    have hr : r.isWord "RECURSIVE" = false := hr
    simp only [ofTokens, if_pos hw, hr, if_neg Bool.false_ne_true]

/-- Induction along the reading of a query: `P` is about the tokens of a query, `L` about those with which a `WITH` list
goes on, and `R` about those behind a common table expression. -/
theorem ofTokens_induction {P : List Token → Prop} {L R : Bool → List Token → Prop}
    (body : ∀ ts, Token.wordAt ts 0 "WITH" = false → P ts)
    (recursive : ∀ w r ts, w.isWord "WITH" = true → r.isWord "RECURSIVE" = true → L true ts → P (w :: r :: ts))
    (list : ∀ w ts, w.isWord "WITH" = true → Token.wordAt ts 0 "RECURSIVE" = false → L false ts → P (w :: ts))
    (noCte : ∀ b ts, Cte.read? b ts = none → L b ts)
    (cte : ∀ b ts c, Cte.read? b ts = some c → P c.body → R b c.rest → L b ts)
    (further : ∀ b comma ts, comma.kind = .comma → L b ts → R b (comma :: ts))
    (main : ∀ b ts, (∀ t ∈ ts.head?, t.kind ≠ .comma) → R b ts) (ts : List Token) : P ts := by
  refine ofTokens.induct P L ?nil ?lone ?recursive ?list ?body noCte ?cte ts
  case nil => exact body [] rfl
  case lone => exact fun w hw => list w [] hw rfl (noCte false [] rfl)
  case recursive => exact fun w hw r ts hr => recursive w r ts hw hr
  case list => exact fun w hw r ts hr => list w (r :: ts) hw (Bool.not_eq_true _ ▸ hr)
  case body => exact fun w ts hw => body (w :: ts) (Bool.not_eq_true _ ▸ hw)
  case cte =>
    intro b ts c hc ihbody ihrest
    refine cte b ts c hc ihbody ?_
    cases hrest : c.rest with
    | nil => exact main b [] nofun
    | cons t rest =>
      by_cases hcomma : t.kind = .comma
      · exact further b t rest hcomma (ihrest t rest hrest)
      · exact main b (t :: rest) fun t' ht' => Option.some.inj ht' ▸ hcomma

end Query

/-! ## One common table expression -/

/-- A common table expression as it is filed: its head, the tokens of its main body, what that body sees,
and the name that was chosen for it. -/
structure Filing where
  head : Cte
  body : List Token
  environment : Environment
  name : String

namespace Filing

def definition (f : Filing) : Definition :=
  (Select.read f.environment f.body f.name .cte).definition.renameColumns f.head.columns

/-- What is seen behind the common table expression. -/
def after (f : Filing) : Environment :=
  ⟨(f.environment.registry.define f.definition).registry, f.environment.ctes.bind f.head.name f.name⟩

@[simp] theorem name_definition (f : Filing) : f.definition.name = f.name := by
  simp [definition]

@[simp] theorem kind_definition (f : Filing) : f.definition.kind = .cte := by
  simp [definition]

end Filing

/-! ## One step of unwinding -/

/-- What the definition of a common table expression sees: a recursive one sees itself, under the name
that is chosen for it. -/
def Environment.within (env : Environment) (head : Cte) : Environment :=
  if head.recursive then ⟨env.registry, env.ctes.bind head.name (env.registry.unusedName head.name)⟩ else env

@[simp] theorem Environment.registry_within (env : Environment) (head : Cte) :
    (env.within head).registry = env.registry := by
  unfold within
  split <;> rfl

def Inventory.enter (inv : Inventory) (owner : String) (head : Cte) : Inventory :=
  if head.closed then inv else inv.report (.unclosedCte owner head.name)

@[simp] theorem Inventory.registry_enter (inv : Inventory) (owner : String) (head : Cte) :
    (inv.enter owner head).registry = inv.registry := by
  unfold enter
  split <;> rfl

def Unwound.environment (u : Unwound) : Environment := ⟨u.inventory.registry, u.ctes⟩

def Query.unwindDefinition (owner : String) (inv : Inventory) (ctes : CteBindings) (head : Cte)
    (definition : Query) : Unwound :=
  definition.unwind (inv.registry.unusedName head.name) .cte (inv.enter owner head)
    (Environment.within ⟨inv.registry, ctes⟩ head).ctes

theorem Query.unwind_cte (head : Cte) (definition rest : Query) (name : String) (kind : Definition.Kind)
    (inv : Inventory) (ctes : CteBindings) :
    (Query.cte head definition rest).unwind name kind inv ctes =
      rest.unwind name kind
        ((unwindDefinition name inv ctes head definition).inventory.define
          ((unwindDefinition name inv ctes head definition).definition.renameColumns head.columns))
        ((unwindDefinition name inv ctes head definition).ctes.bind head.name
          (inv.registry.unusedName head.name)) := by
  have hctes : (Environment.within ⟨inv.registry, ctes⟩ head).ctes =
      if head.recursive then ctes.bind head.name (inv.registry.unusedName head.name) else ctes := by
    unfold Environment.within
    split <;> rfl
  have hreg := inv.registry_enter name head
  unfold Inventory.enter at hreg
  rw [unwind]
  simp only [unwindDefinition, hctes, Inventory.enter, hreg]

/-! ## All of a query -/

namespace Query

/-- The tokens of a query behind its `WITH` list. -/
def mainBody : Query → List Token
  | .body ts => ts
  | .cte _ _ rest => rest.mainBody

/-- The heads of all common table expressions; those inside a definition come before its own. -/
def heads : Query → List Cte
  | .body _ => []
  | .cte head definition rest => definition.heads ++ head :: rest.heads

/-- What the main body of a query sees. -/
def seen (env : Environment) : Query → Environment
  | .body _ => env
  | .cte head definition rest =>
    rest.seen (Filing.after ⟨head, definition.mainBody, definition.seen (env.within head),
      env.registry.unusedName head.name⟩)

def filing (env : Environment) (head : Cte) (definition : Query) : Filing :=
  ⟨head, definition.mainBody, definition.seen (env.within head), env.registry.unusedName head.name⟩

/-- All common table expressions in the order in which they are filed. -/
def filings (env : Environment) : Query → List Filing
  | .body _ => []
  | .cte head definition rest =>
    definition.filings (env.within head) ++
      filing env head definition :: rest.filings (filing env head definition).after

theorem map_head_filings (q : Query) (env : Environment) : (q.filings env).map Filing.head = q.heads := by
  induction q generalizing env with
  | body ts => rfl
  | cte head definition rest ihd ihr =>
    rw [filings, heads, List.map_append, List.map_cons, ihd, ihr]
    rfl

theorem environment_enter (owner : String) (inv : Inventory) (ctes : CteBindings) (head : Cte) :
    (⟨(inv.enter owner head).registry, (Environment.within ⟨inv.registry, ctes⟩ head).ctes⟩ : Environment) =
      Environment.within ⟨inv.registry, ctes⟩ head := by
  rw [inv.registry_enter]
  unfold Environment.within
  split <;> rfl

/-- If unwinding a definition leaves what the trace says, then so does filing it. -/
theorem after_of_unwindDefinition {inv : Inventory} {ctes : CteBindings} {head : Cte}
    {definition : Query} {u : Unwound}
    (henv : u.environment = definition.seen (Environment.within ⟨inv.registry, ctes⟩ head))
    (hdef : u.definition = (Select.read (definition.seen (Environment.within ⟨inv.registry, ctes⟩ head))
      definition.mainBody (inv.registry.unusedName head.name) .cte).definition) :
    u.definition.renameColumns head.columns = (filing ⟨inv.registry, ctes⟩ head definition).definition ∧
    (⟨(u.inventory.define (u.definition.renameColumns head.columns)).registry,
      u.ctes.bind head.name (inv.registry.unusedName head.name)⟩ : Environment) =
      (filing ⟨inv.registry, ctes⟩ head definition).after := by
  have hfiled : u.definition.renameColumns head.columns =
      (filing ⟨inv.registry, ctes⟩ head definition).definition := by
    rw [hdef]
    rfl
  refine ⟨hfiled, ?_⟩
  rw [hfiled, Filing.after]
  simp only [filing, ← henv]
  rfl

/-- Unwinding leaves what the trace says can be seen, and the definition that the main body gives
there. -/
theorem unwind_eq (q : Query) (name : String) (kind : Definition.Kind) (inv : Inventory) (ctes : CteBindings) :
    (q.unwind name kind inv ctes).environment = q.seen ⟨inv.registry, ctes⟩ ∧
    (q.unwind name kind inv ctes).definition =
      (Select.read (q.seen ⟨inv.registry, ctes⟩) q.mainBody name kind).definition := by
  induction q generalizing name kind inv ctes with
  | body ts => exact ⟨rfl, rfl⟩
  | cte head definition rest ihd ihr =>
    have hd := ihd (inv.registry.unusedName head.name) .cte (inv.enter name head)
      (Environment.within ⟨inv.registry, ctes⟩ head).ctes
    rw [environment_enter] at hd
    have hafter := (after_of_unwindDefinition hd.1 hd.2).2
    rw [unwind_cte, seen, mainBody]
    have hr := ihr name kind
      ((unwindDefinition name inv ctes head definition).inventory.define
        ((unwindDefinition name inv ctes head definition).definition.renameColumns head.columns))
      ((unwindDefinition name inv ctes head definition).ctes.bind head.name (inv.registry.unusedName head.name))
    rw [unwindDefinition, hafter] at hr
    exact hr

/-- What is filed for a common table expression, and what is seen behind it. -/
theorem filed_unwindDefinition (owner : String) (inv : Inventory) (ctes : CteBindings) (head : Cte) (definition : Query) :
    let u := unwindDefinition owner inv ctes head definition
    u.definition.renameColumns head.columns = (filing ⟨inv.registry, ctes⟩ head definition).definition ∧
    (⟨(u.inventory.define (u.definition.renameColumns head.columns)).registry,
      u.ctes.bind head.name (inv.registry.unusedName head.name)⟩ : Environment) =
      (filing ⟨inv.registry, ctes⟩ head definition).after := by
  obtain ⟨henv, hdef⟩ := definition.unwind_eq (inv.registry.unusedName head.name) .cte (inv.enter owner head)
    (Environment.within ⟨inv.registry, ctes⟩ head).ctes
  rw [environment_enter] at henv hdef
  exact after_of_unwindDefinition henv hdef

theorem registry_seen (q : Query) (env : Environment) :
    (q.seen env).registry = env.registry.fileAll ((q.filings env).map Filing.definition) := by
  induction q generalizing env with
  | body ts => rfl
  | cte head definition rest ihd ihr =>
    rw [filings, List.map_append, Registry.fileAll_append, List.map_cons, Registry.fileAll_cons,
      ← env.registry_within head, ← ihd, seen, ihr]
    rfl

theorem registry_unwind (q : Query) (name : String) (kind : Definition.Kind) (inv : Inventory)
    (ctes : CteBindings) :
    (q.unwind name kind inv ctes).inventory.registry =
      inv.registry.fileAll ((q.filings ⟨inv.registry, ctes⟩).map Filing.definition) := by
  have henv := congrArg Environment.registry (q.unwind_eq name kind inv ctes).1
  rw [registry_seen] at henv
  exact henv

theorem registry_filing (env : Environment) (head : Cte) (definition : Query) :
    (filing env head definition).environment.registry =
      env.registry.fileAll ((definition.filings (env.within head)).map Filing.definition) := by
  have hseen := definition.registry_seen (env.within head)
  rw [env.registry_within] at hseen
  exact hseen

theorem coherent_seen (q : Query) {env : Environment} (h : env.registry.Coherent) :
    (q.seen env).registry.Coherent := by
  rw [q.registry_seen]
  exact h.fileAll _

theorem coherent_filing {env : Environment} (h : env.registry.Coherent) (head : Cte) (definition : Query) :
    (filing env head definition).environment.registry.Coherent := by
  rw [registry_filing]
  exact h.fileAll _

theorem coherent_after {env : Environment} (h : env.registry.Coherent) (head : Cte) (definition : Query) :
    (filing env head definition).after.registry.Coherent :=
  (coherent_filing h head definition).define _

/-- All filings but the last ones happened before one of them, and its environment shows it. -/
theorem registry_of_split (q : Query) (env : Environment) {before after : List Filing} {f : Filing}
    (h : q.filings env = before ++ f :: after) :
    f.environment.registry = env.registry.fileAll (before.map Filing.definition) := by
  induction q generalizing env before after with
  | body ts => simp [filings] at h
  | cte head definition rest ihd ihr =>
    rw [filings] at h
    have hown := registry_filing env head definition
    -- `f` is filed behind the definition or inside of it
    rcases List.append_eq_append_iff.mp h with ⟨mid, hb, hm⟩ | ⟨mid, hd, hm⟩
    · cases mid with
      | nil =>
        obtain ⟨rfl, -⟩ := List.cons.inj hm
        rw [hb, List.append_nil]
        exact hown
      | cons g mid =>
        obtain ⟨rfl, hrest⟩ := List.cons.inj hm
        rw [ihr _ hrest, hb, List.map_append, Registry.fileAll_append, List.map_cons, Registry.fileAll_cons,
          ← hown]
        rfl
    · cases mid with
      | nil =>
        obtain ⟨rfl, -⟩ := List.cons.inj hm
        rw [List.append_nil] at hd
        rw [← hd]
        exact hown
      | cons g mid =>
        obtain ⟨rfl, -⟩ := List.cons.inj hm
        have hinner := ihd _ hd
        rwa [env.registry_within] at hinner

theorem defines_after {env : Environment} (h : env.registry.Coherent) (head : Cte) (definition : Query) :
    ∀ f ∈ definition.filings (env.within head) ++ [filing env head definition],
      (filing env head definition).after.registry.defines f.name = true := by
  intro f hf
  have hcoh := coherent_filing h head definition
  rcases List.mem_append.mp hf with hf | hf
  · refine hcoh.defines_define _ ?_
    rw [registry_filing, ← f.name_definition]
    exact h.defines_fileAll_of_mem (List.mem_map_of_mem hf)
  · rw [List.mem_singleton.mp hf]
    have hself := hcoh.defines_define_self (filing env head definition).definition
    rwa [Filing.name_definition] at hself

/-- The names of all filings were free before the query. -/
theorem free_of_mem_filings (q : Query) {env : Environment} (h : env.registry.Coherent) :
    ∀ f ∈ q.filings env, env.registry.defines f.name = false := by
  induction q generalizing env with
  | body ts =>
    intro f hf
    simp [filings] at hf
  | cte head definition rest ihd ihr =>
    intro f hf
    rw [filings] at hf
    rcases List.mem_append.mp hf with hf | hf
    · have hinner := @ihd (env.within head) (by rwa [env.registry_within]) f hf
      rwa [env.registry_within] at hinner
    · rcases List.mem_cons.mp hf with rfl | hf
      · exact Registry.defines_unusedName _ _
      · have hlater := @ihr (filing env head definition).after (coherent_after h head definition) f hf
        by_contra hd
        rw [Bool.not_eq_false] at hd
        have hkept := (coherent_filing h head definition).defines_define (filing env head definition).definition
          (registry_filing env head definition ▸ h.defines_fileAll _ hd)
        rw [Filing.after, hkept] at hlater
        cases hlater

end Query
end SqlLineage
