import SqlLineage.Proofs.Query.Bindings
import SqlLineage.Proofs.Query.Recursion
import SqlLineage.Proofs.Select.InFront
import SqlLineage.Proofs.Select.Sources
import SqlLineage.Proofs.Token.Balanced
import SqlLineage.Session

/-! # Lists of common table expressions

* `CteText`, `WithText`: a common table expression, and a query with a list of them, as they are written.
* `WithText.ofTokens_eq`: how such a query is read. Each body ends at the parenthesis that closes it, and the list goes
  on behind it.
* `Query.Lists`: definitions in the order of a list, each under the first free name.
* `WithText.unwind_list`: what unwinding such a query leaves: one definition for each common table expression, and
  the definition of the main body, which refers to nothing but what the main body names. -/

namespace SqlLineage
open SqlLineage.Text SqlLineage.Token
set_option autoImplicit false

/-! ## How they are written -/

/-- The tokens `name [(columns)] AS [NOT] [MATERIALIZED] (body)`. -/
structure CteText where
  name : Token
  columns? : Option Group
  as : Token
  not? : Option Token
  materialized? : Option Token
  body : Group

namespace CteText

def modifiers (c : CteText) : List Token := c.not?.toList ++ c.materialized?.toList

def columnTokens (c : CteText) : List Token := (c.columns?.map Group.tokens).getD []

def tokens (c : CteText) : List Token :=
  c.name :: (c.columnTokens ++ c.as :: (c.modifiers ++ c.body.tokens))

/-- The name and the column names of a common table expression that is closed. -/
def head (recursive : Bool) (c : CteText) : Cte :=
  ⟨c.name.identifier?.getD "", (c.columns?.map fun g => headNames g.inner).getD [], recursive, true⟩

/-- The words are what they stand for, the parentheses match, and no list is nested inside the body. -/
@[mk_iff]
structure Plain (c : CteText) : Prop where
  name : c.name.isIdentifier = true
  columns : ∀ g ∈ c.columns?, g.Matched
  as : c.as.isWord "AS" = true
  not : ∀ t ∈ c.not?, t.isWord "NOT" = true
  materialized : ∀ t ∈ c.materialized?, t.isWord "MATERIALIZED" = true
  body : c.body.Matched
  flat : ∀ t ∈ c.body.inner, t.isWord "WITH" = false

instance (c : CteText) : Decidable c.Plain :=
  decidable_of_iff' _ (plain_iff c)

end CteText

/-- The tokens `WITH [RECURSIVE] cte, …, cte main`. -/
structure WithText where
  keyword : Token
  recursive? : Option Token
  first : CteText
  further : List (Token × CteText)
  main : List Token

namespace WithText

def ctes (w : WithText) : List CteText := w.first :: w.further.map Prod.snd

def tokens (w : WithText) : List Token :=
  w.keyword :: (w.recursive?.toList ++ (w.first.tokens ++
    (w.further.flatMap (fun x => x.1 :: x.2.tokens) ++ w.main)))

/-- A list behind `WITH` or `WITH RECURSIVE` with commas between its members, and a main body that begins with
`SELECT`. Without `RECURSIVE` the first name is not this word. -/
@[mk_iff]
structure Plain (w : WithText) : Prop where
  keyword : w.keyword.isWord "WITH" = true
  recursive : ∀ t ∈ w.recursive?, t.isWord "RECURSIVE" = true
  first : w.recursive? = none → w.first.name.isWord "RECURSIVE" = false
  ctes : ∀ c ∈ w.ctes, c.Plain
  commas : ∀ x ∈ w.further, x.1.kind = .comma
  main : wordAt w.main 0 "SELECT" = true

instance (w : WithText) : Decidable w.Plain :=
  decidable_of_iff' _ (plain_iff w)

end WithText

/-! ## How they are read -/

namespace Token

theorem exists_kind_of_isWord {t : Token} {keyword : String} (h : t.isWord keyword = true) :
    ∃ w, t.kind = .word w ∧ foldCase w = keyword := by
  unfold isWord at h
  split at h
  · next w hw => exact ⟨w, hw, eq_of_beq h⟩
  · cases h

/-- A word is only one keyword. -/
theorem isWord_of_isWord {t : Token} {keyword : String} (h : t.isWord keyword = true) (other : String) :
    t.isWord other = (keyword == other) := by
  obtain ⟨w, hw, rfl⟩ := exists_kind_of_isWord h
  rw [isWord, hw]

theorem behindWord_optional {keyword : String} {t? : Option Token} (ht : ∀ t ∈ t?, t.isWord keyword = true)
    (pre : List Token) {rest : List Token} (hrest : ∀ t ∈ rest.head?, t.isWord keyword = false) :
    behindWord (pre ++ (t?.toList ++ rest)) pre.length keyword = (pre ++ t?.toList).length := by
  cases t? with
  | none =>
    rw [behindWord, if_neg]
    · simp
    · rw [wordAt, Option.toList_none, List.nil_append, List.getElem?_append_right (Nat.le_refl _), Nat.sub_self]
      cases rest with
      | nil => simp
      | cons t rest => simp [hrest t rfl]
  | some t =>
    rw [behindWord, if_pos]
    · simp
    · simp [wordAt, ht t rfl]

end Token

namespace CteText

theorem columnList?_eq {c : CteText} (h : c.Plain) (rest : List Token) :
    Cte.columnList? (c.tokens ++ rest) 1 =
      some ⟨(c.columns?.map fun g => headNames g.inner).getD [], 1 + c.columnTokens.length⟩ := by
  obtain ⟨w, hw, -⟩ := exists_kind_of_isWord h.as
  rw [Cte.columnList?, tokens, columnTokens]
  cases hc : c.columns? with
  | none => simp [opensAt, hw]
  | some g =>
    have hg := h.columns g hc
    have htokens : c.name :: (g.tokens ++ c.as :: (c.modifiers ++ c.body.tokens)) ++ rest =
        [c.name] ++ (g.tokens ++ (c.as :: (c.modifiers ++ c.body.tokens) ++ rest)) := by simp
    simp only [Option.map_some, Option.getD_some, htokens]
    rw [show (1 : Nat) = [c.name].length from rfl, if_pos (hg.opensAt _ _), nameList?_eq, if_pos (hg.opensAt _ _),
      hg.closing?, Option.map_some, Group.span_of_inner, Group.length_tokens]
    congr 2
    omega

theorem bodyStart?_eq {c : CteText} (h : c.Plain) (rest : List Token) :
    Cte.bodyStart? (c.tokens ++ rest) (1 + c.columnTokens.length) =
      some (c.name :: (c.columnTokens ++ c.as :: c.modifiers)).length := by
  have hopen : ∀ keyword, ∀ t ∈ (c.body.tokens ++ rest).head?, t.isWord keyword = false := by
    rintro keyword t ht
    rw [Group.tokens_append] at ht
    obtain rfl := Option.some.inj ht
    rw [Token.isWord, h.body.opening]
  have hmaterialized : ∀ t ∈ (c.materialized?.toList ++ (c.body.tokens ++ rest)).head?, t.isWord "NOT" = false := by
    cases hm : c.materialized? with
    | none => exact hopen "NOT"
    | some m =>
      rintro t ht
      obtain rfl := Option.some.inj ht
      exact isWord_of_isWord (h.materialized m hm) "NOT"
  have htokens : c.tokens ++ rest = (c.name :: (c.columnTokens ++ [c.as])) ++
      (c.not?.toList ++ (c.materialized?.toList ++ (c.body.tokens ++ rest))) := by
    simp [tokens, modifiers]
  have hlength : (c.name :: (c.columnTokens ++ [c.as])).length = 1 + c.columnTokens.length + 1 := by
    simp only [List.length_cons, List.length_append, List.length_nil]
    omega
  have has : wordAt (c.tokens ++ rest) (1 + c.columnTokens.length) "AS" = true := by
    have hsplit : c.tokens ++ rest = (c.name :: c.columnTokens) ++ (c.as :: (c.modifiers ++ c.body.tokens) ++ rest) := by
      simp [tokens]
    have hat : 1 + c.columnTokens.length = (c.name :: c.columnTokens).length := Nat.add_comm ..
    rw [wordAt, hsplit, hat, List.getElem?_append_right (Nat.le_refl _), Nat.sub_self]
    simp [h.as]
  have hnot := behindWord_optional h.not (c.name :: (c.columnTokens ++ [c.as])) hmaterialized
  have hmat := behindWord_optional h.materialized ((c.name :: (c.columnTokens ++ [c.as])) ++ c.not?.toList)
    (hopen "MATERIALIZED")
  have hbody := h.body.opensAt ((c.name :: (c.columnTokens ++ [c.as])) ++ c.not?.toList ++ c.materialized?.toList) rest
  rw [← htokens, hlength] at hnot
  rw [List.append_assoc, ← htokens] at hmat
  rw [List.append_assoc, List.append_assoc, ← htokens] at hbody
  rw [Cte.bodyStart?, if_pos has]
  simp only [hnot, hmat]
  rw [if_pos hbody]
  simp [modifiers]

theorem read?_eq (recursive : Bool) {c : CteText} (h : c.Plain) (rest : List Token) :
    Cte.read? recursive (c.tokens ++ rest) = some ⟨c.head recursive, c.body.inner, rest⟩ := by
  obtain ⟨n, hn⟩ : ∃ n, c.name.identifier? = some n := Option.isSome_iff_exists.mp h.name
  have hfurther : QualifiedName.furtherParts (c.columnTokens ++ c.as :: (c.modifiers ++ c.body.tokens) ++ rest) = [] := by
    unfold columnTokens
    cases hc : c.columns? with
    | none =>
      obtain ⟨w, hw, -⟩ := exists_kind_of_isWord h.as
      exact QualifiedName.furtherParts_cons (by simp [hw]) _
    | some g => exact QualifiedName.furtherParts_cons (by simp [(h.columns g hc).opening]) _
  have hname : QualifiedName.read? (c.tokens ++ rest) 0 = some ⟨[n], 1⟩ := by
    rw [QualifiedName.read?, List.drop_zero, tokens, List.cons_append, QualifiedName.ofTokens?_cons hn, hfurther]
    rfl
  have htokens : c.tokens ++ rest =
      (c.name :: (c.columnTokens ++ c.as :: c.modifiers)) ++ (c.body.tokens ++ rest) := by
    simp [tokens]
  have hbody : Cte.bodyAt (c.tokens ++ rest) (c.name :: (c.columnTokens ++ c.as :: c.modifiers)).length =
      (true, c.body.inner, rest) := by
    rw [Cte.bodyAt, htokens, h.body.closing?]
    simp only [Group.span_of_inner, Group.drop_tokens]
  rw [Cte.read?, hname]
  simp only [columnList?_eq h, bodyStart?_eq h, hbody, head, hn, Option.getD_some]
  rw [QualifiedName.text, String.intercalate_singleton]

end CteText

namespace Query

theorem ofTokens_of_flat {ts : List Token} (h : ∀ t ∈ ts, t.isWord "WITH" = false) : ofTokens ts = .body ts := by
  cases ts with
  | nil => exact ofTokens_of_no_with rfl
  | cons t ts => exact ofTokens_of_no_with (h t (List.mem_cons_self ..))

/-- The common table expressions of a list as they are read. -/
def members (recursive : Bool) (cs : List CteText) : List (Cte × Query) :=
  cs.map fun c => (c.head recursive, .body c.body.inner)

/-- By induction on the members behind the first one: each body ends where it is closed, and behind a comma the list
goes on. -/
theorem ofList_eq (recursive : Bool) {first : CteText} {further : List (Token × CteText)} {main : List Token}
    (hctes : ∀ c ∈ first :: further.map Prod.snd, c.Plain) (hcommas : ∀ x ∈ further, x.1.kind = .comma)
    (hmain : wordAt main 0 "SELECT" = true) :
    ofList recursive (first.tokens ++ (further.flatMap (fun x => x.1 :: x.2.tokens) ++ main)) =
      withList (members recursive (first :: further.map Prod.snd)) (.body main) := by
  induction further generalizing first with
  | nil =>
    have hfirst := hctes first (List.mem_cons_self ..)
    rw [ofList_of_some (CteText.read?_eq recursive hfirst _), ofTokens_of_flat hfirst.flat, List.flatMap_nil,
      List.nil_append]
    cases main with
    | nil => cases hmain
    | cons s rest =>
      obtain ⟨w, hw, -⟩ := exists_kind_of_isWord (t := s) hmain
      rw [ofRest_of_no_comma recursive (by simp [hw])]
      rfl
  | cons x further ih =>
    obtain ⟨hfirst, hrest⟩ := List.forall_mem_cons.mp hctes
    obtain ⟨hx, hfurther⟩ := List.forall_mem_cons.mp hcommas
    rw [ofList_of_some (CteText.read?_eq recursive hfirst _), ofTokens_of_flat hfirst.flat, List.flatMap_cons,
      List.cons_append, List.cons_append, List.append_assoc, ofRest_of_comma recursive hx, ih hrest hfurther]
    rfl

end Query

theorem WithText.ofTokens_eq {w : WithText} (h : w.Plain) :
    Query.ofTokens w.tokens = Query.withList (Query.members w.recursive?.isSome w.ctes) (.body w.main) := by
  rw [tokens]
  cases hr : w.recursive? with
  | none =>
    have hword : wordAt (w.first.tokens ++ (w.further.flatMap (fun x => x.1 :: x.2.tokens) ++ w.main)) 0 "RECURSIVE" =
        false := h.first hr
    rw [Option.toList_none, List.nil_append, Query.ofTokens_with h.keyword hword]
    exact Query.ofList_eq false h.ctes h.commas h.main
  | some r =>
    rw [Option.toList_some, List.singleton_append, Query.ofTokens_with_recursive h.keyword (h.recursive r hr)]
    exact Query.ofList_eq true h.ctes h.commas h.main

/-! ## How they are unwound -/

namespace Query

/-- Common table expressions that follow each other behind the definitions `before`: each is called by the first
name after its own that is free where it is defined. -/
inductive Lists : (before : List Definition) → (names : List String) → List Definition → Prop where
  | nil {before : List Definition} : Lists before [] []
  | cons {before : List Definition} {name : String} {names : List String} {d : Definition} {ds : List Definition}
      (kind : d.kind = .cte) (free : FirstFree before name d.name) (rest : Lists (before ++ [d]) names ds) :
      Lists before (name :: names) (d :: ds)

theorem Lists.length_eq {before : List Definition} {names : List String} {ds : List Definition}
    (h : Lists before names ds) : ds.length = names.length := by
  induction h with
  | nil => rfl
  | cons _ _ _ ih => rw [List.length_cons, List.length_cons, ih]

/-- One common table expression without a list of its own is appended under the first free name. -/
theorem registry_after_body {env : Environment} (h : env.registry.Coherent) (head : Cte) (body : List Token) :
    (filing env head (.body body)).after.registry =
      env.registry.append (filing env head (.body body)).definition := by
  have hname : (filing env head (.body body)).definition.name = env.registry.unusedName head.name :=
    Filing.name_definition _
  have hfree : env.registry.defines (filing env head (.body body)).definition.name = false := by
    rw [hname]
    exact env.registry.defines_unusedName head.name
  have hafter : (filing env head (.body body)).after.registry =
      (env.registry.define (filing env head (.body body)).definition).registry := by
    show ((env.within head).registry.define _).registry = _
    rw [env.registry_within]
  rw [hafter, h.define_of_free hfree]

/-- By induction on the list, the environment going from one member to the next. -/
theorem exists_lists_behind (cs : List (Cte × List Token)) {env : Environment} (h : env.registry.Coherent) :
    ∃ ds, (behind env (cs.map fun c => (c.1, .body c.2))).registry.slots = env.registry.slots ++ ds ∧
      Lists env.registry.slots (cs.map fun c => c.1.name) ds := by
  induction cs generalizing env with
  | nil => exact ⟨[], (List.append_nil _).symm, .nil⟩
  | cons c cs ih =>
    have hafter := registry_after_body h c.1 c.2
    have hcoherent : (filing env c.1 (.body c.2)).after.registry.Coherent := (lookup_after h c.1 (.body c.2)).1
    obtain ⟨ds, hslots, hlists⟩ := ih hcoherent
    rw [hafter, Registry.slots_append] at hslots hlists
    refine ⟨(filing env c.1 (.body c.2)).definition :: ds, ?_, .cons (Filing.kind_definition _) ?_ hlists⟩
    · rw [List.append_cons]
      exact hslots
    · rw [Filing.name_definition]
      exact h.firstFree_unusedName c.1.name

end Query

/-! ## Names in the main body -/

/-- Some of the tokens, next to each other, read as the name. -/
def Token.Writes (ts : List Token) (name : String) : Prop :=
  ∃ us n, us <:+: ts ∧ QualifiedName.read? us 0 = some n ∧ n.text = name

theorem Select.writes_of_read? {ts : List Token} {start : Nat} {t : TableRef} (h : TableRef.read? ts start = some t) :
    Writes (ts.drop start) t.text := by
  have hread := TableRef.read?_drop start 0 ts
  rw [Nat.add_zero, h] at hread
  unfold TableRef.read? at hread
  split at hread
  · cases hread
  · next n hn =>
    refine ⟨_, n, List.infix_rfl, hn, ?_⟩
    split at hread
    · cases hread
    · split at hread
      · cases hread
      · rw [Option.some.inj hread]
        rfl

theorem Token.Writes.of_part {us ts : List Token} {name : String} (h : Writes us name) (hus : us <:+: ts) :
    Writes ts name := by
  obtain ⟨vs, n, hvs, hn, htext⟩ := h
  exact ⟨vs, n, hvs.trans hus, hn, htext⟩

/-- The tables of a body are named in it. -/
theorem Select.writes_of_mem_mentions {ts : List Token} {m : Mention} (h : m ∈ mentions ts) :
    Writes ts m.table.text := by
  have hkeyword : ∀ depth, m ∈ keywordMentions ts depth → Writes ts m.table.text := by
    intro depth hm
    obtain ⟨p, -, hp⟩ := List.mem_filterMap.mp hm
    unfold mentionAt? at hp
    split at hp
    · cases hp
    · split at hp
      · cases hp
      · obtain ⟨t, ht, rfl⟩ := Option.map_eq_some_iff.mp hp
        exact (writes_of_read? ht).of_part (List.drop_suffix _ _).isInfix
  unfold mentions at h
  split at h
  · next select _ =>
    rcases List.mem_append.mp h with h | h
    · exact hkeyword _ h
    · unfold listMentions at h
      dsimp only at h
      split at h
      · cases h
      · obtain ⟨group, hgroup, hm⟩ := List.mem_filterMap.mp h
        obtain ⟨t, ht, rfl⟩ := Option.map_eq_some_iff.mp hm
        have hinfix : group <:+: ts := by
          unfold fromGroups at hgroup
          split at hgroup
          · cases hgroup
          · obtain ⟨s, -, rfl⟩ := List.mem_map.mp hgroup
            exact (Span.of_infix s _).trans (Span.of_infix _ ts)
        exact ((writes_of_read? ht).of_part (List.drop_suffix _ _).isInfix).of_part hinfix
  · exact hkeyword _ h

/-! ## What is left -/

/-- A query with a list of common table expressions is unwound in any inventory that operations can reach, under any
bindings. Behind the definitions of before there is one for each member of the list, in the order of the list, under
the first free name. The definition that is handed back is what the main body alone gives, with the list behind it:
it refers to just the tables of the main body, and these are named there. -/
theorem WithText.unwind_list (ops : List Operation) {w : WithText} (hw : w.Plain) (name : String)
    (kind : Definition.Kind) (ctes : CteBindings) :
    let inv := Operation.runAll .empty ops
    let u := (Query.ofTokens w.tokens).unwind name kind inv ctes
    let env : Environment := ⟨u.inventory.registry, u.ctes⟩
    (∃ ds, u.inventory.registry.slots = inv.registry.slots ++ ds ∧ ds.length = w.ctes.length ∧
      Query.Lists inv.registry.slots (w.ctes.map fun c => c.name.identifier?.getD "") ds) ∧
    u.definition = (Select.read env w.main name kind).definition ∧
    (∀ n, n ∈ u.definition.referenced ↔ ∃ m ∈ Select.mentions w.main, env.resolve m.table.text = n) ∧
    ∀ m ∈ Select.mentions w.main, Writes w.main m.table.text := by
  intro inv u env
  have h : inv.registry.Coherent := Operation.coherent_runAll ops
  obtain ⟨henv, hdefinition⟩ := (Query.ofTokens w.tokens).unwind_eq name kind inv ctes
  have hmembers : Query.members w.recursive?.isSome w.ctes =
      (w.ctes.map fun c => (c.head w.recursive?.isSome, c.body.inner)).map fun c => (c.1, .body c.2) := by
    rw [List.map_map]
    rfl
  have hseen : (Query.ofTokens w.tokens).seen ⟨inv.registry, ctes⟩ =
      Query.behind ⟨inv.registry, ctes⟩ (Query.members w.recursive?.isSome w.ctes) := by
    rw [ofTokens_eq hw, Query.seen_withList]
    rfl
  have hmain : (Query.ofTokens w.tokens).mainBody = w.main := by
    rw [ofTokens_eq hw, Query.mainBody_withList]
    rfl
  have hread : u.definition = (Select.read env w.main name kind).definition := by
    rw [hmain, ← henv] at hdefinition
    exact hdefinition
  refine ⟨?_, hread, ?_, fun m hm => Select.writes_of_mem_mentions hm⟩
  · obtain ⟨ds, hslots, hlists⟩ := @Query.exists_lists_behind
      (w.ctes.map fun c => (c.head w.recursive?.isSome, c.body.inner)) ⟨inv.registry, ctes⟩ h
    rw [← hmembers, ← hseen, ← henv] at hslots
    rw [List.map_map] at hlists
    refine ⟨ds, hslots, ?_, hlists⟩
    rw [hlists.length_eq, List.length_map]
  · intro n
    rw [hread]
    exact Select.mem_referenced_read

/-- The first common table expression gives way to the table `a`, and `t`, which only its body reads, is not referred
to. -/
theorem WithText.unwind_list_beside_table :
    let ts := scan "WITH a AS (SELECT t.x FROM t), b (y) AS NOT MATERIALIZED (SELECT a.x FROM a) SELECT b.y FROM b"
    let t := fun i => ts.getD i ⟨.comma, ",", 0, 0⟩
    let a : CteText := ⟨t 1, none, t 2, none, none, ⟨t 3, Span.of ⟨4, 10⟩ ts, t 10⟩⟩
    let b : CteText := ⟨t 12, some ⟨t 13, [t 14], t 15⟩, t 16, some (t 17), some (t 18), ⟨t 19, Span.of ⟨20, 26⟩ ts, t 26⟩⟩
    let w : WithText := ⟨t 0, none, a, [(t 11, b)], ts.drop 27⟩
    let inv := Operation.runAll .empty [.define (.bare "A" .table)]
    let u := (Query.ofTokens ts).unwind "v" .view inv .empty
    w.tokens = ts ∧ w.Plain ∧
      (∃ ds, u.inventory.registry.slots = .bare "A" .table :: ds ∧ Query.Lists [.bare "A" .table] ["a", "b"] ds) ∧
      ∀ n, n ∈ u.definition.referenced ↔ n = "b" := by
  intro ts t a b w inv u
  obtain ⟨htokens, hplain, hnames, hmentions⟩ : w.tokens = ts ∧ w.Plain ∧
      (w.ctes.map fun c => c.name.identifier?.getD "") = ["a", "b"] ∧
      Select.mentions w.main = [⟨⟨["b"], none⟩, true⟩] := by decide +kernel
  obtain ⟨⟨ds, hslots, -, hlists⟩, -, hreferenced, -⟩ :=
    WithText.unwind_list [.define (.bare "A" .table)] hplain "v" .view .empty
  rw [htokens] at hslots hreferenced
  rw [hnames] at hlists
  have hb : Environment.resolve ⟨u.inventory.registry, u.ctes⟩ "b" = "b" := by decide +kernel
  refine ⟨htokens, hplain, ⟨ds, hslots, hlists⟩, fun n => ?_⟩
  rw [hreferenced, hmentions]
  constructor
  · rintro ⟨m, hm, rfl⟩
    rw [List.mem_singleton.mp hm]
    exact hb
  · rintro rfl
    exact ⟨_, List.mem_singleton_self _, hb⟩

end SqlLineage
