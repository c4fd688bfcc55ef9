import SqlLineage.Proofs.Query.Trace

/-! # Queries without recursion

Where `RECURSIVE` follows no `WITH`, a name is bound only behind the definition that it stands for.

* `Token.bindsRecursively`: whether `WITH RECURSIVE` stands somewhere. If it does not, then it does not in
  any part of the tokens either, and so no common table expression is a recursive one.
* `Environment.Sound`: every bound name leads to a definition. All that a query without recursion sees is
  sound, and `Environment.defines_resolve` says that then known names lead to definitions. -/

namespace SqlLineage
open SqlLineage.Text
set_option autoImplicit false

/-! ## Tokens without `WITH RECURSIVE` -/

namespace Token

/-- Whether `RECURSIVE` stands right behind a `WITH`. -/
def bindsRecursively : List Token → Bool
  | w :: r :: ts => (w.isWord "WITH" && r.isWord "RECURSIVE") || bindsRecursively (r :: ts)
  | _ => false

theorem bindsRecursively_append_left (as : List Token) {ts : List Token} (h : bindsRecursively ts = true) :
    bindsRecursively (as ++ ts) = true := by
  induction as with
  | nil => exact h
  | cons a as ih =>
    rw [List.cons_append]
    cases hs : as ++ ts with
    | nil =>
      rw [hs] at ih
      cases ih
    | cons r us => rw [bindsRecursively, ← hs, ih, Bool.or_true]

theorem bindsRecursively_append_right {ts : List Token} (bs : List Token) (h : bindsRecursively ts = true) :
    bindsRecursively (ts ++ bs) = true := by
  fun_induction bindsRecursively ts with
  | case1 w r ts ih =>
    rw [List.cons_append, List.cons_append, bindsRecursively]
    rw [Bool.or_eq_true] at h ⊢
    exact h.imp_right ih
  | case2 => cases h

theorem bindsRecursively_of_infix {ts us : List Token} (h : ts <:+: us) (hus : bindsRecursively us = false) :
    bindsRecursively ts = false := by
  obtain ⟨as, bs, rfl⟩ := h
  by_contra hts
  rw [Bool.not_eq_false] at hts
  have hall := bindsRecursively_append_right bs (bindsRecursively_append_left as hts)
  rw [hus] at hall
  cases hall

end Token

/-! ## Common table expressions that are not recursive -/

theorem Token.Span.of_infix {α : Type} (s : Token.Span) (xs : List α) : s.of xs <:+: xs :=
  (List.take_prefix _ _).isInfix.trans (List.drop_suffix _ _).isInfix

theorem Cte.bodyAt_infix (ts : List Token) (start : Nat) :
    (bodyAt ts start).2.1 <:+: ts ∧ (bodyAt ts start).2.2 <:+: ts := by
  unfold bodyAt
  split
  · exact ⟨Token.Span.of_infix _ ts, (List.drop_suffix _ _).isInfix⟩
  · exact ⟨(List.drop_suffix _ _).isInfix, ts.nil_infix⟩

theorem Cte.read?_infix {recursive : Bool} {ts : List Token} {c : CteReading} (h : read? recursive ts = some c) :
    c.cte.recursive = recursive ∧ c.body <:+: ts ∧ c.rest <:+: ts := by
  unfold read? at h
  split at h
  · cases h
  · split at h
    · cases h
    · split at h
      · cases h
      · obtain rfl := Option.some.inj h
        exact ⟨rfl, bodyAt_infix ts _⟩

namespace Query

theorem recursive_of_mem_heads {ts : List Token} (h : Token.bindsRecursively ts = false) :
    ∀ head ∈ (ofTokens ts).heads, head.recursive = false := by
  refine ofTokens_induction
    (P := fun ts => Token.bindsRecursively ts = false → ∀ head ∈ (ofTokens ts).heads, head.recursive = false)
    (L := fun b ts => b = false → Token.bindsRecursively ts = false →
      ∀ head ∈ (ofList b ts).heads, head.recursive = false)
    (R := fun b ts => b = false → Token.bindsRecursively ts = false →
      ∀ head ∈ (ofRest b ts).heads, head.recursive = false)
    ?body ?recursive ?list ?noCte ?cte ?further ?main ts h
  case body =>
    intro ts hwith _ head hh
    rw [ofTokens_of_no_with hwith] at hh
    cases hh
  case recursive =>
    intro w r ts hw hr _ hts
    rw [Token.bindsRecursively, hw, hr] at hts
    cases hts
  case list =>
    intro w ts hw hr ih hts head hh
    rw [ofTokens_with hw hr] at hh
    exact ih rfl (Token.bindsRecursively_of_infix (List.suffix_cons w _).isInfix hts) head hh
  case noCte =>
    intro b ts hc _ _ head hh
    rw [ofList_of_none hc] at hh
    cases hh
  case cte =>
    intro b ts c hc ihbody ihrest hb hts head hh
    obtain ⟨hown, hbody, hrest⟩ := Cte.read?_infix hc
    rw [ofList_of_some hc, heads] at hh
    rcases List.mem_append.mp hh with hh | hh
    · exact ihbody (Token.bindsRecursively_of_infix hbody hts) head hh
    · rcases List.mem_cons.mp hh with rfl | hh
      · exact hown.trans hb
      · exact ihrest hb (Token.bindsRecursively_of_infix hrest hts) head hh
  case further =>
    intro b comma ts hcomma ih hb hts head hh
    rw [ofRest_of_comma b hcomma] at hh
    exact ih hb (Token.bindsRecursively_of_infix (List.suffix_cons comma ts).isInfix hts) head hh
  case main =>
    intro b ts hmain _ _ head hh
    rw [ofRest_of_no_comma b hmain] at hh
    cases hh

end Query

/-! ## Bound names -/

namespace Environment

/-- Every bound name leads to a definition. -/
structure Sound (env : Environment) : Prop where
  coherent : env.registry.Coherent
  defined : ∀ name filed, env.ctes.filed? name = some filed → env.registry.defines filed = true

def Knows (env : Environment) (name : String) : Prop :=
  (env.ctes.filed? name).isSome ∨ env.registry.defines name = true

theorem sound_empty {r : Registry} (h : r.Coherent) : Sound ⟨r, .empty⟩ where
  coherent := h
  defined := by
    intro name filed hf
    cases hf

theorem Sound.defines_resolve {env : Environment} (h : env.Sound) {name : String} (hn : env.Knows name) :
    env.registry.defines (env.resolve name) = true := by
  unfold resolve
  cases hf : env.ctes.filed? name with
  | some filed => exact h.defined name filed hf
  | none =>
    have hd : env.registry.defines name = true := by
      rcases hn with hn | hn
      · rw [hf] at hn
        cases hn
      · exact hn
    rw [Option.getD_none, env.registry.defines_congr (h.coherent.upper_canonicalName name)]
    exact hd

theorem within_of_not_recursive {env : Environment} {head : Cte} (h : head.recursive = false) :
    env.within head = env := by
  unfold within
  rw [h]
  rfl

end Environment

theorem Filing.sound_after {f : Filing} (h : f.environment.Sound) : f.after.Sound where
  coherent := h.coherent.define _
  defined := by
    intro name filed hf
    have hself := h.coherent.defines_define_self f.definition
    rw [f.name_definition] at hself
    unfold after CteBindings.filed? CteBindings.bind at hf
    rw [OrderedMap.find?_insert] at hf
    split at hf
    · obtain rfl := Option.some.inj hf
      exact hself
    · exact h.coherent.defines_define f.definition (h.defined name filed hf)

namespace Query

theorem sound_of_not_recursive (q : Query) {env : Environment} (h : env.Sound)
    (hq : ∀ head ∈ q.heads, head.recursive = false) :
    (q.seen env).Sound ∧ ∀ f ∈ q.filings env, f.environment.Sound := by
  induction q generalizing env with
  | body ts =>
    refine ⟨h, ?_⟩
    intro f hf
    cases hf
  | cte head definition rest ihd ihr =>
    rw [heads, List.forall_mem_append, List.forall_mem_cons] at hq
    obtain ⟨hd, hhead, hr⟩ := hq
    have hdef := ihd h hd
    have hown : (filing env head definition).environment.Sound := by
      rw [filing, Environment.within_of_not_recursive hhead]
      exact hdef.1
    have hrest := ihr (Filing.sound_after hown) hr
    refine ⟨hrest.1, ?_⟩
    intro f hf
    rw [filings, Environment.within_of_not_recursive hhead] at hf
    rcases List.mem_append.mp hf with hf | hf
    · exact hdef.2 f hf
    · rcases List.mem_cons.mp hf with rfl | hf
      · exact hown
      · exact hrest.2 f hf

end Query
end SqlLineage
