import SqlLineage.Proofs.Join.Grammar
import SqlLineage.Proofs.Registry.Invariant
import SqlLineage.Proofs.Select.Sources

/-! # The scope of joined tables

* `JoinQuery.mentions`: the tables of a query as they are mentioned.
* `JoinQuery.Shows`: every alias leads to the table of its source, every table name leads somewhere, other
  names lead nowhere, and the tables are those that are joined.
* `JoinQuery.shows_ofMentions`: this is what the scope of a plain query does. -/

namespace SqlLineage
open SqlLineage.Text SqlLineage.Select Join
set_option autoImplicit false

/-- What is seen in a script where no common table expression is bound. -/
def Environment.plain (r : Registry) : Environment := ⟨r, .empty⟩

theorem Environment.resolve_plain (r : Registry) (name : String) :
    (Environment.plain r).resolve name = r.canonicalName name :=
  rfl

namespace Join

def Source.mention (s : Source) : Mention := ⟨⟨[s.table], some s.label⟩, true⟩

theorem Source.text_mention (s : Source) : s.mention.table.text = s.table :=
  String.intercalate_singleton

def addSources (r : Registry) (scope : Scope) (ss : List Source) : Scope :=
  ss.foldl (fun scope s => scope.add (s.spelled r) s.mention) scope

theorem ofMentions_eq (r : Registry) (ss : List Source) :
    Scope.ofMentions (.plain r) (ss.map Source.mention) = addSources r .empty ss := by
  unfold Scope.ofMentions addSources
  rw [List.foldl_map]
  simp only [Environment.resolve_plain, Source.text_mention]
  rfl

section Sources
variable {r : Registry}

/-- A source answers to its table and to its alias, in any case, and to nothing else. -/
theorem resolve?_add_source (h : r.Coherent) (scope : Scope) (s : Source) (q : String) :
    (scope.add (s.spelled r) s.mention).resolve? q =
      if upper q = upper s.table ∨ upper q = upper s.label then some (s.spelled r) else scope.resolve? q := by
  have hnames : (Scope.namesOf (s.spelled r) s.mention.table).map upper =
      [upper s.table, upper s.table, upper s.label] := by
    have hspelled : upper (s.spelled r) = upper s.table := h.upper_canonicalName s.table
    have htext := s.text_mention
    simp [Scope.namesOf, Source.mention] at htext ⊢
    exact ⟨hspelled, by rw [htext]⟩
  rw [Scope.resolve?_add, hnames]
  simp

theorem resolve?_addSources_of_other (h : r.Coherent) (scope : Scope) {ss : List Source} {q : String}
    (hq : ∀ s ∈ ss, upper q ≠ upper s.label ∧ upper q ≠ upper s.table) :
    (addSources r scope ss).resolve? q = scope.resolve? q := by
  induction ss generalizing scope with
  | nil => rfl
  | cons s ss ih =>
    obtain ⟨hs, hss⟩ := List.forall_mem_cons.mp hq
    have hstep := ih (scope.add (s.spelled r) s.mention) hss
    rw [resolve?_add_source h, if_neg (by rintro (ht | ha); exact hs.2 ht; exact hs.1 ha)] at hstep
    exact hstep

theorem isSome_resolve?_addSources (h : r.Coherent) (scope : Scope) {ss : List Source} {q : String}
    (hq : (scope.resolve? q).isSome ∨ ∃ s ∈ ss, upper q = upper s.table) :
    ((addSources r scope ss).resolve? q).isSome := by
  induction ss generalizing scope with
  | nil =>
    rcases hq with hq | ⟨s, hs, -⟩
    · exact hq
    · cases hs
  | cons s ss ih =>
    refine ih (scope.add (s.spelled r) s.mention) ?_
    rw [resolve?_add_source h]
    split
    · exact .inl rfl
    · next hno =>
      rcases hq with hq | ⟨t, ht, hqt⟩
      · exact .inl hq
      · rcases List.mem_cons.mp ht with rfl | ht
        · exact absurd (.inl hqt) hno
        · exact .inr ⟨t, ht, hqt⟩

theorem referenced_addSources (scope : Scope) (ss : List Source) :
    (addSources r scope ss).referenced = (ss.map (Source.spelled r)).foldl appendNew scope.referenced := by
  induction ss generalizing scope with
  | nil => rfl
  | cons s ss ih =>
    have hstep := ih (scope.add (s.spelled r) s.mention)
    rw [Scope.referenced_add] at hstep
    exact hstep

theorem topLevel_addSources (scope : Scope) (ss : List Source) :
    (addSources r scope ss).topLevel = (ss.map (Source.spelled r)).foldl appendNew scope.topLevel := by
  induction ss generalizing scope with
  | nil => rfl
  | cons s ss ih =>
    have hstep := ih (scope.add (s.spelled r) s.mention)
    rw [Scope.topLevel_add, if_pos (show s.mention.topLevel = true from rfl)] at hstep
    exact hstep

end Sources
end Join

namespace JoinQuery

def mentions (j : JoinQuery) : List Mention := j.sources.map Source.mention

/-- A scope that gives every name of a query its meaning. -/
structure Shows (j : JoinQuery) (r : Registry) (scope : Scope) : Prop where
  label : ∀ s ∈ j.sources, scope.resolve? s.label = some (s.spelled r)
  table : ∀ s ∈ j.sources, (scope.resolve? s.table).isSome
  other : ∀ c, (∀ s ∈ j.sources, upper c ≠ upper s.label ∧ upper c ≠ upper s.table) → scope.resolve? c = none
  referenced : scope.referenced = j.tables r
  topLevel : scope.topLevel = j.tables r

/-- In the scope of a plain query no source hides the alias of another one. -/
theorem shows_ofMentions {j : JoinQuery} (hj : j.Plain) {r : Registry} (h : r.Coherent) :
    j.Shows r (.ofMentions (.plain r) j.mentions) := by
  rw [mentions, ofMentions_eq]
  refine ⟨?_, ?_, ?_, referenced_addSources .empty _, topLevel_addSources .empty _⟩
  · intro s hs
    obtain ⟨before, after, hsplit⟩ := List.append_of_mem hs
    have hnodup := hj.nodup
    rw [hsplit, List.map_append, List.map_cons, List.nodup_append, List.nodup_cons] at hnodup
    have hafter : ∀ t ∈ after, upper s.label ≠ upper t.label ∧ upper s.label ≠ upper t.table := by
      intro t ht
      refine ⟨fun hst => hnodup.2.1.1 (hst ▸ List.mem_map_of_mem ht), hj.apart s hs t ?_⟩
      rw [hsplit]
      simp [ht]
    -- `s` is the last source that answers to its alias
    have hlast := resolve?_addSources_of_other h ((addSources r .empty before).add (s.spelled r) s.mention) hafter
    rw [resolve?_add_source h, if_pos (.inr rfl)] at hlast
    rw [hsplit, addSources, List.foldl_append]
    exact hlast
  · intro s hs
    exact isSome_resolve?_addSources h .empty (.inr ⟨s, hs, rfl⟩)
  · intro c hc
    exact resolve?_addSources_of_other h .empty hc

end JoinQuery
end SqlLineage
