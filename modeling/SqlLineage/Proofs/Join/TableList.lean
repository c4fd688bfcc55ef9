import Mathlib.Data.List.Forall2
import Mathlib.Data.List.TakeWhile
import SqlLineage.Proofs.Join.Lineage
import SqlLineage.Proofs.Token.Depth

/-! # Lists of tables

In `SELECT * FROM a, b JOIN c CROSS JOIN d` a comma or a join stands between neighbours. Two passes look for the
tables: one finds what stands behind `FROM` and `JOIN`, the other one the tables of the comma list in front of the
first join.

* `StarQuery`, `StarQuery.signs`: such queries and how they are written.
* `StarQuery.found`: the tables in the order in which they are found; a comma behind a join hides its table.
* `StarQuery.found_eq_tables_iff`: when that is the order of the text.
* `Join.Separated`: the tokens behind the first table, and what the two passes read from them. -/

namespace SqlLineage
open SqlLineage.Text SqlLineage.Select Join
set_option autoImplicit false

/-! ## Queries -/

/-- What stands between neighbours of a table list. -/
inductive Join.Separator where
  | comma
  | join
  | crossJoin
deriving DecidableEq

def Join.Separator.signs : Separator → List (Token.Kind × String)
  | .comma => [Join.comma]
  | .join => [word "JOIN"]
  | .crossJoin => [word "CROSS", word "JOIN"]

/-- A query for all columns of a table and of further ones, each behind its separator. -/
structure StarQuery where
  first : String
  further : List (Separator × String)

namespace StarQuery

/-- The tables in the order of the text. -/
def tables (q : StarQuery) : List String := q.first :: q.further.map Prod.snd

def signs (q : StarQuery) : List (Token.Kind × String) :=
  word "SELECT" :: (.star, "*") :: word "FROM" :: word q.first ::
    q.further.flatMap fun x => x.1.signs ++ [word x.2]

/-- The tables behind a `JOIN`. -/
def joined (q : StarQuery) : List String := (q.further.filter fun x => x.1 ≠ .comma).map Prod.snd

/-- The tables behind the commas in front of the first join. -/
def leading (q : StarQuery) : List String := (q.further.takeWhile fun x => x.1 = .comma).map Prod.snd

/-- The tables in the order in which they are found. -/
def found (q : StarQuery) : List String := q.first :: (q.joined ++ q.leading)

/-- A query whose tables can be told apart in any case, and are no keywords. -/
@[mk_iff]
structure Plain (q : StarQuery) : Prop where
  words : ∀ t ∈ q.tables, Keyword.isIgnored t = false
  nodup : (q.tables.map upper).Nodup

instance (q : StarQuery) : Decidable q.Plain :=
  decidable_of_iff' _ (plain_iff q)

/-- The columns of all tables found, one after the other, and a record for each of them. -/
def definition (r : Registry) (q : StarQuery) (name : String) (kind : Definition.Kind) : Definition :=
  ⟨name, kind,
    q.found.flatMap fun t => ((knownColumns? r t).getD []).map fun c => .mapped c.name,
    q.found.map fun t => .uses (r.canonicalName t),
    q.found.flatMap fun t => ((knownColumns? r t).getD []).map fun c => ⟨r.canonicalName t, c.name, c.name, false⟩⟩

theorem mem_tables_of_mem_found {q : StarQuery} {t : String} (h : t ∈ q.found) : t ∈ q.tables := by
  rw [found, List.mem_cons, List.mem_append] at h
  rcases h with rfl | h | h
  · exact List.mem_cons_self ..
  · exact List.mem_cons_of_mem _ ((List.filter_sublist.map _).mem h)
  · exact List.mem_cons_of_mem _ (((List.takeWhile_sublist _).map _).mem h)

theorem Plain.nodup_found {q : StarQuery} (hq : q.Plain) : (q.found.map upper).Nodup := by
  have hnodup := hq.nodup
  rw [tables, List.map_cons, List.map_map, List.nodup_cons] at hnodup
  have hjoined := (List.filter_sublist (p := fun x => decide (x.1 ≠ .comma)) (l := q.further)).map (upper ∘ Prod.snd)
  have hleading := (List.takeWhile_sublist (fun x => decide (x.1 = .comma)) (l := q.further)).map (upper ∘ Prod.snd)
  rw [found, List.map_cons, List.map_append, joined, leading, List.map_map, List.map_map, List.nodup_cons,
    List.nodup_append]
  refine ⟨fun hmem => hnodup.1 ?_, hnodup.2.sublist hjoined, hnodup.2.sublist hleading, ?_⟩
  · rcases List.mem_append.mp hmem with hmem | hmem
    · exact hjoined.mem hmem
    · exact hleading.mem hmem
  · -- one table would stand both behind a join and behind a comma
    rintro n hx _ hy rfl
    obtain ⟨x, hx, hxn⟩ := List.mem_map.mp hx
    obtain ⟨y, hy, hyn⟩ := List.mem_map.mp hy
    obtain rfl := List.inj_on_of_nodup_map hnodup.2 (List.mem_of_mem_filter hx)
      ((List.takeWhile_sublist _).mem hy) (hxn.trans hyn.symm)
    have hjoin := (List.mem_filter.mp hx).2
    have hcomma := List.mem_takeWhile_imp hy
    simp_all

/-- The order of the text is kept just when commas and joins are not mixed. -/
theorem found_eq_tables_iff {q : StarQuery} (hq : q.Plain) :
    q.found = q.tables ↔ (∀ x ∈ q.further, x.1 = .comma) ∨ ∀ x ∈ q.further, x.1 ≠ .comma := by
  have hnodup := (List.nodup_cons.mp (List.Nodup.of_map _ hq.nodup)).2
  rw [found, tables, List.cons_inj_right, joined, leading]
  constructor
  · intro h
    cases hf : q.further with
    | nil => exact .inl nofun
    | cons x xs =>
      rw [hf] at h hnodup
      by_cases hx : x.1 = .comma
      · rw [List.filter_cons_of_neg (by simp [hx]), List.takeWhile_cons_of_pos (by simpa using hx)] at h
        cases hj : xs.filter fun x => x.1 ≠ .comma with
        | nil =>
          refine .inl (List.forall_mem_cons.mpr ⟨hx, fun y hy => ?_⟩)
          simpa using List.filter_eq_nil_iff.mp hj y hy
        | cons y ys =>
          -- the first joined table would stand in front of the table behind the first comma
          rw [hj, List.map_cons, List.cons_append, List.map_cons (l := xs), List.cons.injEq] at h
          have hy : y ∈ xs := List.mem_of_mem_filter (hj ▸ List.mem_cons_self ..)
          exact absurd (h.1 ▸ List.mem_map_of_mem hy) (List.nodup_cons.mp hnodup).1
      · rw [List.takeWhile_cons_of_neg (by simpa using hx), List.map_nil, List.append_nil] at h
        have hlength := congrArg List.length h
        rw [List.length_map, List.length_map] at hlength
        refine .inr fun y hy => ?_
        have hall := List.length_filter_eq_length_iff.mp hlength y hy
        simpa using hall
  · rintro (h | h)
    · have hnone : (q.further.filter fun x => x.1 ≠ .comma) = [] :=
        List.filter_eq_nil_iff.mpr fun x hx => by simp [h x hx]
      rw [hnone, List.takeWhile_eq_self_iff.mpr fun x hx => by simp [h x hx]]
      rfl
    · have hnone : (q.further.takeWhile fun x => x.1 = .comma) = [] := by
        cases hf : q.further with
        | nil => rfl
        | cons x xs => exact List.takeWhile_cons_of_neg (by simpa using h x (hf ▸ List.mem_cons_self ..))
      rw [hnone, List.filter_eq_self.mpr fun x hx => by simpa using h x hx, List.map_nil, List.append_nil]

end StarQuery

/-! ## Their tokens -/

namespace Join

/-- Tokens that go on with the given tables, each behind its separator. -/
inductive Separated : List (Separator × String) → List Token → Prop where
  | nil : Separated [] []
  | comma {w : String} {xs : List (Separator × String)} {c t : Token} {us : List Token} (hc : c.sign = Join.comma)
      (ht : t.kind = .word w) (hus : Separated xs us) : Separated ((.comma, w) :: xs) (c :: t :: us)
  | join {w : String} {xs : List (Separator × String)} {k t : Token} {us : List Token} (hk : k.kind = .word "JOIN")
      (ht : t.kind = .word w) (hus : Separated xs us) : Separated ((.join, w) :: xs) (k :: t :: us)
  | crossJoin {w : String} {xs : List (Separator × String)} {x k t : Token} {us : List Token}
      (hx : x.kind = .word "CROSS") (hk : k.kind = .word "JOIN") (ht : t.kind = .word w) (hus : Separated xs us) :
      Separated ((.crossJoin, w) :: xs) (x :: k :: t :: us)

theorem separated_of_signs {xs : List (Separator × String)} {us : List Token}
    (h : us.map Token.sign = xs.flatMap fun x => x.1.signs ++ [word x.2]) : Separated xs us := by
  induction xs generalizing us with
  | nil =>
    obtain rfl := List.map_eq_nil_iff.mp h
    exact .nil
  | cons x xs ih =>
    obtain ⟨u, rest, rfl, hu, hrest⟩ := List.map_eq_append_iff.mp h
    obtain ⟨v, z, rfl, hv, hz⟩ := List.map_eq_append_iff.mp hu
    obtain ⟨t, _, rfl, ht, hnil⟩ := List.map_eq_cons_iff.mp hz
    obtain rfl := List.map_eq_nil_iff.mp hnil
    obtain ⟨separator, w⟩ := x
    cases separator with
    | comma =>
      obtain ⟨c, _, rfl, hc, hnil⟩ := List.map_eq_cons_iff.mp hv
      obtain rfl := List.map_eq_nil_iff.mp hnil
      exact .comma hc (Token.kind_of_sign ht) (ih hrest)
    | join =>
      obtain ⟨k, _, rfl, hk, hnil⟩ := List.map_eq_cons_iff.mp hv
      obtain rfl := List.map_eq_nil_iff.mp hnil
      exact .join (Token.kind_of_sign hk) (Token.kind_of_sign ht) (ih hrest)
    | crossJoin =>
      obtain ⟨c, _, rfl, hc, hv⟩ := List.map_eq_cons_iff.mp hv
      obtain ⟨k, _, rfl, hk, hnil⟩ := List.map_eq_cons_iff.mp hv
      obtain rfl := List.map_eq_nil_iff.mp hnil
      exact .crossJoin (Token.kind_of_sign hc) (Token.kind_of_sign hk) (Token.kind_of_sign ht) (ih hrest)

/-- What may stand behind a table of the list. -/
def EndsTable (ts : List Token) : Prop :=
  ∀ t ∈ ts.head?, t.kind = .comma ∨ t.kind = .word "JOIN" ∨ t.kind = .word "CROSS"

theorem Separated.endsTable {xs : List (Separator × String)} {us : List Token} (h : Separated xs us) :
    EndsTable us := by
  cases h with
  | nil => nofun
  | comma hc =>
    rintro _ ⟨⟩
    exact .inl (Token.kind_of_sign hc)
  | join hk =>
    rintro _ ⟨⟩
    exact .inr (.inl hk)
  | crossJoin hx =>
    rintro _ ⟨⟩
    exact .inr (.inr hx)

/-- A comma, or a word: one between the tables, or a table that is no keyword. -/
def ListToken (t : Token) : Prop :=
  t.kind = .comma ∨ ∃ w, t.kind = .word w ∧ (w = "JOIN" ∨ w = "CROSS" ∨ Keyword.isIgnored w = false)

theorem Separated.listTokens {xs : List (Separator × String)} {us : List Token} (h : Separated xs us)
    (hw : ∀ x ∈ xs, Keyword.isIgnored x.2 = false) : ∀ t ∈ us, ListToken t := by
  induction h with
  | nil => nofun
  | comma hc ht _ ih =>
    obtain ⟨hx, hxs⟩ := List.forall_mem_cons.mp hw
    simp only [List.forall_mem_cons]
    exact ⟨.inl (Token.kind_of_sign hc), .inr ⟨_, ht, .inr (.inr hx)⟩, ih hxs⟩
  | join hk ht _ ih =>
    obtain ⟨hx, hxs⟩ := List.forall_mem_cons.mp hw
    simp only [List.forall_mem_cons]
    exact ⟨.inr ⟨_, hk, .inl rfl⟩, .inr ⟨_, ht, .inr (.inr hx)⟩, ih hxs⟩
  | crossJoin hx hk ht _ ih =>
    obtain ⟨hw, hxs⟩ := List.forall_mem_cons.mp hw
    simp only [List.forall_mem_cons]
    exact ⟨.inr ⟨_, hx, .inr (.inl rfl)⟩, .inr ⟨_, hk, .inl rfl⟩, .inr ⟨_, ht, .inr (.inr hw)⟩, ih hxs⟩

theorem ListToken.isParen {t : Token} (h : ListToken t) : t.isParen = false := by
  rcases h with h | ⟨w, h, -⟩
  · simp [Token.isParen, h]
  · exact Token.isParen_of_kind h

theorem isOneOf_of_not_ignored {t : Token} {w : String} (ht : t.kind = .word w) (hw : Keyword.isIgnored w = false)
    {keywords : List String} (hk : ∀ k ∈ keywords, k ∈ Keyword.ignored) : t.isOneOf keywords = false := by
  rw [Token.isOneOf_of_kind ht, List.contains_eq_mem, decide_eq_false_iff_not]
  exact fun hmem => Keyword.not_mem_ignored hw (hk _ hmem)

/-! ## One table -/

/-- A table as it is mentioned in the list. -/
def tableMention (w : String) : Mention := ⟨⟨[w], none⟩, true⟩

theorem text_tableMention (w : String) : (tableMention w).table.text = w :=
  String.intercalate_singleton

theorem read?_table {t : Token} {w : String} (ht : t.kind = .word w) (hw : Keyword.isIgnored w = false)
    (pre : List Token) {rest : List Token} (hrest : EndsTable rest) :
    TableRef.read? (pre ++ t :: rest) pre.length = some ⟨[w], none⟩ := by
  have hnext := getElem?_behind pre (t :: rest) 1
  rw [List.getElem?_cons_succ] at hnext
  have hfree : freeName? t = some w := by
    rw [freeName?, Token.identifier?_of_kind ht]
    simp [hw]
  have hfurther : QualifiedName.furtherParts rest = [] := by
    cases rest with
    | nil => rfl
    | cons u rest =>
      refine QualifiedName.furtherParts_cons ?_ rest
      rcases hrest u rfl with h | h | h <;> simp [h]
  have hname : QualifiedName.read? (pre ++ t :: rest) pre.length = some ⟨[w], pre.length + 1⟩ := by
    rw [QualifiedName.read?, List.drop_left, QualifiedName.ofTokens?_cons (Token.identifier?_of_kind ht), hfurther]
    rfl
  have hopens : Token.opensAt (pre ++ t :: rest) (pre.length + 1) = false := by
    rw [Token.opensAt, hnext]
    cases rest with
    | nil => rfl
    | cons u rest => rcases hrest u rfl with h | h | h <;> simp [h]
  have halias : aliasAt? (pre ++ t :: rest) (pre.length + 1) = none := by
    have hword : Token.wordAt (pre ++ t :: rest) (pre.length + 1) "AS" = false := by
      rw [Token.wordAt, hnext]
      cases rest with
      | nil => rfl
      | cons u rest => rcases hrest u rfl with h | h | h <;> simp [Token.isWord, h] <;> decide +kernel
    rw [aliasAt?, Token.behindWord, hword, if_neg (by simp), hnext]
    cases rest with
    | nil => rfl
    | cons u rest =>
      rcases hrest u rfl with h | h | h <;> simp [freeName?, Token.identifier?, Token.isQuoted, h] <;> decide +kernel
  rw [TableRef.read?, hname]
  simp [hopens, halias, hfree]

/-! ## The tables behind keywords -/

theorem mentionAt?_table {k t : Token} {keyword w : String} (hk : k.kind = .word keyword)
    (hkeyword : keyword = "FROM" ∨ keyword = "JOIN") (ht : t.kind = .word w) (hw : Keyword.isIgnored w = false)
    {pre rest : List Token} (hrest : EndsTable rest)
    (hfrom : keyword = "FROM" → isNonTableFrom (pre ++ k :: t :: rest) pre.length = false) :
    mentionAt? (pre ++ k :: t :: rest) 0 ⟨k, 0, pre.length⟩ = some (tableMention w) := by
  have hread := read?_table ht hw (pre ++ [k]) hrest
  rw [List.append_assoc, List.singleton_append, List.length_append, List.length_singleton] at hread
  exact mentionAt?_of_read? hk hkeyword hread hfrom

theorem mentionAt?_of_not_ignored {t : Token} {w : String} (ht : t.kind = .word w) (hw : Keyword.isIgnored w = false)
    (ts : List Token) (depth d : Int) (i : Nat) : mentionAt? ts depth ⟨t, d, i⟩ = none :=
  mentionAt?_of_not_keyword (isOneOf_of_not_ignored ht hw (by decide +kernel))

theorem filterMap_mentionAt?_separated {xs : List (Separator × String)} {us : List Token} (h : Separated xs us)
    (hw : ∀ x ∈ xs, Keyword.isIgnored x.2 = false) (pre : List Token) :
    (Token.placedFrom pre.length 0 us).filterMap (mentionAt? (pre ++ us) 0) =
      ((xs.filter fun x => x.1 ≠ .comma).map Prod.snd).map tableMention := by
  induction h generalizing pre with
  | nil => rfl
  | @comma w xs c t us hc ht hus ih =>
    obtain ⟨hx, hxs⟩ := List.forall_mem_cons.mp hw
    have hcomma := Token.kind_of_sign hc
    have hnone : mentionAt? (pre ++ c :: t :: us) 0 ⟨c, 0, pre.length⟩ = none :=
      mentionAt?_of_not_keyword (Token.isOneOf_of_not_word (by simp [hcomma]) _)
    have hrec := ih hxs (pre ++ [c, t])
    rw [List.append_assoc, List.length_append] at hrec
    rw [Token.placedFrom_of_not_paren (by simp [Token.isParen, hcomma]), placedFrom_word ht,
      List.filterMap_cons_none hnone, List.filterMap_cons_none (mentionAt?_of_not_ignored ht hx _ _ _ _),
      List.filter_cons_of_neg (by simp)]
    exact hrec
  | @join w xs k t us hk ht hus ih =>
    obtain ⟨hx, hxs⟩ := List.forall_mem_cons.mp hw
    have hrec := ih hxs (pre ++ [k, t])
    rw [List.append_assoc, List.length_append] at hrec
    rw [placedFrom_word hk, placedFrom_word ht,
      List.filterMap_cons_some (mentionAt?_table hk (.inr rfl) ht hx hus.endsTable (absurd · (by decide))),
      List.filterMap_cons_none (mentionAt?_of_not_ignored ht hx _ _ _ _), List.filter_cons_of_pos (by simp)]
    exact congrArg _ hrec
  | @crossJoin w xs x k t us hcross hk ht hus ih =>
    obtain ⟨hx, hxs⟩ := List.forall_mem_cons.mp hw
    have hnone : mentionAt? (pre ++ x :: k :: t :: us) 0 ⟨x, 0, pre.length⟩ = none := by
      refine mentionAt?_of_not_keyword ?_
      rw [Token.isOneOf_of_kind hcross]
      decide +kernel
    have hmention : mentionAt? (pre ++ [x] ++ k :: t :: us) 0 ⟨k, 0, (pre ++ [x]).length⟩ = some (tableMention w) :=
      mentionAt?_table hk (.inr rfl) ht hx hus.endsTable (absurd · (by decide))
    have hrec := ih hxs (pre ++ [x, k, t])
    rw [List.append_assoc, List.length_append] at hrec
    rw [List.append_assoc, List.singleton_append, List.length_append, List.length_singleton] at hmention
    rw [placedFrom_word hcross, placedFrom_word hk, placedFrom_word ht, List.filterMap_cons_none hnone,
      List.filterMap_cons_some hmention, List.filterMap_cons_none (mentionAt?_of_not_ignored ht hx _ _ _ _),
      List.filter_cons_of_pos (by simp)]
    exact congrArg _ hrec

/-! ## The tables of the comma list -/

/-- The pieces of a list without commas of their own are its groups. -/
theorem forall₂_topLevel {α : Type} {R : α → List Token → Prop} {xs : List α} {ts : List Token}
    (h : ListedBy R xs ts) (hR : ∀ x u, R x u → Token.Nested (fun t => t.kind ≠ .comma) u ∧ u ≠ []) :
    List.Forall₂ R xs (Token.topLevel ts) := by
  have hnonempty : ∀ (u : List Token) (i : Nat), u ≠ [] → Token.Span.nonempty i (i + u.length) = [⟨i, i + u.length⟩] :=
    fun u i hu => if_pos (Nat.lt_add_of_pos_right (List.length_pos_iff.mpr hu))
  -- the spans count from the start of the list, so `pre` grows by a piece and its comma
  have hall : ∀ pre : List Token,
      List.Forall₂ R xs ((Token.spansFrom pre.length pre.length 0 ts).map (·.of (pre ++ ts))) := by
    induction h with
    | nil =>
      intro pre
      rw [Token.spansFrom, Token.Span.nonempty, if_neg (Nat.lt_irrefl _)]
      exact .nil
    | @one x u hu =>
      intro pre
      obtain ⟨hnested, hne⟩ := hR x u hu
      have hspans := Token.spansFrom_nested hnested pre.length pre.length []
      have hof := @span_of_append pre u []
      rw [List.append_nil] at hspans hof
      rw [hspans, Token.spansFrom, hnonempty u _ hne, List.map_singleton, hof]
      exact .cons hu .nil
    | @more x y ys u us c hu hc hus ih =>
      intro pre
      obtain ⟨hnested, hne⟩ := hR x u hu
      have hrec := ih (pre ++ (u ++ [c]))
      have hlength : (pre ++ (u ++ [c])).length = pre.length + u.length + 1 := by
        simp only [List.length_append, List.length_singleton]
        omega
      have hassoc : pre ++ (u ++ [c]) ++ us = pre ++ (u ++ c :: us) := by simp
      rw [hlength, hassoc] at hrec
      rw [Token.spansFrom_nested hnested, Token.spansFrom, if_pos ⟨Token.kind_of_sign hc, rfl⟩, hnonempty u _ hne,
        List.singleton_append, List.map_cons, span_of_append]
      exact .cons hu hrec
  exact hall []

/-- Tokens that are one table. -/
def IsTable (w : String) (u : List Token) : Prop :=
  ∃ t : Token, u = [t] ∧ t.kind = .word w

theorem filterMap_read?_groups {ws : List String} {groups : List (List Token)} (h : List.Forall₂ IsTable ws groups)
    (hw : ∀ w ∈ ws, Keyword.isIgnored w = false) :
    (groups.filterMap fun group => (TableRef.read? group 0).map fun t => (⟨t, true⟩ : Mention)) =
      ws.map tableMention := by
  induction h with
  | nil => rfl
  | @cons w u ws groups hu _ ih =>
    obtain ⟨hx, hxs⟩ := List.forall_mem_cons.mp hw
    obtain ⟨t, rfl, ht⟩ := hu
    have hread : TableRef.read? ([] ++ [t]) 0 = some ⟨[w], none⟩ := read?_table ht hx [] nofun
    rw [List.nil_append] at hread
    rw [List.filterMap_cons_some (by rw [hread]; rfl), ih hxs]
    rfl

/-- The comma list ends at the first join. -/
theorem Separated.exists_leading {xs : List (Separator × String)} {us : List Token} (h : Separated xs us)
    (hw : ∀ x ∈ xs, Keyword.isIgnored x.2 = false) {w : String} {t : Token} (ht : t.kind = .word w) :
    ∃ ls rest, us = ls ++ rest ∧
      ListedBy IsTable (w :: (xs.takeWhile fun x => x.1 = .comma).map Prod.snd) (t :: ls) ∧
      (∀ u ∈ ls, u.isOneOf fromListEnds = false) ∧ ∀ u ∈ rest.head?, u.isOneOf fromListEnds = true := by
  induction h generalizing w t with
  | nil => exact ⟨[], [], rfl, .one ⟨t, rfl, ht⟩, nofun, nofun⟩
  | @comma v xs c u us hc hu _ ih =>
    obtain ⟨hx, hxs⟩ := List.forall_mem_cons.mp hw
    obtain ⟨ls, rest, rfl, hlisted, hquiet, hends⟩ := ih hxs hu
    refine ⟨c :: u :: ls, rest, rfl, ?_, ?_, hends⟩
    · rw [List.takeWhile_cons_of_pos (by simp)]
      exact .more ⟨t, rfl, ht⟩ hc hlisted
    · simp only [List.forall_mem_cons]
      exact ⟨Token.isOneOf_of_not_word (by simp [Token.kind_of_sign hc]) _,
        isOneOf_of_not_ignored hu hx (by decide +kernel), hquiet⟩
  | @join v xs k u us hk _ _ _ =>
    refine ⟨[], _, rfl, ?_, nofun, ?_⟩
    · rw [List.takeWhile_cons_of_neg (by simp)]
      exact .one ⟨t, rfl, ht⟩
    · rintro _ ⟨⟩
      rw [Token.isOneOf_of_kind hk]
      decide +kernel
  | @crossJoin v xs x k u us hx _ _ _ _ =>
    refine ⟨[], _, rfl, ?_, nofun, ?_⟩
    · rw [List.takeWhile_cons_of_neg (by simp)]
      exact .one ⟨t, rfl, ht⟩
    · rintro _ ⟨⟩
      rw [Token.isOneOf_of_kind hx]
      decide +kernel

/-- Without parentheses a clause ends in front of the first token that may end it. -/
theorem clauseEnd_append {pre us rest : List Token} {ends : List String}
    (hparen : ∀ t ∈ pre ++ (us ++ rest), t.isParen = false) (hus : ∀ t ∈ us, t.isOneOf ends = false)
    (hrest : ∀ t ∈ rest.head?, t.isOneOf ends = true) :
    clauseEnd (pre ++ (us ++ rest)) pre.length 0 ends = pre.length + us.length := by
  have hpre : Token.depthBefore (pre ++ (us ++ rest)) pre.length = 0 := by
    rw [Token.depthBefore, List.take_left]
    exact Token.depthBehind_of_not_paren (fun t ht => hparen t (List.mem_append_left _ ht)) 0
  have hfind : ∀ i : Nat, ((Token.placedFrom i 0 (us ++ rest)).find? fun p =>
      p.depth < 0 || p.depth == 0 && p.token.isOneOf ends) = rest.head?.map fun t => ⟨t, 0, i + us.length⟩ := by
    intro i
    have hplain : ∀ t ∈ us ++ rest, t.isParen = false := fun t ht => hparen t (List.mem_append_right _ ht)
    clear hparen hpre
    induction us generalizing i with
    | nil =>
      cases rest with
      | nil => rfl
      | cons t rest =>
        have ht := hrest t rfl
        rw [List.nil_append, Token.placedFrom_of_not_paren (hplain t (by simp)), List.find?_cons]
        simp [ht]
    | cons t us ih =>
      obtain ⟨ht, hus⟩ := List.forall_mem_cons.mp hus
      rw [List.cons_append, Token.placedFrom_of_not_paren (hplain t (by simp)), List.find?_cons]
      simp only [ht, Int.lt_irrefl, decide_false, Bool.false_or, Bool.and_false]
      rw [ih hus (i + 1) fun u hu => hplain u (List.mem_cons_of_mem _ hu), List.length_cons]
      congr 2
      funext u
      congr 1
      omega
  have hlength : pre.length ≤ (pre ++ (us ++ rest)).length := by simp
  have hdrop := Token.drop_placed hlength
  rw [List.drop_left, hpre] at hdrop
  rw [clauseEnd, hdrop, hfind]
  cases rest with
  | nil => simp
  | cons t rest => rfl

end Join
end SqlLineage
