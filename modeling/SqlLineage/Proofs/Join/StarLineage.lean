import SqlLineage.Proofs.Join.TableList

/-! # All columns of a list of tables

* `Join.StarParts`: the tokens of a query for all columns, and what the readers of a body find in them.
* `Projection.foldl_addTable`: a star gives all columns of its tables, if these are known.
* `StarQuery.definition_unwind`: what unwinding makes of such a query, and when it keeps the order of the text. -/

namespace SqlLineage
open SqlLineage.Text SqlLineage.Select Join
set_option autoImplicit false

/-! ## Their tokens -/

theorem Token.depthAt_of_not_parens {ts : List Token} (h : ∀ t ∈ ts, t.isParen = false) (i : Nat) :
    depthAt ts i = 0 := by
  cases hi : ts[i]? with
  | none => simp [depthAt, List.getElem?_eq_none_iff.mp hi]
  | some t =>
    rw [(depthAt_of_not_paren hi (h t (List.mem_of_getElem? hi))).1, depthBefore]
    exact depthBehind_of_not_paren (fun u hu => h u (List.mem_of_mem_take hu)) 0

namespace Join

/-- The tokens of a query for all columns. -/
structure StarParts (q : StarQuery) (sel star k t : Token) (us : List Token) : Prop where
  sel_kind : sel.kind = .word "SELECT"
  star_kind : star.kind = .star
  k_kind : k.kind = .word "FROM"
  t_kind : t.kind = .word q.first
  separated : Separated q.further us

theorem starParts_of_signs {q : StarQuery} {ts : List Token} (h : ts.map Token.sign = q.signs) :
    ∃ sel star k t us, ts = sel :: star :: k :: t :: us ∧ StarParts q sel star k t us := by
  obtain ⟨sel, _, rfl, hsel, h⟩ := List.map_eq_cons_iff.mp h
  obtain ⟨star, _, rfl, hstar, h⟩ := List.map_eq_cons_iff.mp h
  obtain ⟨k, _, rfl, hk, h⟩ := List.map_eq_cons_iff.mp h
  obtain ⟨t, us, rfl, ht, hus⟩ := List.map_eq_cons_iff.mp h
  exact ⟨sel, star, k, t, us, rfl, Token.kind_of_sign hsel, Token.kind_of_sign hstar, Token.kind_of_sign hk,
    Token.kind_of_sign ht, separated_of_signs hus⟩

namespace StarParts
variable {q : StarQuery} {sel star k t : Token} {us : List Token}

theorem words_further (hq : q.Plain) : ∀ x ∈ q.further, Keyword.isIgnored x.2 = false :=
  fun _ hx => hq.words _ (List.mem_cons_of_mem _ (List.mem_map_of_mem hx))

theorem listTokens (h : StarParts q sel star k t us) (hq : q.Plain) : ∀ u ∈ t :: us, ListToken u :=
  List.forall_mem_cons.mpr ⟨.inr ⟨_, h.t_kind, .inr (.inr (hq.words _ (List.mem_cons_self ..)))⟩,
    h.separated.listTokens (words_further hq)⟩

theorem not_paren (h : StarParts q sel star k t us) (hq : q.Plain) :
    ∀ u ∈ sel :: star :: k :: t :: us, u.isParen = false := by
  rw [List.forall_mem_cons, List.forall_mem_cons, List.forall_mem_cons]
  exact ⟨Token.isParen_of_kind h.sel_kind, by simp [Token.isParen, h.star_kind], Token.isParen_of_kind h.k_kind,
    fun u hu => (h.listTokens hq u hu).isParen⟩

theorem depthAt (h : StarParts q sel star k t us) (hq : q.Plain) (i : Nat) :
    Token.depthAt (sel :: star :: k :: t :: us) i = 0 :=
  Token.depthAt_of_not_parens (h.not_paren hq) i

theorem select? (h : StarParts q sel star k t us) : Select.select? (sel :: star :: k :: t :: us) = some 0 := by
  have hword : sel.isWord "SELECT" = true := by
    rw [Token.isWord, h.sel_kind]
    rfl
  rw [Select.select?, List.findIdx?_cons, if_pos hword]

theorem isNonTableFrom (h : StarParts q sel star k t us) :
    Select.isNonTableFrom (sel :: star :: k :: t :: us) 2 = false := by
  have hstar : star.isWord "DISTINCT" = false := by rw [Token.isWord, h.star_kind]
  have hopens : opensFromFunction 0 [star, sel] = false := by
    simp [opensFromFunction, h.star_kind, h.sel_kind]
  simp [Select.isNonTableFrom, Token.before?, hstar, hopens]

theorem keywordMentions (h : StarParts q sel star k t us) (hq : q.Plain) :
    Select.keywordMentions (sel :: star :: k :: t :: us) 0 = (q.first :: q.joined).map tableMention := by
  have hfirst := hq.words _ (List.mem_cons_self ..)
  have hsel : mentionAt? (sel :: star :: k :: t :: us) 0 ⟨sel, 0, 0⟩ = none := by
    refine mentionAt?_of_not_keyword ?_
    rw [Token.isOneOf_of_kind h.sel_kind]
    decide +kernel
  have hstar : mentionAt? (sel :: star :: k :: t :: us) 0 ⟨star, 0, 0 + 1⟩ = none :=
    mentionAt?_of_not_keyword (Token.isOneOf_of_not_word (by simp [h.star_kind]) _)
  have hfrom : mentionAt? (sel :: star :: k :: t :: us) 0 ⟨k, 0, 0 + 1 + 1⟩ = some (tableMention q.first) :=
    show mentionAt? ([sel, star] ++ k :: t :: us) 0 ⟨k, 0, [sel, star].length⟩ = _ from
      mentionAt?_table h.k_kind (.inl rfl) h.t_kind hfirst h.separated.endsTable fun _ => h.isNonTableFrom
  have hrest := filterMap_mentionAt?_separated h.separated (words_further hq) [sel, star, k, t]
  rw [Select.keywordMentions, Token.placed_eq, placedFrom_word h.sel_kind,
    Token.placedFrom_of_not_paren (by simp [Token.isParen, h.star_kind]), placedFrom_word h.k_kind,
    placedFrom_word h.t_kind, List.filterMap_cons_none hsel, List.filterMap_cons_none hstar,
    List.filterMap_cons_some hfrom, List.filterMap_cons_none (mentionAt?_of_not_ignored h.t_kind hfirst _ _ _ _)]
  exact congrArg _ hrest

theorem tableFrom? (h : StarParts q sel star k t us) (hq : q.Plain) :
    Select.tableFrom? (sel :: star :: k :: t :: us) 0 = some 2 := by
  refine Token.index_find?_placed.mpr ⟨by omega, ⟨k, rfl, ?_⟩, fun i u hi hi2 hu => ?_⟩
  · have hword : k.isWord "FROM" = true := by
      rw [Token.isWord, h.k_kind]
      rfl
    simp [h.depthAt hq, hword, h.isNonTableFrom]
  · obtain rfl : i = 1 := by omega
    obtain rfl : star = u := by simpa using hu
    have hstar : star.isWord "FROM" = false := by rw [Token.isWord, h.star_kind]
    simp [hstar]

theorem forall₂_fromGroups (h : StarParts q sel star k t us) (hq : q.Plain) :
    List.Forall₂ IsTable (q.first :: q.leading) (fromGroups (sel :: star :: k :: t :: us) 0) := by
  obtain ⟨ls, rest, rfl, hlisted, hquiet, hends⟩ := h.separated.exists_leading (words_further hq) h.t_kind
  have hfirst : t.isOneOf fromListEnds = false :=
    isOneOf_of_not_ignored h.t_kind (hq.words _ (List.mem_cons_self ..)) (by decide +kernel)
  have hend : clauseEnd (sel :: star :: k :: t :: (ls ++ rest)) (2 + 1) 0 fromListEnds = 3 + (t :: ls).length :=
    show clauseEnd ([sel, star, k] ++ (t :: ls ++ rest)) [sel, star, k].length 0 fromListEnds = _ from
      clauseEnd_append (h.not_paren hq) (List.forall_mem_cons.mpr ⟨hfirst, hquiet⟩) hends
  have hspan : Token.Span.of ⟨2 + 1, 3 + (t :: ls).length⟩ (sel :: star :: k :: t :: (ls ++ rest)) = t :: ls :=
    @span_of_append [sel, star, k] (t :: ls) rest
  unfold fromGroups
  simp only [h.tableFrom? hq, h.depthAt hq, hend, hspan]
  refine forall₂_topLevel hlisted ?_
  rintro w _ ⟨u, rfl, hu⟩
  exact ⟨.plain (Token.isParen_of_kind hu) (by simp [hu]) .nil, by simp⟩

theorem listMentions (h : StarParts q sel star k t us) (hq : q.Plain) :
    Select.listMentions (sel :: star :: k :: t :: us) 0 =
      if q.leading = [] then [] else (q.first :: q.leading).map tableMention := by
  have hgroups := h.forall₂_fromGroups hq
  have hlength := hgroups.length_eq
  rw [List.length_cons] at hlength
  unfold Select.listMentions
  dsimp only
  by_cases hl : q.leading = []
  · rw [if_pos hl, if_pos (by rw [← hlength, hl]; simp)]
  · have hpos := List.length_pos_iff.mpr hl
    rw [if_neg hl, if_neg (by omega)]
    refine filterMap_read?_groups hgroups fun w hw => hq.words w (StarQuery.mem_tables_of_mem_found ?_)
    rw [StarQuery.found, List.mem_cons, List.mem_append]
    exact (List.mem_cons.mp hw).imp_right .inr

theorem mentions (h : StarParts q sel star k t us) (hq : q.Plain) :
    Select.mentions (sel :: star :: k :: t :: us) =
      (q.first :: q.joined).map tableMention ++
        if q.leading = [] then [] else (q.first :: q.leading).map tableMention := by
  rw [Select.mentions, h.select?]
  simp only [h.depthAt hq, h.keywordMentions hq, h.listMentions hq]

theorem projectionSpan (h : StarParts q sel star k t us) :
    Select.projectionSpan (sel :: star :: k :: t :: us) 0 = ⟨1, 2⟩ := by
  have hfirst : ∀ keyword, Token.wordAt (sel :: star :: k :: t :: us) 1 keyword = false := by
    intro keyword
    simp [Token.wordAt, Token.isWord, h.star_kind]
  have hquantifier : behindQuantifier (sel :: star :: k :: t :: us) 1 = 1 := by
    rw [behindQuantifier, hfirst, hfirst]
    rfl
  have htop : behindTop (sel :: star :: k :: t :: us) 1 = 1 := by
    rw [behindTop, hfirst]
    rfl
  have hstar : star.isOneOf projectionEnds = false := Token.isOneOf_of_not_word (by simp [h.star_kind]) _
  have hfrom : k.isOneOf projectionEnds = true := by
    rw [Token.isOneOf_of_kind h.k_kind]
    decide +kernel
  have hend : projectionEnd 1 0 (star :: k :: t :: us) = 2 := by
    simp [projectionEnd, h.star_kind, h.k_kind, hstar, hfrom]
  rw [Select.projectionSpan, Nat.zero_add, hquantifier, htop, Nat.min_eq_left (by simp)]
  exact congrArg _ hend

theorem markKeys (h : StarParts q sel star k t us) (hq : q.Plain) (columns : List Column) :
    Select.markKeys (sel :: star :: k :: t :: us) 0 columns = columns := by
  refine markKeys_of_no_group ?_ 0 columns
  rw [List.forall_mem_cons, List.forall_mem_cons, List.forall_mem_cons]
  refine ⟨?_, ?_, ?_, fun u hu => ?_⟩
  · rw [Token.isWord_of_kind h.sel_kind]
    decide +kernel
  · rw [Token.isWord, h.star_kind]
  · rw [Token.isWord_of_kind h.k_kind]
    decide +kernel
  · rw [← Token.isOneOf_singleton]
    rcases h.listTokens hq u hu with hk | ⟨w, hk, rfl | rfl | hw⟩
    · exact Token.isOneOf_of_not_word (by simp [hk]) _
    · rw [Token.isOneOf_of_kind hk]
      decide +kernel
    · rw [Token.isOneOf_of_kind hk]
      decide +kernel
    · exact isOneOf_of_not_ignored hk hw (by decide +kernel)

end StarParts
end Join

/-! ## Their tables -/

theorem foldl_appendNew_of_nodup {α : Type} [DecidableEq α] {xs ys : List α} (h : (xs ++ ys).Nodup) :
    ys.foldl appendNew xs = xs ++ ys := by
  induction ys generalizing xs with
  | nil => rw [List.append_nil, List.foldl_nil]
  | cons y ys ih =>
    have hy : y ∉ xs := fun hy => (List.nodup_append.mp h).2.2 y hy y (List.mem_cons_self ..) rfl
    rw [List.append_cons] at h ⊢
    rw [List.foldl_cons, appendNew, if_neg hy, ih h]

namespace Select

namespace Projection
variable (env : Environment)

theorem addTable_of_known {table : String} {columns : List Column}
    (h : knownColumns? env.registry table = some columns) (p : Projection) :
    p.addTable env table =
      { p with
        columns := p.columns ++ columns.map fun c => Column.mapped c.name
        lineage := p.lineage ++ columns.map fun c => ⟨table, c.name, c.name, false⟩ } := by
  obtain ⟨d, hd, rfl⟩ := Option.map_eq_some_iff.mp h
  rw [addTable, hd]

/-- Known tables add their columns one table after the other. -/
theorem foldl_addTable {tables : List String} (h : ∀ t ∈ tables, (knownColumns? env.registry t).isSome)
    (p : Projection) :
    tables.foldl (addTable env) p =
      { p with
        columns := p.columns ++
          tables.flatMap fun t => ((knownColumns? env.registry t).getD []).map fun c => Column.mapped c.name
        lineage := p.lineage ++
          tables.flatMap fun t => ((knownColumns? env.registry t).getD []).map fun c =>
            ⟨t, c.name, c.name, false⟩ } := by
  induction tables generalizing p with
  | nil => simp
  | cons t tables ih =>
    obtain ⟨ht, htables⟩ := List.forall_mem_cons.mp h
    obtain ⟨columns, hcolumns⟩ := Option.isSome_iff_exists.mp ht
    rw [List.foldl_cons, ih htables, addTable_of_known env hcolumns, List.flatMap_cons, List.flatMap_cons, hcolumns]
    simp only [Option.getD_some, List.append_assoc]

end Projection
end Select

theorem Registry.Coherent.knownColumns?_canonicalName {r : Registry} (h : r.Coherent) (name : String) :
    knownColumns? r (r.canonicalName name) = knownColumns? r name := by
  simp only [knownColumns?, lookup, find?, h.upper_canonicalName]

namespace Join.StarParts
variable {q : StarQuery} {sel star k t : Token} {us : List Token} {r : Registry} {ctes : CteBindings}

/-- Whatever the separators are, each table that is found is found once. -/
theorem distinct_mentions (h : StarParts q sel star k t us) (hq : q.Plain) (hr : r.Coherent)
    (hctes : ∀ t ∈ q.tables, ctes.filed? t = none) :
    ((Select.mentions (sel :: star :: k :: t :: us)).map fun m =>
      (Environment.mk r ctes).resolve m.table.text).foldl appendNew [] = q.found.map r.canonicalName := by
  have hresolve : ∀ ws : List String, (∀ w ∈ ws, w ∈ q.found) →
      (ws.map tableMention).map (fun m => (Environment.mk r ctes).resolve m.table.text) = ws.map r.canonicalName := by
    intro ws hws
    rw [List.map_map]
    refine List.map_congr_left fun w hw => ?_
    rw [Function.comp_apply, text_tableMention, Environment.resolve,
      hctes w (StarQuery.mem_tables_of_mem_found (hws w hw))]
    rfl
  have hnodup : (q.found.map r.canonicalName).Nodup := by
    have hupper : (q.found.map r.canonicalName).map upper = q.found.map upper := by
      rw [List.map_map]
      exact List.map_congr_left fun w _ => hr.upper_canonicalName w
    exact List.Nodup.of_map upper (hupper ▸ hq.nodup_found)
  rw [StarQuery.found, ← List.cons_append, List.map_append] at hnodup
  have hjoined := hresolve (q.first :: q.joined) fun w hw => List.mem_append_left _ hw
  have hkeyword : ((q.first :: q.joined).map r.canonicalName).foldl appendNew [] =
      [] ++ (q.first :: q.joined).map r.canonicalName :=
    foldl_appendNew_of_nodup (List.nodup_append.mp hnodup).1
  rw [h.mentions hq, List.map_append, hjoined, List.foldl_append, hkeyword, List.nil_append]
  by_cases hl : q.leading = []
  · rw [if_pos hl, StarQuery.found, hl, List.append_nil]
    rfl
  · have hleading := hresolve (q.first :: q.leading) fun w hw => by
      rw [StarQuery.found, List.mem_cons, List.mem_append]
      exact (List.mem_cons.mp hw).imp_right .inr
    -- the comma list begins with the first table once more
    have hfirst : r.canonicalName q.first ∈ (q.first :: q.joined).map r.canonicalName :=
      List.mem_map_of_mem (List.mem_cons_self ..)
    rw [if_neg hl, hleading, List.map_cons (l := q.leading), List.foldl_cons, appendNew, if_pos hfirst,
      foldl_appendNew_of_nodup hnodup, StarQuery.found, ← List.cons_append, List.map_append]

theorem read (h : StarParts q sel star k t us) (hq : q.Plain) (hr : r.Coherent)
    (hctes : ∀ t ∈ q.tables, ctes.filed? t = none) (hknown : ∀ t ∈ q.tables, (knownColumns? r t).isSome)
    (name : String) (kind : Definition.Kind) :
    (Select.read ⟨r, ctes⟩ (sel :: star :: k :: t :: us) name kind).definition = q.definition r name kind := by
  have hdistinct := h.distinct_mentions hq hr hctes
  have htop : ∀ m ∈ Select.mentions (sel :: star :: k :: t :: us), m.topLevel = true := by
    intro m hm
    rw [h.mentions hq] at hm
    rcases List.mem_append.mp hm with hm | hm
    · obtain ⟨w, -, rfl⟩ := List.mem_map.mp hm
      rfl
    · split at hm
      · cases hm
      · obtain ⟨w, -, rfl⟩ := List.mem_map.mp hm
        rfl
  have hreferenced := Scope.referenced_ofMentions ⟨r, ctes⟩ (Select.mentions (sel :: star :: k :: t :: us))
  have htopLevel := Scope.topLevel_ofMentions ⟨r, ctes⟩ htop
  rw [hdistinct, ← scopeOf_eq] at hreferenced htopLevel
  have hsources : (scopeOf ⟨r, ctes⟩ (sel :: star :: k :: t :: us)).sources = q.found.map r.canonicalName := by
    rw [Scope.sources, htopLevel]
    rfl
  have hprojection : Projection.read ⟨r, ctes⟩ (scopeOf ⟨r, ctes⟩ (sel :: star :: k :: t :: us))
      (sel :: star :: k :: t :: us) 0 = (q.found.map r.canonicalName).foldl (Projection.addTable ⟨r, ctes⟩) .empty := by
    have hspans : Token.topLevelSpans [star] = [⟨0, 1⟩] := by
      simp [Token.topLevelSpans, Token.spansFrom, Token.Span.nonempty, h.star_kind]
    have hstar : starOf? [star] = some none := by
      simp [starOf?, h.star_kind]
    rw [Projection.read, h.projectionSpan]
    simp only [Token.Span.of, List.drop_succ_cons, List.drop_zero, Nat.reduceSub, List.take_succ_cons, List.take_zero,
      hspans, List.foldl_cons, List.foldl_nil, Projection.addItem, hstar, Projection.addStar, Projection.starTables,
      hsources]
    rfl
  have hknown' : ∀ t ∈ q.found.map r.canonicalName, (knownColumns? r t).isSome := by
    rintro _ ht
    obtain ⟨w, hw, rfl⟩ := List.mem_map.mp ht
    rw [hr.knownColumns?_canonicalName]
    exact hknown w (StarQuery.mem_tables_of_mem_found hw)
  rw [Select.read, h.select?]
  simp only [hprojection, Projection.foldl_addTable ⟨r, ctes⟩ hknown', h.markKeys hq, hreferenced]
  simp only [Projection.empty, List.nil_append, List.flatMap_map, List.map_map, hr.knownColumns?_canonicalName]
  rfl

end Join.StarParts

/-! ## What they define -/

/-- A query for all columns of known tables, unwound in any inventory that operations can reach, gives the columns of
the tables found, one after the other, each with its record, and refers to just these tables. The first table is
followed by those behind a `JOIN` and then by those behind the commas in front of the first join; these are all tables
in the order of the text just when commas and joins are not mixed. -/
theorem StarQuery.definition_unwind (ops : List Operation) {q : StarQuery} (hq : q.Plain) {ts : List Token}
    (hts : ts.map Token.sign = q.signs) {ctes : CteBindings} (hctes : ∀ t ∈ q.tables, ctes.filed? t = none)
    (hknown : ∀ t ∈ q.tables, (knownColumns? (Operation.runAll .empty ops).registry t).isSome) (name : String)
    (kind : Definition.Kind) :
    let inv := Operation.runAll .empty ops
    ((Query.ofTokens ts).unwind name kind inv ctes).definition = q.definition inv.registry name kind ∧
      (q.found = q.tables ↔ (∀ x ∈ q.further, x.1 = .comma) ∨ ∀ x ∈ q.further, x.1 ≠ .comma) := by
  intro inv
  obtain ⟨sel, star, k, t, us, rfl, h⟩ := starParts_of_signs hts
  have hbody : Query.ofTokens (sel :: star :: k :: t :: us) = .body (sel :: star :: k :: t :: us) := by
    have hwith : sel.isWord "WITH" = false := by
      rw [Token.isWord, h.sel_kind]
      rfl
    rw [Query.ofTokens.eq_def]
    simp [hwith]
  refine ⟨?_, found_eq_tables_iff hq⟩
  rw [hbody, Query.unwind]
  exact h.read hq (Operation.coherent_runAll ops) hctes hknown name kind

theorem StarQuery.definition_unwind_crossJoin :
    let ts := Token.scan "SELECT * FROM a JOIN B CROSS JOIN c"
    let ops : List Operation := [.define ⟨"c", .table, [.mapped "z"], [], []⟩,
      .define ⟨"b", .table, [.mapped "y", .mapped "x"], [], []⟩, .define ⟨"a", .table, [.mapped "x"], [], []⟩]
    ((Query.ofTokens ts).unwind "v" .view (Operation.runAll .empty ops) .empty).definition =
      ⟨"v", .view, [.mapped "x", .mapped "y", .mapped "x", .mapped "z"], [.uses "a", .uses "b", .uses "c"],
        [⟨"a", "x", "x", false⟩, ⟨"b", "y", "y", false⟩, ⟨"b", "x", "x", false⟩, ⟨"c", "z", "z", false⟩]⟩ := by
  intro ts ops
  let q : StarQuery := ⟨"a", [(.join, "B"), (.crossJoin, "c")]⟩
  have hq : q.Plain := by decide +kernel
  have hts : ts.map Token.sign = q.signs := by decide +kernel
  have hknown : ∀ t ∈ q.tables, (knownColumns? (Operation.runAll .empty ops).registry t).isSome := by decide +kernel
  rw [(StarQuery.definition_unwind ops hq hts (fun _ _ => rfl) hknown "v" .view).1]
  decide +kernel

/-- The table behind the second comma is not found, and the one behind the first comma comes last. -/
theorem StarQuery.mixed_separators :
    let q : StarQuery := ⟨"a", [(.comma, "b"), (.join, "c"), (.comma, "d")]⟩
    let ts := Token.scan "SELECT * FROM a, b JOIN c, d"
    let ops : List Operation := [.define ⟨"a", .table, [.mapped "x"], [], []⟩,
      .define ⟨"b", .table, [.mapped "y"], [], []⟩, .define ⟨"c", .table, [.mapped "z"], [], []⟩,
      .define ⟨"d", .table, [.mapped "w"], [], []⟩]
    q.Plain ∧ ts.map Token.sign = q.signs ∧
      (∀ t ∈ q.tables, (knownColumns? (Operation.runAll .empty ops).registry t).isSome) ∧
      ((Query.ofTokens ts).unwind "v" .view (Operation.runAll .empty ops) .empty).definition =
        ⟨"v", .view, [.mapped "x", .mapped "z", .mapped "y"], [.uses "a", .uses "c", .uses "b"],
          [⟨"a", "x", "x", false⟩, ⟨"c", "z", "z", false⟩, ⟨"b", "y", "y", false⟩]⟩ := by
  decide +kernel

end SqlLineage
