import SqlLineage.Proofs.Join.Items
import SqlLineage.Proofs.Join.Mentions
import SqlLineage.Proofs.Script.Trace

/-! # The lineage of joined queries

* `Join.Follows`: a projection that keeps step with an output. Its aliases are the places behind `AS`.
* `Join.Follows.addItem`: one item keeps both in step; `Join.Follows.foldl_spans`: all items do.
* `Join.Parts.bodyUsage`: the whole body uses what its items use, and its aliases change nothing.
* `JoinQuery.unwind_plain`: unwinding a plain query gives its definition and notes what it uses, and it does
  nothing else. -/

namespace SqlLineage
open SqlLineage.Text SqlLineage.Select Join
set_option autoImplicit false

namespace Join

/-! ## Items in step -/

/-- A projection of the tokens `ts` that says what an output says. -/
structure Follows (ts : List Token) (p : Projection) (o : Output) : Prop where
  columns : p.columns = o.columns
  lineage : p.lineage = o.lineage
  observed : p.observed = o.used
  aliases : ∀ i ∈ p.aliases, (Token.before? ts i).any (·.isWord "AS") = true

section Items
variable {j : JoinQuery} {r : Registry} {scope : Scope} {ts : List Token}

theorem addItem_expr {body : List Token} {as b : Token} {a : String} (has : as.kind = .word "AS")
    (hb : b.kind = .word a) (env : Environment) (scope : Scope) (p : Projection) (last : Nat) :
    p.addItem env scope last (body ++ [as, b]) =
      Projection.addExpr env scope { p with aliases := p.aliases ++ [last] } (some a) body := by
  have hrev : (body ++ [as, b]).reverse = b :: as :: body.reverse := by simp
  have hstar : starOf? (body ++ [as, b]) = none := by
    unfold starOf?
    rw [hrev]
    simp [hb]
  have hword : as.isWord "AS" = true := by
    rw [Token.isWord, has]
    rfl
  have hsplit : splitAlias scope (body ++ [as, b]) = ⟨some a, body⟩ := by
    unfold splitAlias
    rw [hrev]
    simp [Token.identifier?_of_kind hb, hword]
  rw [Projection.addItem, hstar]
  simp only [hsplit]
  rfl

theorem addItem_star (hs : j.Shows r scope) {s : Source} (h : s ∈ j.sources) {u : List Token}
    (hu : u.map Token.sign = (Item.star s).signs) (p : Projection) (last : Nat) :
    p.addItem (.plain r) scope last u = p.addTable (.plain r) (s.spelled r) := by
  obtain ⟨q, d, x, rfl, hq, hd, hx⟩ := star_tokens hu
  have hstar : starOf? [q, d, x] = some (some s.label) := by
    have hread : QualifiedName.read? [q, d, x] 0 = some ⟨[s.label], 1⟩ := by
      have hparts : QualifiedName.furtherParts [d, x] = [] := by
        rw [QualifiedName.furtherParts, if_pos hd, Token.identifier?, hx]
      rw [QualifiedName.read?, List.drop_zero, QualifiedName.ofTokens?_cons (Token.identifier?_of_kind hq), hparts]
      rfl
    unfold starOf?
    simp [hd, hx, hread, QualifiedName.text, String.intercalate_singleton]
  rw [Projection.addItem, hstar]
  simp only [Projection.addStar, Projection.starTables, hs.label s h]
  rfl

theorem Follows.addTable {p : Projection} {o : Output} (h : Follows ts p o) (tables : List String) (s : Source) :
    Follows ts (p.addTable (.plain r) (s.spelled r)) (o.add r tables (.star s)) := by
  unfold Projection.addTable Output.add knownColumns?
  simp only [Environment.plain]
  cases (r.lookup (s.spelled r)).filter Definition.hasKnownSchema with
  | some d =>
    exact ⟨by rw [h.columns]; rfl, by rw [h.lineage]; rfl, h.observed, h.aliases⟩
  | none =>
    have hobserved : p.observed ++ [⟨s.spelled r, Column.starName⟩] = o.used ++ [⟨s.spelled r, Column.starName⟩] := by
      rw [h.observed]
    by_cases hany : (o.columns.any fun c => sameFold c.name Column.starName) = true
    · have hstar : p.addStarColumn = p := by
        rw [Projection.addStarColumn, h.columns, if_pos hany]
      rw [hstar]
      simp only [Option.map_none, if_pos hany]
      exact ⟨h.columns, by rw [h.lineage], hobserved, h.aliases⟩
    · have hstar : p.addStarColumn = { p with columns := p.columns ++ [Column.mapped Column.starName] } := by
        rw [Projection.addStarColumn, h.columns, if_neg hany]
      rw [hstar]
      simp only [Option.map_none, if_neg hany]
      exact ⟨by rw [h.columns], by rw [h.lineage], hobserved, h.aliases⟩

/-- Reading an item keeps both in step, if the token in front of its last one is the one in front of
`last`. -/
theorem Follows.addItem (hj : j.Plain) (hs : j.Shows r scope) {item : Item} (hi : item.Plain j.sources)
    {u : List Token} (hu : u.map Token.sign = item.signs) {last : Nat}
    (hlast : ∀ body as b, u = body ++ [as, b] → Token.before? ts last = some as) {p : Projection} {o : Output}
    (h : Follows ts p o) :
    Follows ts (p.addItem (.plain r) scope last u) (o.add r (j.tables r) item) := by
  cases item with
  | expr e a =>
    obtain ⟨body, as, b, rfl, hbody, has, hb⟩ := expr_tokens hu
    rw [addItem_expr has hb, addExpr_eq hj hs hi.1 hbody]
    refine ⟨by rw [h.columns]; rfl, by rw [h.lineage]; rfl, by rw [h.observed]; rfl, ?_⟩
    intro i hmem
    rcases List.mem_append.mp hmem with hmem | hmem
    · exact h.aliases i hmem
    · rw [List.mem_singleton.mp hmem, hlast body as b rfl, Option.any_some, Token.isWord, has]
      rfl
  | star s =>
    rw [addItem_star hs hi hu]
    exact h.addTable (j.tables r) s

theorem span_of_append {pre u rest : List Token} :
    Token.Span.of ⟨pre.length, pre.length + u.length⟩ (pre ++ (u ++ rest)) = u := by
  rw [Token.Span.of, List.drop_left, Nat.add_sub_cancel_left, List.take_left]

theorem before?_last {sel : Token} {pre u rest : List Token} (body : List Token) (as b : Token)
    (hu : u = body ++ [as, b]) :
    Token.before? (sel :: (pre ++ (u ++ rest))) (1 + (pre.length + u.length) - 1) = some as := by
  subst hu
  have hindex : 1 + (pre.length + (body ++ [as, b]).length) - 1 = pre.length + body.length + 1 + 1 := by
    rw [List.length_append, List.length_cons, List.length_singleton]
    omega
  rw [hindex, Token.before?, if_neg (by omega), Nat.add_sub_cancel, List.getElem?_cons_succ,
    List.getElem?_append_right (by omega), Nat.add_sub_cancel_left, List.append_assoc,
    List.getElem?_append_right (Nat.le_refl _), Nat.sub_self]
  rfl

theorem nonempty_of_item {item : Item} {u : List Token} (hu : u.map Token.sign = item.signs) (i : Nat) :
    Token.Span.nonempty i (i + u.length) = [⟨i, i + u.length⟩] := by
  obtain ⟨t, rest, w, rfl, -⟩ := Item.head_tokens hu
  rw [Token.Span.nonempty, if_pos (by rw [List.length_cons]; omega)]

/-- Reading all items keeps both in step. The items are what stands between the commas behind `pre`; the
list is left by the one item behind which nothing follows. -/
theorem Follows.foldl_spans (hj : j.Plain) (hs : j.Shows r scope) {items : List Item} {its : List Token}
    (h : ListedBy (fun item u => u.map Token.sign = item.signs) items its)
    (hi : ∀ item ∈ items, item.Plain j.sources) (sel : Token) (pre tail : List Token) {p : Projection}
    {o : Output} (hp : Follows (sel :: (pre ++ (its ++ tail))) p o) :
    Follows (sel :: (pre ++ (its ++ tail)))
      ((Token.spansFrom pre.length pre.length 0 its).foldl
        (fun p s => p.addItem (.plain r) scope (1 + s.stop - 1) (s.of (pre ++ its))) p)
      (items.foldl (Output.add r (j.tables r)) o) := by
  -- the spans count from the start of all items, so `pre` grows by an item and its comma
  induction h generalizing pre p o with
  | nil =>
    rw [Token.spansFrom, Token.Span.nonempty, if_neg (Nat.lt_irrefl _)]
    exact hp
  | @one x u hu =>
    have hspans : Token.spansFrom pre.length pre.length 0 u = [⟨pre.length, pre.length + u.length⟩] := by
      have hnested := Token.spansFrom_nested (Item.nested hu) pre.length pre.length []
      rw [List.append_nil] at hnested
      rw [hnested, Token.spansFrom, nonempty_of_item hu]
    have hof : Token.Span.of ⟨pre.length, pre.length + u.length⟩ (pre ++ u) = u := by
      have hspan := @span_of_append pre u []
      rwa [List.append_nil] at hspan
    rw [hspans]
    simp only [List.foldl_cons, List.foldl_nil, hof]
    exact hp.addItem hj hs (hi x (List.mem_cons_self ..)) hu fun body as b => before?_last body as b
  | @more x y ys u us c hu hc hus ih =>
    have hcomma := Token.kind_of_sign hc
    have hspans : Token.spansFrom pre.length pre.length 0 (u ++ c :: us) =
        ⟨pre.length, pre.length + u.length⟩ ::
          Token.spansFrom (pre.length + u.length + 1) (pre.length + u.length + 1) 0 us := by
      rw [Token.spansFrom_nested (Item.nested hu), Token.spansFrom, if_pos ⟨hcomma, rfl⟩, nonempty_of_item hu]
      rfl
    have hstep : Follows (sel :: (pre ++ (u ++ c :: us ++ tail)))
        (p.addItem (.plain r) scope (1 + (pre.length + u.length) - 1) u) (o.add r (j.tables r) x) := by
      refine hp.addItem hj hs (hi x (List.mem_cons_self ..)) hu ?_
      rw [List.append_assoc u]
      exact fun body as b => before?_last body as b
    have hpre : (pre ++ (u ++ [c])).length = pre.length + u.length + 1 := by
      simp only [List.length_append, List.length_singleton]
      omega
    have htail : pre ++ (u ++ c :: us ++ tail) = pre ++ (u ++ [c]) ++ (us ++ tail) := by simp
    have hits : pre ++ (u ++ c :: us) = pre ++ (u ++ [c]) ++ us := by simp
    have hof := @span_of_append pre u (c :: us)
    rw [htail] at hstep ⊢
    have hrec := ih (fun z hz => hi z (List.mem_cons_of_mem _ hz)) (pre ++ (u ++ [c])) hstep
    rw [hpre, ← hits] at hrec
    rw [hspans, List.foldl_cons, hof]
    exact hrec

end Items

/-! ## All of a query -/

namespace Parts
variable {j : JoinQuery} {r : Registry} {scope : Scope}
variable {sel : Token} {its : List Token} {k t as b : Token} {us : List Token}

theorem follows_read (h : Parts j sel its k t as b us) (hj : j.Plain) (hs : j.Shows r scope) :
    Follows (sel :: its ++ k :: t :: as :: b :: us)
      (Projection.read (.plain r) scope (sel :: its ++ k :: t :: as :: b :: us) 0) (j.output r) := by
  have hits : Token.Span.of ⟨1, 1 + its.length⟩ (sel :: its ++ k :: t :: as :: b :: us) = its := by
    have hspan := @span_of_append [sel] its (k :: t :: as :: b :: us)
    simpa using hspan
  have hstart : Follows (sel :: ([] ++ (its ++ k :: t :: as :: b :: us))) Projection.empty ⟨[], [], []⟩ :=
    ⟨rfl, rfl, rfl, nofun⟩
  have hfold := hstart.foldl_spans hj hs h.items hj.items sel [] (k :: t :: as :: b :: us)
  rw [Projection.read, h.projectionSpan hj]
  simp only [hits]
  exact hfold

theorem collectFrom_source (hs : j.Shows r scope) {s : Source} (hmem : s ∈ j.sources) {k t as b : Token}
    {keyword : String} (hk : k.kind = .word keyword) (hkeyword : Keyword.isIgnored keyword = true)
    (ht : t.kind = .word s.table) (has : as.kind = .word "AS") (hb : b.kind = .word s.label) (i : Nat)
    {previous : Option Token} (hp : previous.any (·.kind == .dot) = false) {rest : List Token}
    (hrest : ColumnRef.Closed rest) :
    ColumnRef.collectFrom scope i previous (k :: t :: as :: b :: rest) =
      ColumnRef.collectFrom scope (i + 1 + 1 + 1 + 1) (some b) rest := by
  have htable : scope.isIgnored s.table = true := by
    rw [Scope.isIgnored, hs.table s hmem, Bool.or_true]
  rw [ColumnRef.collectFrom_ignored scope _ hk (scope.isIgnored_of_keyword hkeyword) hp
      (closed_of_kind ht _).furtherParts,
    ColumnRef.collectFrom_ignored scope _ ht htable (by simp [hk]) (closed_of_kind has _).furtherParts,
    ColumnRef.collectFrom_ignored scope _ has (scope.isIgnored_of_keyword (by decide +kernel)) (by simp [ht])
      (closed_of_kind hb _).furtherParts,
    ColumnRef.collectFrom_behindAs scope _ has hb hrest.furtherParts]

theorem closed_of_chained {ss : List Source} {vs : List Token} (h : Chained ss vs) : ColumnRef.Closed vs := by
  cases h with
  | nil => exact ColumnRef.closed_nil
  | cons hk _ _ _ _ => exact closed_of_kind hk _

theorem collectFrom_chained (hs : j.Shows r scope) {ss : List Source} {vs : List Token} (hv : Chained ss vs)
    (hss : ∀ s ∈ ss, s ∈ j.sources) (i : Nat) {previous : Option Token}
    (hp : previous.any (·.kind == .dot) = false) :
    ColumnRef.collectFrom scope i previous vs = [] := by
  induction hv generalizing i previous with
  | nil => rw [ColumnRef.collectFrom]
  | @cons s ss k t as b us hk ht has hb hus ih =>
    obtain ⟨hmem, hrest⟩ := List.forall_mem_cons.mp hss
    rw [collectFrom_source hs hmem hk (by decide +kernel) ht has hb i hp (closed_of_chained hus)]
    exact ih hrest _ (by simp [hb])

/-- What the body uses outside of its output aliases is what its items use without their stars. -/
theorem bodyUsage (h : Parts j sel its k t as b us) (hj : j.Plain) (hs : j.Shows r scope) {aliases : List Nat}
    (ha : ∀ i ∈ aliases,
      (Token.before? (sel :: its ++ k :: t :: as :: b :: us) i).any (·.isWord "AS") = true) :
    Select.bodyUsage (.plain r) scope (sel :: its ++ k :: t :: as :: b :: us) aliases =
      j.items.flatMap (Item.used r (j.tables r)) := by
  have hall : (ColumnRef.collect scope (sel :: its ++ k :: t :: as :: b :: us)).filter
      (fun ref => !aliases.contains ref.start) =
      ColumnRef.collect scope (sel :: its ++ k :: t :: as :: b :: us) := by
    refine List.filter_eq_self.mpr fun ref href => ?_
    -- no reference stands behind an `AS`, where all the aliases are
    have hbefore := ColumnRef.before_start_of_mem href
    rw [Bool.not_eq_true', List.contains_eq_mem, decide_eq_false_iff_not]
    intro hmem
    rw [ha _ hmem] at hbefore
    cases hbefore
  obtain ⟨u, rest, w, hits, hw⟩ := h.head_items
  have hselect : scope.isIgnored "SELECT" = true := scope.isIgnored_of_keyword (by decide +kernel)
  have hfurther : QualifiedName.furtherParts (its ++ k :: t :: as :: b :: us) = [] := by
    rw [hits]
    exact (closed_of_kind hw _).furtherParts
  have hneutral : ColumnRef.Neutral (some sel) :=
    neutral_of_sign h.sel_sign (by simp) (by rintro w ⟨⟩; decide +kernel) (by decide)
  obtain ⟨last, hlast, hobserve⟩ := observe_collectFrom_items hs h.items hj.items (0 + 1) hneutral
    (closed_of_kind h.k_kind (t :: as :: b :: us))
  have hsources : ColumnRef.collectFrom scope (0 + 1 + its.length) last (k :: t :: as :: b :: us) = [] := by
    rw [collectFrom_source hs (List.mem_cons_self ..) h.k_kind (by decide +kernel) h.t_kind h.as_kind h.b_kind _ hlast
      (closed_of_chained h.chained)]
    exact collectFrom_chained hs h.chained (fun s hm => List.mem_cons_of_mem _ hm) _ (by simp [h.b_kind])
  rw [Select.bodyUsage, hall, ColumnRef.collect, List.cons_append,
    ColumnRef.collectFrom_ignored scope 0 h.sel_kind hselect rfl hfurther, hobserve, hsources, List.flatMap_nil,
    List.append_nil]

theorem read (h : Parts j sel its k t as b us) (hj : j.Plain) (hr : r.Coherent) (name : String)
    (kind : Definition.Kind) :
    Select.read (.plain r) (sel :: its ++ k :: t :: as :: b :: us) name kind =
      ⟨j.definition r name kind, j.used r, []⟩ := by
  have hs := JoinQuery.shows_ofMentions hj hr
  rw [← h.mentions hj, ← scopeOf_eq] at hs
  have hfollows := h.follows_read hj hs
  have husage := h.bodyUsage hj hs hfollows.aliases
  rw [Select.read, h.select?]
  simp only [h.markKeys hj, hs.referenced, husage, hfollows.columns, hfollows.lineage, hfollows.observed]
  rfl

end Parts
end Join

/-- A plain query over joined tables, unwound in any inventory that operations can reach, gives the
definition that it means, column by column and record by record. It notes what it uses, and leaves all else
as it is. -/
theorem JoinQuery.unwind_plain (ops : List Operation) {j : JoinQuery} (hj : j.Plain) {ts : List Token}
    (hts : ts.map Token.sign = j.signs) (name : String) (kind : Definition.Kind) :
    let inv := Operation.runAll .empty ops
    (Query.ofTokens ts).unwind name kind inv .empty =
      ⟨{ inv with usage := inv.usage.recordAll (j.used inv.registry) }, .empty,
        j.definition inv.registry name kind⟩ := by
  intro inv
  have hr : inv.registry.Coherent := Operation.coherent_runAll ops
  obtain ⟨sel, its, k, t, as, b, us, rfl, h⟩ := parts_of_signs hts
  have hbody : Query.ofTokens (sel :: its ++ k :: t :: as :: b :: us) =
      .body (sel :: its ++ k :: t :: as :: b :: us) := by
    have hwith : sel.isWord "WITH" = false := by
      rw [Token.isWord, h.sel_kind]
      rfl
    rw [List.cons_append, Query.ofTokens.eq_def]
    simp [hwith]
  have hread := h.read hj hr name kind
  rw [Environment.plain] at hread
  rw [hbody, Query.unwind, hread]
  simp [Inventory.absorb]

theorem JoinQuery.unwind_plain_orders :
    let orders : Source := ⟨"orders", "o"⟩
    let customers : Source := ⟨"customers", "c"⟩
    let j : JoinQuery := ⟨.expr (.column orders "id") "number",
      [.expr (.call "SUM" [(orders, "price"), (customers, "rate"), (orders, "price")]) "total", .star customers,
        .star orders, .expr (.bare "note") "note"], orders, [customers]⟩
    let ts := Token.scan "SELECT o.id AS number, SUM(o.price, c.rate, o.price) AS total, c.*, o.*, note AS note
      FROM orders AS o JOIN customers AS c"
    let ops : List Operation := [.define ⟨"Customers", .table, [.mapped "name"], [], []⟩]
    j.Plain ∧ ts.map Token.sign = j.signs ∧
    ((Query.ofTokens ts).unwind "Sales" .view (Operation.runAll .empty ops) .empty).definition =
      ⟨"Sales", .view, [.mapped "number", .calculated "total", .mapped "name", .mapped "*", .mapped "note"],
        [.uses "orders", .uses "Customers"],
        [⟨"orders", "id", "number", false⟩, ⟨"orders", "price", "total", true⟩,
          ⟨"Customers", "rate", "total", true⟩, ⟨"Customers", "name", "name", false⟩,
          ⟨"orders", "*", "*", false⟩]⟩ := by
  intro orders customers j ts ops
  have hj : j.Plain := by decide +kernel
  have hts : ts.map Token.sign = j.signs := by decide +kernel
  refine ⟨hj, hts, ?_⟩
  rw [JoinQuery.unwind_plain ops hj hts "Sales" .view]
  decide +kernel

end SqlLineage
