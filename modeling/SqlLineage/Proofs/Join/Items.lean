import SqlLineage.Proofs.Join.Scope
import SqlLineage.Proofs.Join.Written
import SqlLineage.Proofs.Select.Collect

/-! # Reading the items of joined queries

* `Join.Expr.refs`: the column references of an expression, and `JoinQuery.Shows.records` and
  `JoinQuery.Shows.used`: what they lead to.
* `Join.collectFrom_expr`, `Join.observe_collectFrom_items`: these are the references that are collected, from the
  expression alone as well as from the whole query.
* `Join.addExpr_eq`: what a projection gains from an expression under an alias. -/

namespace SqlLineage
open SqlLineage.Text SqlLineage.Select Join
set_option autoImplicit false

/-- A column reference without its place. -/
def Select.ColumnRef.unplaced (r : ColumnRef) : ColumnRef := ⟨0, 0, r.qualifier, r.column⟩

namespace Join

namespace Expr

def isCall : Expr → Bool
  | .column _ _ | .bare _ => false
  | .call _ _ => true

/-- The column references of an expression, without places. -/
def refs : Expr → List ColumnRef
  | .column s c => [⟨0, 0, some s.label, c⟩]
  | .bare c => [⟨0, 0, none, c⟩]
  | .call _ args => args.map fun x => ⟨0, 0, some x.1.label, x.2⟩

end Expr
end Join

/-! ## What references lead to -/

namespace JoinQuery.Shows
variable {j : JoinQuery} {r : Registry} {scope : Scope}

theorem sources_eq (hs : j.Shows r scope) : scope.sources = j.tables r := by
  unfold Scope.sources
  split
  · exact hs.referenced
  · exact hs.topLevel

theorem sourceOf_label (hs : j.Shows r scope) {s : Source} (h : s ∈ j.sources) (calculated : Bool) (c : String) :
    sourceOf? scope calculated ⟨0, 0, some s.label, c⟩ = some ⟨s.spelled r, c⟩ := by
  simp only [sourceOf?, hs.label s h, Option.map_some]

theorem sourceOf_bare (hs : j.Shows r scope) (c : String) :
    sourceOf? scope false ⟨0, 0, none, c⟩ =
      (if (j.tables r).length == 1 then (j.tables r).head? else none).map fun t => ⟨t, c⟩ := by
  simp only [sourceOf?, bareSource?, hs.sources_eq, Bool.false_or]

theorem filterMap_arguments (hs : j.Shows r scope) {args : List (Source × String)}
    (h : ∀ x ∈ args, x.1 ∈ j.sources) :
    (args.map fun x => (⟨0, 0, some x.1.label, x.2⟩ : ColumnRef)).filterMap (sourceOf? scope true) =
      named r args := by
  induction args with
  | nil => rfl
  | cons x args ih =>
    rw [List.forall_mem_cons] at h
    rw [List.map_cons, List.filterMap_cons, hs.sourceOf_label h.1, ih h.2]
    rfl

theorem records (hs : j.Shows r scope) {e : Expr} (he : e.Plain j.sources) (a : String) :
    (distinct (e.refs.filterMap (sourceOf? scope e.isCall))).map
      (fun s => (⟨s.table, s.column, a, e.isCall⟩ : LineageRecord)) = e.records r (j.tables r) a := by
  cases e with
  | column s c =>
    rw [Expr.refs, List.filterMap_cons, hs.sourceOf_label he.1]
    rfl
  | bare c =>
    rw [Expr.refs, List.filterMap_cons, Expr.isCall, hs.sourceOf_bare, List.filterMap_nil]
    unfold Expr.records
    generalize j.tables r = ts
    match ts with
    | [] => rfl
    | [t] => rfl
    | t :: u :: us => rfl
  | call f args =>
    have hcall := hs.filterMap_arguments (fun x hx => (he.2 x hx).1)
    rw [Expr.refs, Expr.isCall, hcall]
    rfl

theorem observe_label (hs : j.Shows r scope) {s : Source} (h : s ∈ j.sources) (c : String) :
    observe (.plain r) scope ⟨0, 0, some s.label, c⟩ = [⟨s.spelled r, c⟩] := by
  simp only [observe, usedTables, hs.label s h]
  rfl

theorem flatMap_arguments (hs : j.Shows r scope) {args : List (Source × String)}
    (h : ∀ x ∈ args, x.1 ∈ j.sources) :
    (args.map fun x => (⟨0, 0, some x.1.label, x.2⟩ : ColumnRef)).flatMap (observe (.plain r) scope) =
      named r args := by
  induction args with
  | nil => rfl
  | cons x args ih =>
    rw [List.forall_mem_cons] at h
    rw [List.map_cons, List.flatMap_cons, hs.observe_label h.1, ih h.2]
    rfl

theorem used (hs : j.Shows r scope) {e : Expr} (he : e.Plain j.sources) :
    e.refs.flatMap (observe (.plain r) scope) = e.used r (j.tables r) := by
  cases e with
  | column s c =>
    rw [Expr.refs, List.flatMap_singleton, hs.observe_label he.1]
    rfl
  | bare c =>
    rw [Expr.refs, List.flatMap_singleton, observe, usedTables, hs.referenced]
    exact List.map_eq_flatMap.symm
  | call f args =>
    exact hs.flatMap_arguments fun x hx => (he.2 x hx).1

end JoinQuery.Shows

/-! ## Collecting references -/

namespace Join

theorem PlainWord.not_ignored {w : String} (h : PlainWord w) : Keyword.isIgnored w = false := h.1

theorem neutral_of_sign {t : Token} {k : Token.Kind} {x : String} (h : t.sign = (k, x)) (hdot : k ≠ .dot)
    (hword : ∀ w, k = .word w → foldCase w ≠ "AS") (hx : x ≠ "::") : ColumnRef.Neutral (some t) := by
  have hk := Token.kind_of_sign h
  have hl := Token.lexeme_of_sign h
  refine ⟨by simp [hk, hdot], ?_⟩
  simp only [Option.any_some, Bool.or_eq_false_iff, hl, beq_eq_false_iff_ne, ne_eq]
  refine ⟨?_, hx⟩
  unfold Token.isWord
  split
  · next w hw => simpa using hword w (hk ▸ hw)
  · rfl

theorem closed_of_kind {t : Token} {w : String} (ht : t.kind = .word w) (ts : List Token) :
    ColumnRef.Closed (t :: ts) :=
  ColumnRef.closed_cons (by simp [ht]) (by simp [ht]) ts

section Collect
variable {j : JoinQuery} {r : Registry} {scope : Scope}

theorem collectFrom_arguments (scope : Scope) {args : List (Source × String)} {inner : List Token}
    (h : ListedBy (fun x u => u.map Token.sign = columnSigns x) args inner) (i : Nat) {previous : Option Token}
    (hp : ColumnRef.Neutral previous) {close : Token} (hclose : close.kind = .rightParen) (rest : List Token) :
    ∃ refs, ColumnRef.collectFrom scope i previous (inner ++ close :: rest) =
        refs ++ ColumnRef.collectFrom scope (i + inner.length + 1) (some close) rest ∧
      refs.map ColumnRef.unplaced = args.map fun x => ⟨0, 0, some x.1.label, x.2⟩ := by
  have hskip : close.identifier? = none := by
    rw [Token.identifier?, hclose]
  have hclosed : ColumnRef.Closed (close :: rest) :=
    ColumnRef.closed_cons (by simp [hclose]) (by simp [hclose]) rest
  induction h generalizing i previous with
  | nil => exact ⟨[], by simp [ColumnRef.collectFrom_skip scope _ hskip], rfl⟩
  | @one x u hu =>
    obtain ⟨q, d, c, rfl, hq, hd, hc⟩ := columnSigns_tokens hu
    refine ⟨[⟨i, i + 3, some x.1.label, x.2⟩], ?_, rfl⟩
    rw [List.cons_append, List.cons_append, List.cons_append, List.nil_append,
      ColumnRef.collectFrom_pair scope i (Token.identifier?_of_kind hq) hd (Token.identifier?_of_kind hc) hp.1
        hclosed.furtherParts, ColumnRef.isExcluded_of_neutral hp hclosed,
      ColumnRef.collectFrom_skip scope _ hskip]
    rfl
  | @more x y ys u us c' hu hc' hus ih =>
    obtain ⟨q, d, c, rfl, hq, hd, hc⟩ := columnSigns_tokens hu
    have hcomma := Token.kind_of_sign hc'
    have hclosed' : ColumnRef.Closed (c' :: (us ++ close :: rest)) :=
      ColumnRef.closed_cons (by simp [hcomma]) (by simp [hcomma]) (us ++ close :: rest)
    obtain ⟨refs, hrefs, hmap⟩ := ih (i + 3 + 1)
      (neutral_of_sign hc' (by simp) (by simp) (by decide))
    refine ⟨⟨i, i + 3, some x.1.label, x.2⟩ :: refs, ?_, by rw [List.map_cons, hmap]; rfl⟩
    have hlen : i + 3 + 1 + us.length + 1 = i + ([q, d, c] ++ c' :: us).length + 1 := by
      simp only [List.length_append, List.length_cons, List.length_nil]
      omega
    rw [← hlen, List.append_assoc, List.cons_append, List.cons_append, List.cons_append, List.nil_append,
      List.cons_append,
      ColumnRef.collectFrom_pair scope i (Token.identifier?_of_kind hq) hd (Token.identifier?_of_kind hc) hp.1
        hclosed'.furtherParts, ColumnRef.isExcluded_of_neutral hp hclosed',
      ColumnRef.collectFrom_skip scope _ (by rw [Token.identifier?, hcomma]), hrefs]
    rfl

/-- Collecting from an expression gives its references, and an expression that is no call is one
reference. -/
theorem collectFrom_expr (hs : j.Shows r scope) {e : Expr} (he : e.Plain j.sources) {u : List Token}
    (hu : u.map Token.sign = e.signs) (i : Nat) {previous : Option Token} (hp : ColumnRef.Neutral previous)
    {rest : List Token} (hrest : ColumnRef.Closed rest) :
    ∃ refs last, ColumnRef.collectFrom scope i previous (u ++ rest) =
        refs ++ ColumnRef.collectFrom scope (i + u.length) (some last) rest ∧
      last.kind ≠ .dot ∧ refs.map ColumnRef.unplaced = e.refs ∧
      (e.isCall = false → ∃ q c, refs = [⟨i, i + u.length, q, c⟩]) := by
  cases e with
  | column s c =>
    obtain ⟨q, d, b, rfl, hq, hd, hb⟩ := columnSigns_tokens hu
    refine ⟨[⟨i, i + 3, some s.label, c⟩], b, ?_, by simp [hb], rfl, fun _ => ⟨_, _, rfl⟩⟩
    rw [List.cons_append, List.cons_append, List.cons_append, List.nil_append,
      ColumnRef.collectFrom_pair scope i (Token.identifier?_of_kind hq) hd (Token.identifier?_of_kind hb) hp.1
        hrest.furtherParts, ColumnRef.isExcluded_of_neutral hp hrest]
    rfl
  | bare c =>
    obtain ⟨t, rfl, ht⟩ := bare_tokens hu
    refine ⟨[⟨i, i + 1, none, c⟩], t, ?_, by simp [ht], rfl, fun _ => ⟨_, _, rfl⟩⟩
    have hname : ColumnRef.ofName? scope i t ⟨[c], i + 1⟩ = some ⟨i, i + 1, none, c⟩ := by
      simp [ColumnRef.ofName?, Token.isQuoted, ht, Scope.isIgnored, he.1.not_ignored, hs.other c he.2]
    rw [List.cons_append, List.nil_append,
      ColumnRef.collectFrom_single scope i (Token.identifier?_of_kind ht) hp.1 hrest.furtherParts,
      ColumnRef.isExcluded_of_neutral hp hrest, hname]
    rfl
  | call f args =>
    obtain ⟨g, l, close, inner, rfl, hg, hl, hclose, hargs⟩ := call_tokens hu
    have hopen := Token.kind_of_sign hl
    obtain ⟨refs, hrefs, hmap⟩ := collectFrom_arguments scope hargs (i + 1 + 1)
      (neutral_of_sign hl (by simp) (by simp) (by decide)) hclose rest
    refine ⟨refs, close, ?_, by simp [hclose], hmap, by rintro ⟨⟩⟩
    have hfurther : QualifiedName.furtherParts (l :: (inner ++ close :: rest)) = [] :=
      QualifiedName.furtherParts_cons (by simp [hopen]) _
    have hex : ColumnRef.isExcluded previous (l :: (inner ++ close :: rest)).head? = true := by
      simp [ColumnRef.isExcluded, hopen]
    have hlen : i + 1 + 1 + inner.length + 1 = i + (g :: l :: (inner ++ [close])).length := by
      simp only [List.length_append, List.length_cons, List.length_nil]
      omega
    rw [← hlen, ← hrefs, List.cons_append, List.cons_append, List.append_assoc, List.cons_append, List.nil_append,
      ColumnRef.collectFrom_single scope i (Token.identifier?_of_kind hg) hp.1 hfurther, if_pos hex,
      List.nil_append, ColumnRef.collectFrom_skip scope _ (by rw [Token.identifier?, hopen])]

theorem flatMap_observe_of_unplaced {refs refs' : List ColumnRef} (h : refs.map ColumnRef.unplaced = refs')
    (env : Environment) : refs.flatMap (observe env scope) = refs'.flatMap (observe env scope) := by
  rw [← h, List.flatMap_map]
  rfl

theorem filterMap_sourceOf_of_unplaced {refs refs' : List ColumnRef} (h : refs.map ColumnRef.unplaced = refs')
    (calculated : Bool) :
    refs.filterMap (sourceOf? scope calculated) = refs'.filterMap (sourceOf? scope calculated) := by
  rw [← h, List.filterMap_map]
  rfl

theorem observe_collectFrom_item (hs : j.Shows r scope) {item : Item} (hi : item.Plain j.sources)
    {u : List Token} (hu : u.map Token.sign = item.signs) (i : Nat) {previous : Option Token}
    (hp : ColumnRef.Neutral previous) {rest : List Token} (hrest : ColumnRef.Closed rest) :
    ∃ last : Token, last.kind ≠ .dot ∧
      (ColumnRef.collectFrom scope i previous (u ++ rest)).flatMap (observe (.plain r) scope) =
        item.used r (j.tables r) ++
          (ColumnRef.collectFrom scope (i + u.length) (some last) rest).flatMap (observe (.plain r) scope) := by
  cases item with
  | expr e a =>
    obtain ⟨body, as, b, rfl, hbody, has, hb⟩ := expr_tokens hu
    obtain ⟨refs, last, hrefs, hlast, hmap, -⟩ :=
      collectFrom_expr hs hi.1 hbody i hp (closed_of_kind has (b :: rest))
    have hignored : scope.isIgnored "AS" = true := scope.isIgnored_of_keyword (by decide +kernel)
    have hlen : i + body.length + 1 + 1 = i + (body ++ [as, b]).length := by
      simp only [List.length_append, List.length_cons, List.length_nil]
      omega
    refine ⟨b, by simp [hb], ?_⟩
    rw [← hlen, List.append_assoc, List.cons_append, List.cons_append, List.nil_append, hrefs, List.flatMap_append,
      flatMap_observe_of_unplaced hmap, hs.used hi.1,
      ColumnRef.collectFrom_ignored scope _ has hignored (by simp [hlast]) (closed_of_kind hb rest).furtherParts,
      ColumnRef.collectFrom_behindAs scope _ has hb hrest.furtherParts]
    rfl
  | star s =>
    obtain ⟨q, d, x, rfl, hq, hd, hx⟩ := star_tokens hu
    have hfurther : QualifiedName.furtherParts (d :: x :: rest) = [] := by
      rw [QualifiedName.furtherParts, if_pos hd, Token.identifier?, hx]
    have hex : ColumnRef.isExcluded previous (d :: x :: rest).head? = true := by
      simp [ColumnRef.isExcluded, hd]
    refine ⟨x, by simp [hx], ?_⟩
    rw [List.cons_append, List.cons_append, List.cons_append, List.nil_append,
      ColumnRef.collectFrom_single scope i (Token.identifier?_of_kind hq) hp.1 hfurther, if_pos hex,
      List.nil_append, ColumnRef.collectFrom_skip scope _ (by rw [Token.identifier?, hd]),
      ColumnRef.collectFrom_skip scope _ (by rw [Token.identifier?, hx])]
    rfl

theorem observe_collectFrom_items (hs : j.Shows r scope) {items : List Item} {its : List Token}
    (h : ListedBy (fun item u => u.map Token.sign = item.signs) items its)
    (hi : ∀ item ∈ items, item.Plain j.sources) (i : Nat) {previous : Option Token}
    (hp : ColumnRef.Neutral previous) {rest : List Token} (hrest : ColumnRef.Closed rest) :
    ∃ last : Option Token, last.any (·.kind == .dot) = false ∧
      (ColumnRef.collectFrom scope i previous (its ++ rest)).flatMap (observe (.plain r) scope) =
        items.flatMap (Item.used r (j.tables r)) ++
          (ColumnRef.collectFrom scope (i + its.length) last rest).flatMap (observe (.plain r) scope) := by
  induction h generalizing i previous with
  | nil => exact ⟨previous, hp.1, rfl⟩
  | @one x u hu =>
    obtain ⟨last, hlast, hobs⟩ := observe_collectFrom_item hs (hi x (List.mem_cons_self ..)) hu i hp hrest
    exact ⟨some last, by simp [hlast], by rw [hobs, List.flatMap_singleton]⟩
  | @more x y ys u us c hu hc hus ih =>
    have hcomma := Token.kind_of_sign hc
    have hclosed : ColumnRef.Closed (c :: (us ++ rest)) :=
      ColumnRef.closed_cons (by simp [hcomma]) (by simp [hcomma]) (us ++ rest)
    obtain ⟨_, -, hobs⟩ := observe_collectFrom_item hs (hi x (List.mem_cons_self ..)) hu i hp hclosed
    obtain ⟨last, hlast, hrec⟩ := ih (fun z hz => hi z (List.mem_cons_of_mem _ hz)) (i + u.length + 1)
      (neutral_of_sign hc (by simp) (by simp) (by decide))
    have hlen : i + u.length + 1 + us.length = i + (u ++ c :: us).length := by
      rw [List.length_append, List.length_cons]
      omega
    refine ⟨last, hlast, ?_⟩
    rw [← hlen, List.append_assoc, List.cons_append, hobs,
      ColumnRef.collectFrom_skip scope _ (by rw [Token.identifier?, hcomma]), hrec, ← List.append_assoc,
      ← List.flatMap_cons]

end Collect

/-! ## Reading one item -/

section Item
variable {j : JoinQuery} {r : Registry} {scope : Scope}

theorem not_calculation_of_plain {t : Token} {w : String} (ht : t.kind = .word w) (hw : PlainWord w) :
    t.isOneOf calculationWords = false := by
  rw [Token.isOneOf_of_kind ht]
  exact hw.not_contains (by decide +kernel)

/-- An expression over plain words is a calculation just when it is a call. -/
theorem isCalculation_expr (hj : j.Plain) {e : Expr} (he : e.Plain j.sources) {u : List Token}
    (hu : u.map Token.sign = e.signs) : isCalculation u = e.isCall := by
  cases e with
  | column s c =>
    obtain ⟨q, d, b, rfl, hq, hd, hb⟩ := columnSigns_tokens hu
    have hqw := not_calculation_of_plain hq (hj.words s he.1).2
    have hbw := not_calculation_of_plain hb he.2
    have hdw : d.isOneOf calculationWords = false := by rw [Token.isOneOf, hd]
    simp [isCalculation, Expr.isCall, hq, hd, hb, hqw, hdw, hbw]
  | bare c =>
    obtain ⟨t, rfl, ht⟩ := bare_tokens hu
    have htw := not_calculation_of_plain ht he.1
    simp [isCalculation, Expr.isCall, ht, htw]
  | call f args =>
    obtain ⟨g, l, close, inner, rfl, -, hl, -, -⟩ := call_tokens hu
    have hopen := Token.kind_of_sign hl
    simp [isCalculation, Expr.isCall, hopen]

theorem countingRefs_expr (hj : j.Plain) (hs : j.Shows r scope) {e : Expr} (he : e.Plain j.sources)
    {u : List Token} (hu : u.map Token.sign = e.signs) :
    (countingRefs scope u).map ColumnRef.unplaced = e.refs := by
  have hp : ColumnRef.Neutral none := ⟨rfl, rfl⟩
  obtain ⟨refs, last, hrefs, -, hmap, hone⟩ := collectFrom_expr hs he hu 0 hp ColumnRef.closed_nil
  have hcollect : ColumnRef.collect scope u = refs := by
    rw [List.append_nil, ColumnRef.collectFrom.eq_def scope (0 + u.length), List.append_nil] at hrefs
    exact hrefs
  unfold countingRefs
  dsimp only
  rw [isCalculation_expr hj he hu, hcollect]
  cases hcall : e.isCall with
  | true => exact hmap
  | false =>
    obtain ⟨q, c, rfl⟩ := hone hcall
    simpa using hmap

theorem addExpr_eq (hj : j.Plain) (hs : j.Shows r scope) {e : Expr} (he : e.Plain j.sources) {u : List Token}
    (hu : u.map Token.sign = e.signs) (p : Projection) (a : String) :
    p.addExpr (.plain r) scope (some a) u =
      { p with
        columns := p.columns ++ [e.becomes a]
        lineage := p.lineage ++ e.records r (j.tables r) a
        observed := p.observed ++ e.used r (j.tables r) } := by
  have hrefs := countingRefs_expr hj hs he hu
  have hcalc := isCalculation_expr hj he hu
  have hcolumn : (if e.isCall = true then Column.calculated a else Column.mapped a) = e.becomes a := by
    cases e <;> rfl
  rw [Projection.addExpr, hcalc, flatMap_observe_of_unplaced hrefs, hs.used he,
    filterMap_sourceOf_of_unplaced hrefs, ← hs.records he a, ← hcolumn]
  rfl

end Item
end Join
end SqlLineage
