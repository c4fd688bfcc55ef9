import SqlLineage.Proofs.Join.Grammar
import SqlLineage.Proofs.Select.Nesting

/-! # The tokens of joined queries

* `Join.ListedBy`, `Join.Chained`: what the tokens of a list with commas, and of joined tables, look like.
* `Join.Item.nested`: an item keeps its commas in parentheses.
* `Join.Item.quiet`: no token of an item is a word that a reader of clauses looks for. -/

namespace SqlLineage
open SqlLineage.Text
set_option autoImplicit false

theorem Token.kind_of_sign {t : Token} {k : Token.Kind} {x : String} (h : t.sign = (k, x)) : t.kind = k :=
  congrArg Prod.fst h

theorem Token.lexeme_of_sign {t : Token} {k : Token.Kind} {x : String} (h : t.sign = (k, x)) : t.lexeme = x :=
  congrArg Prod.snd h

theorem Token.isWord_of_kind {t : Token} {w : String} (h : t.kind = .word w) (keyword : String) :
    t.isWord keyword = (foldCase w == keyword) := by
  rw [isWord, h]

theorem Token.isOneOf_of_kind {t : Token} {w : String} (h : t.kind = .word w) (keywords : List String) :
    t.isOneOf keywords = keywords.contains (foldCase w) := by
  rw [isOneOf, h]

theorem Token.identifier?_of_kind {t : Token} {w : String} (h : t.kind = .word w) : t.identifier? = some w := by
  rw [identifier?, h]

theorem Token.isParen_of_kind {t : Token} {w : String} (h : t.kind = .word w) : t.isParen = false := by
  simp [isParen, h]

theorem Keyword.not_mem_ignored {w : String} (h : isIgnored w = false) : foldCase w ∉ ignored := by
  simp only [isIgnored, Bool.or_eq_false_iff, List.contains_eq_mem, decide_eq_false_iff_not] at h
  exact h.1.2

namespace Join

/-! ## Lists with commas -/

/-- Tokens that list the pieces of some elements with commas between them. -/
inductive ListedBy {α : Type} (R : α → List Token → Prop) : List α → List Token → Prop where
  | nil : ListedBy R [] []
  | one {x : α} {u : List Token} (hu : R x u) : ListedBy R [x] u
  | more {x y : α} {ys : List α} {u us : List Token} {c : Token} (hu : R x u) (hc : c.sign = comma)
      (hus : ListedBy R (y :: ys) us) : ListedBy R (x :: y :: ys) (u ++ c :: us)

theorem listedBy_of_signs {α : Type} {f : α → List (Token.Kind × String)} {xs : List α} {ts : List Token}
    (h : ts.map Token.sign = listed (xs.map f)) : ListedBy (fun x u => u.map Token.sign = f x) xs ts := by
  induction xs generalizing ts with
  | nil =>
    obtain rfl := List.map_eq_nil_iff.mp h
    exact .nil
  | cons x xs ih =>
    cases xs with
    | nil => exact .one h
    | cons y ys =>
      obtain ⟨u, rest, rfl, hu, hrest⟩ := List.map_eq_append_iff.mp h
      obtain ⟨c, us, rfl, hc, hus⟩ := List.map_eq_cons_iff.mp hrest
      exact .more hu hc (ih hus)

theorem ListedBy.mem {α : Type} {R : α → List Token → Prop} {xs : List α} {ts : List Token}
    (h : ListedBy R xs ts) {t : Token} (ht : t ∈ ts) : t.kind = .comma ∨ ∃ x ∈ xs, ∃ u, R x u ∧ t ∈ u := by
  induction h with
  | nil => cases ht
  | @one x u hu => exact .inr ⟨x, List.mem_cons_self .., u, hu, ht⟩
  | @more x y ys u us c hu hc _ ih =>
    rcases List.mem_append.mp ht with ht | ht
    · exact .inr ⟨x, List.mem_cons_self .., u, hu, ht⟩
    · rcases List.mem_cons.mp ht with rfl | ht
      · exact .inl (Token.kind_of_sign hc)
      · obtain hk | ⟨z, hz, v, hv, htv⟩ := ih ht
        · exact .inl hk
        · exact .inr ⟨z, List.mem_cons_of_mem _ hz, v, hv, htv⟩

theorem ListedBy.nested {α : Type} {R : α → List Token → Prop} {xs : List α} {ts : List Token}
    (h : ListedBy R xs ts) (hR : ∀ x u, R x u → Token.Nested (fun _ => True) u) :
    Token.Nested (fun _ => True) ts := by
  induction h with
  | nil => exact .nil
  | one hu => exact hR _ _ hu
  | more hu hc _ ih =>
    refine (hR _ _ hu).append (.plain ?_ trivial ih)
    simp [Token.isParen, Token.kind_of_sign hc]

/-! ## Columns and expressions -/

theorem columnSigns_tokens {x : Source × String} {u : List Token} (h : u.map Token.sign = columnSigns x) :
    ∃ q d c : Token, u = [q, d, c] ∧ q.kind = .word x.1.label ∧ d.kind = .dot ∧ c.kind = .word x.2 := by
  obtain ⟨q, _, rfl, hq, h⟩ := List.map_eq_cons_iff.mp h
  obtain ⟨d, _, rfl, hd, h⟩ := List.map_eq_cons_iff.mp h
  obtain ⟨c, _, rfl, hc, h⟩ := List.map_eq_cons_iff.mp h
  obtain rfl := List.map_eq_nil_iff.mp h
  exact ⟨q, d, c, rfl, Token.kind_of_sign hq, Token.kind_of_sign hd, Token.kind_of_sign hc⟩

theorem call_tokens {f : String} {args : List (Source × String)} {u : List Token}
    (h : u.map Token.sign = (Expr.call f args).signs) :
    ∃ (g l r : Token) (inner : List Token), u = g :: l :: (inner ++ [r]) ∧ g.kind = .word f ∧
      l.sign = (.leftParen, "(") ∧ r.kind = .rightParen ∧
      ListedBy (fun x u => u.map Token.sign = columnSigns x) args inner := by
  obtain ⟨g, _, rfl, hg, h⟩ := List.map_eq_cons_iff.mp h
  obtain ⟨l, _, rfl, hl, h⟩ := List.map_eq_cons_iff.mp h
  obtain ⟨inner, _, rfl, hinner, h⟩ := List.map_eq_append_iff.mp h
  obtain ⟨r, _, rfl, hr, h⟩ := List.map_eq_cons_iff.mp h
  obtain rfl := List.map_eq_nil_iff.mp h
  exact ⟨g, l, r, inner, rfl, Token.kind_of_sign hg, hl, Token.kind_of_sign hr, listedBy_of_signs hinner⟩

theorem bare_tokens {c : String} {u : List Token} (h : u.map Token.sign = (Expr.bare c).signs) :
    ∃ t : Token, u = [t] ∧ t.kind = .word c := by
  obtain ⟨t, _, rfl, ht, h⟩ := List.map_eq_cons_iff.mp h
  obtain rfl := List.map_eq_nil_iff.mp h
  exact ⟨t, rfl, Token.kind_of_sign ht⟩

theorem expr_tokens {e : Expr} {a : String} {u : List Token} (h : u.map Token.sign = (Item.expr e a).signs) :
    ∃ (body : List Token) (as b : Token), u = body ++ [as, b] ∧ body.map Token.sign = e.signs ∧
      as.kind = .word "AS" ∧ b.kind = .word a := by
  obtain ⟨body, _, rfl, hbody, h⟩ := List.map_eq_append_iff.mp h
  obtain ⟨as, _, rfl, has, h⟩ := List.map_eq_cons_iff.mp h
  obtain ⟨b, _, rfl, hb, h⟩ := List.map_eq_cons_iff.mp h
  obtain rfl := List.map_eq_nil_iff.mp h
  exact ⟨body, as, b, rfl, hbody, Token.kind_of_sign has, Token.kind_of_sign hb⟩

theorem star_tokens {s : Source} {u : List Token} (h : u.map Token.sign = (Item.star s).signs) :
    ∃ q d x : Token, u = [q, d, x] ∧ q.kind = .word s.label ∧ d.kind = .dot ∧ x.kind = .star := by
  obtain ⟨q, _, rfl, hq, h⟩ := List.map_eq_cons_iff.mp h
  obtain ⟨d, _, rfl, hd, h⟩ := List.map_eq_cons_iff.mp h
  obtain ⟨x, _, rfl, hx, h⟩ := List.map_eq_cons_iff.mp h
  obtain rfl := List.map_eq_nil_iff.mp h
  exact ⟨q, d, x, rfl, Token.kind_of_sign hq, Token.kind_of_sign hd, Token.kind_of_sign hx⟩

theorem Item.head_tokens {item : Item} {u : List Token} (h : u.map Token.sign = item.signs) :
    ∃ t rest w, u = t :: rest ∧ t.kind = .word w := by
  cases item with
  | expr e a =>
    obtain ⟨body, as, b, rfl, hbody, -⟩ := expr_tokens h
    cases e with
    | column s c =>
      obtain ⟨q, d, c', rfl, hq, -⟩ := columnSigns_tokens hbody
      exact ⟨q, _, _, rfl, hq⟩
    | bare c =>
      obtain ⟨t, rfl, ht⟩ := bare_tokens hbody
      exact ⟨t, _, _, rfl, ht⟩
    | call f args =>
      obtain ⟨g, l, r, inner, rfl, hg, -⟩ := call_tokens hbody
      exact ⟨g, _, _, rfl, hg⟩
  | star s =>
    obtain ⟨q, d, x, rfl, hq, -⟩ := star_tokens h
    exact ⟨q, _, _, rfl, hq⟩

/-! ## Joined tables -/

/-- Tokens that join the given sources. -/
inductive Chained : List Source → List Token → Prop where
  | nil : Chained [] []
  | cons {s : Source} {ss : List Source} {k t as b : Token} {us : List Token} (hk : k.kind = .word "JOIN")
      (ht : t.kind = .word s.table) (has : as.kind = .word "AS") (hb : b.kind = .word s.label)
      (hus : Chained ss us) : Chained (s :: ss) (k :: t :: as :: b :: us)

theorem source_tokens {s : Source} {u : List Token} (h : u.map Token.sign = s.signs) :
    ∃ t as b : Token, u = [t, as, b] ∧ t.kind = .word s.table ∧ as.kind = .word "AS" ∧ b.kind = .word s.label := by
  obtain ⟨t, _, rfl, ht, h⟩ := List.map_eq_cons_iff.mp h
  obtain ⟨as, _, rfl, has, h⟩ := List.map_eq_cons_iff.mp h
  obtain ⟨b, _, rfl, hb, h⟩ := List.map_eq_cons_iff.mp h
  obtain rfl := List.map_eq_nil_iff.mp h
  exact ⟨t, as, b, rfl, Token.kind_of_sign ht, Token.kind_of_sign has, Token.kind_of_sign hb⟩

theorem chained_of_signs {ss : List Source} {us : List Token}
    (h : us.map Token.sign = ss.flatMap fun s => word "JOIN" :: s.signs) : Chained ss us := by
  induction ss generalizing us with
  | nil =>
    obtain rfl := List.map_eq_nil_iff.mp h
    exact .nil
  | cons s ss ih =>
    obtain ⟨u, rest, rfl, hu, hrest⟩ := List.map_eq_append_iff.mp h
    obtain ⟨k, v, rfl, hk, hv⟩ := List.map_eq_cons_iff.mp hu
    obtain ⟨t, as, b, rfl, ht, has, hb⟩ := source_tokens hv
    exact .cons (Token.kind_of_sign hk) ht has hb (ih hrest)

theorem Chained.words {ss : List Source} {us : List Token} (h : Chained ss us)
    (hw : ∀ s ∈ ss, PlainWord s.table ∧ PlainWord s.label) :
    ∀ t ∈ us, ∃ w, t.kind = .word w ∧ (w = "JOIN" ∨ w = "AS" ∨ PlainWord w) := by
  induction h with
  | nil => nofun
  | @cons s ss k t as b us hk ht has hb _ ih =>
    obtain ⟨hs, hss⟩ := List.forall_mem_cons.mp hw
    simp only [List.forall_mem_cons]
    exact ⟨⟨_, hk, .inl rfl⟩, ⟨_, ht, .inr (.inr hs.1)⟩, ⟨_, has, .inr (.inl rfl)⟩, ⟨_, hb, .inr (.inr hs.2)⟩,
      ih hss⟩

/-! ## Parentheses and commas of an item -/

theorem not_paren_of_arguments {args : List (Source × String)} {inner : List Token}
    (h : ListedBy (fun x u => u.map Token.sign = columnSigns x) args inner) :
    ∀ t ∈ inner, t.isParen = false := by
  intro t ht
  obtain hk | ⟨x, -, u, hu, htu⟩ := h.mem ht
  · simp [Token.isParen, hk]
  · obtain ⟨q, d, c, rfl, hq, hd, hc⟩ := columnSigns_tokens hu
    simp only [List.mem_cons, List.not_mem_nil, or_false] at htu
    rcases htu with rfl | rfl | rfl <;> simp [Token.isParen, hq, hd, hc]

theorem nested_of_plain {ts : List Token} (h : ∀ t ∈ ts, t.isParen = false ∧ t.kind ≠ .comma) :
    Token.Nested (fun t => t.kind ≠ .comma) ts := by
  induction ts with
  | nil => exact .nil
  | cons t ts ih =>
    rw [List.forall_mem_cons] at h
    exact .plain h.1.1 h.1.2 (ih h.2)

theorem Expr.nested {e : Expr} {u : List Token} (h : u.map Token.sign = e.signs) :
    Token.Nested (fun t => t.kind ≠ .comma) u := by
  cases e with
  | column s c =>
    obtain ⟨q, d, b, rfl, hq, hd, hb⟩ := columnSigns_tokens h
    refine nested_of_plain ?_
    simp [Token.isParen, hq, hd, hb]
  | bare c =>
    obtain ⟨t, rfl, ht⟩ := bare_tokens h
    refine nested_of_plain ?_
    simp [Token.isParen, ht]
  | call f args =>
    obtain ⟨g, l, r, inner, rfl, hg, hl, hr, hargs⟩ := call_tokens h
    refine .plain (Token.isParen_of_kind hg) (by simp [hg]) ?_
    exact .group (Token.kind_of_sign hl) (not_paren_of_arguments hargs) hr .nil

theorem Item.nested {i : Item} {u : List Token} (h : u.map Token.sign = i.signs) :
    Token.Nested (fun t => t.kind ≠ .comma) u := by
  cases i with
  | expr e a =>
    obtain ⟨body, as, b, rfl, hbody, has, hb⟩ := expr_tokens h
    refine (Expr.nested hbody).append (nested_of_plain ?_)
    simp [Token.isParen, has, hb]
  | star s =>
    obtain ⟨q, d, x, rfl, hq, hd, hx⟩ := star_tokens h
    refine nested_of_plain ?_
    simp [Token.isParen, hq, hd, hx]

/-! ## Words of clauses -/

/-- Words that readers of a body look for outside of expressions. -/
def clauseWords : List String :=
  ["FROM", "JOIN", "APPLY", "UNNEST", "INTO", "UNION", "EXCEPT", "INTERSECT", "DISTINCT", "ALL",
   "TOP", "GROUP"]

def Quiet (t : Token) : Prop := t.isOneOf clauseWords = false

theorem Quiet.isOneOf {t : Token} (h : Quiet t) {keywords : List String} (hk : ∀ k ∈ keywords, k ∈ clauseWords) :
    t.isOneOf keywords = false := by
  unfold Quiet Token.isOneOf at *
  split
  · next w hw =>
    simp only [hw, List.contains_eq_mem, decide_eq_false_iff_not] at h ⊢
    exact fun hmem => h (hk _ hmem)
  · rfl

theorem Quiet.isWord {t : Token} (h : Quiet t) {keyword : String} (hk : keyword ∈ clauseWords) :
    t.isWord keyword = false := by
  rw [← Token.isOneOf_singleton]
  exact h.isOneOf (by simpa using hk)

theorem quiet_of_not_word {t : Token} (h : ∀ w, t.kind ≠ .word w) : Quiet t := by
  unfold Quiet Token.isOneOf
  split
  · next w hw => exact absurd hw (h w)
  · rfl

theorem PlainWord.not_contains {w : String} (h : PlainWord w) {keywords : List String}
    (hk : ∀ k ∈ keywords, k ∈ Keyword.ignored ∨ k = "ARRAY") : keywords.contains (foldCase w) = false := by
  rw [List.contains_eq_mem, decide_eq_false_iff_not]
  intro hmem
  rcases hk _ hmem with hign | harr
  · exact Keyword.not_mem_ignored h.1 hign
  · exact h.2 harr

theorem PlainWord.quiet {w : String} (h : PlainWord w) {t : Token} (ht : t.kind = .word w) : Quiet t := by
  rw [Quiet, Token.isOneOf_of_kind ht]
  exact h.not_contains (by decide +kernel)

theorem quiet_as {t : Token} (ht : t.kind = .word "AS") : Quiet t := by
  rw [Quiet, Token.isOneOf_of_kind ht]
  decide +kernel

theorem quiet_of_aggregate {f : String} (h : foldCase f ∈ aggregates) {t : Token} (ht : t.kind = .word f) :
    Quiet t := by
  have hall : ∀ k ∈ aggregates, clauseWords.contains k = false := by decide +kernel
  rw [Quiet, Token.isOneOf_of_kind ht]
  exact hall _ h

theorem Expr.quiet {j : JoinQuery} (hj : j.Plain) {e : Expr} (he : e.Plain j.sources) {u : List Token}
    (hu : u.map Token.sign = e.signs) : ∀ t ∈ u, Quiet t := by
  have hcolumn : ∀ x : Source × String, x.1 ∈ j.sources → PlainWord x.2 → ∀ u : List Token,
      u.map Token.sign = columnSigns x → ∀ t ∈ u, Quiet t := by
    intro x hx hc u hu
    obtain ⟨q, d, b, rfl, hq, hd, hb⟩ := columnSigns_tokens hu
    simp only [List.forall_mem_cons]
    exact ⟨(hj.words _ hx).2.quiet hq, quiet_of_not_word (by simp [hd]), hc.quiet hb, nofun⟩
  cases e with
  | column s c => exact hcolumn (s, c) he.1 he.2 u hu
  | bare c =>
    obtain ⟨t, rfl, ht⟩ := bare_tokens hu
    simp only [List.forall_mem_cons]
    exact ⟨he.1.quiet ht, nofun⟩
  | call f args =>
    obtain ⟨g, l, close, inner, rfl, hg, hl, hclose, hargs⟩ := call_tokens hu
    have hopen := Token.kind_of_sign hl
    have hinner : ∀ t ∈ inner, Quiet t := by
      intro t ht
      obtain hk | ⟨x, hx, v, hv, htv⟩ := hargs.mem ht
      · exact quiet_of_not_word (by simp [hk])
      · exact hcolumn x (he.2 x hx).1 (he.2 x hx).2 v hv t htv
    have hg' : Quiet g := by
      rcases he.1 with hf | hf
      · exact hf.quiet hg
      · exact quiet_of_aggregate hf hg
    simp only [List.forall_mem_cons, List.forall_mem_append]
    exact ⟨hg', quiet_of_not_word (by simp [hopen]), hinner, quiet_of_not_word (by simp [hclose]), nofun⟩

theorem Item.quiet {j : JoinQuery} (hj : j.Plain) {item : Item} (hi : item.Plain j.sources) {u : List Token}
    (hu : u.map Token.sign = item.signs) : ∀ t ∈ u, Quiet t := by
  cases item with
  | expr e a =>
    obtain ⟨body, as, b, rfl, hbody, has, hb⟩ := expr_tokens hu
    simp only [List.forall_mem_append, List.forall_mem_cons]
    exact ⟨Expr.quiet hj hi.1 hbody, quiet_as has, hi.2.quiet hb, nofun⟩
  | star s =>
    obtain ⟨q, d, x, rfl, hq, hd, hx⟩ := star_tokens hu
    simp only [List.forall_mem_cons]
    exact ⟨(hj.words _ hi).2.quiet hq, quiet_of_not_word (by simp [hd]), quiet_of_not_word (by simp [hx]), nofun⟩

end Join
end SqlLineage
