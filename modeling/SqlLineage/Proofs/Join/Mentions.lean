import SqlLineage.Proofs.Join.Scope
import SqlLineage.Proofs.Join.Written
import SqlLineage.Proofs.Select.Collect

/-! # The clauses of joined queries

* `Join.Parts`: the tokens of a query, cut at the word `FROM`.
* `Join.Parts.mentions`, `projectionSpan`, `markKeys`: the tables that the readers of a body find are those
  that are joined, the items are what stands in front of `FROM`, and there are no grouping keys. -/

namespace SqlLineage
open SqlLineage.Text SqlLineage.Select Join
set_option autoImplicit false

theorem getElem?_behind {α : Type} (pre xs : List α) (n : Nat) : (pre ++ xs)[pre.length + n]? = xs[n]? := by
  rw [List.getElem?_append_right (Nat.le_add_right _ _), Nat.add_sub_cancel_left]

namespace Join

/-! ## One mention -/

theorem freeName?_of_plain {t : Token} {w : String} (ht : t.kind = .word w) (hw : PlainWord w) :
    freeName? t = some w := by
  rw [freeName?, Token.identifier?_of_kind ht]
  simp [hw.1]

theorem read?_source {s : Source} (hs : PlainWord s.table ∧ PlainWord s.label) {t as b : Token}
    (ht : t.kind = .word s.table) (has : as.kind = .word "AS") (hb : b.kind = .word s.label)
    (pre rest : List Token) :
    TableRef.read? (pre ++ t :: as :: b :: rest) pre.length = some s.mention.table := by
  have h1 := getElem?_behind pre (t :: as :: b :: rest) 1
  have h2 := getElem?_behind pre (t :: as :: b :: rest) 2
  have hfurther : QualifiedName.furtherParts (as :: b :: rest) = [] :=
    QualifiedName.furtherParts_cons (by simp [has]) _
  have hname : QualifiedName.read? (pre ++ t :: as :: b :: rest) pre.length = some ⟨[s.table], pre.length + 1⟩ := by
    rw [QualifiedName.read?, List.drop_left, QualifiedName.ofTokens?, Token.identifier?_of_kind ht, hfurther]
    rfl
  have hopens : Token.opensAt (pre ++ t :: as :: b :: rest) (pre.length + 1) = false := by
    rw [Token.opensAt, h1]
    simp [has]
  have hword : Token.wordAt (pre ++ t :: as :: b :: rest) (pre.length + 1) "AS" = true := by
    rw [Token.wordAt, h1]
    simp only [List.getElem?_cons_succ, List.getElem?_cons_zero, Option.any_some, Token.isWord, has]
    rfl
  have hlabel : aliasAt? (pre ++ t :: as :: b :: rest) (pre.length + 1) = some s.label := by
    rw [aliasAt?, Token.behindWord, if_pos hword, Nat.add_assoc, h2]
    simp [freeName?_of_plain hb hs.2]
  rw [TableRef.read?, hname]
  simp [hopens, hlabel, freeName?_of_plain ht hs.1, Source.mention]

theorem mentionAt?_of_not_keyword {ts : List Token} {depth : Int} {p : Token.Placed}
    (h : p.token.isOneOf tableKeywords = false) : mentionAt? ts depth p = none := by
  rw [mentionAt?, if_pos (by simp [h])]

theorem mentionAt?_of_read? {ts : List Token} {k : Token} {keyword : String} {i : Nat} {t : TableRef}
    (hk : k.kind = .word keyword) (hkeyword : keyword = "FROM" ∨ keyword = "JOIN")
    (hread : TableRef.read? ts (i + 1) = some t) (hfrom : keyword = "FROM" → isNonTableFrom ts i = false) :
    mentionAt? ts 0 ⟨k, 0, i⟩ = some ⟨t, true⟩ := by
  have hin : k.isOneOf tableKeywords = true := by
    rw [Token.isOneOf_of_kind hk]
    rcases hkeyword with rfl | rfl <;> decide +kernel
  have hunnest : k.isWord "UNNEST" = false := by
    rw [Token.isWord_of_kind hk]
    rcases hkeyword with rfl | rfl <;> decide +kernel
  have hpass : (k.isWord "FROM" && isNonTableFrom ts i) = false := by
    rcases hkeyword with rfl | rfl
    · rw [hfrom rfl, Bool.and_false]
    · rw [Token.isWord_of_kind hk]
      rfl
  rw [mentionAt?, if_neg (by simp [hin]), if_neg (by simp [hpass]), hread]
  simp [hunnest]

theorem mentionAt?_source {s : Source} (hs : PlainWord s.table ∧ PlainWord s.label) {k t as b : Token}
    {keyword : String} (hk : k.kind = .word keyword) (hkeyword : keyword = "FROM" ∨ keyword = "JOIN")
    (ht : t.kind = .word s.table) (has : as.kind = .word "AS") (hb : b.kind = .word s.label)
    {pre rest : List Token}
    (hfrom : keyword = "FROM" → isNonTableFrom (pre ++ k :: t :: as :: b :: rest) pre.length = false) :
    mentionAt? (pre ++ k :: t :: as :: b :: rest) 0 ⟨k, 0, pre.length⟩ = some s.mention := by
  have hread := read?_source hs ht has hb (pre ++ [k]) rest
  rw [List.append_assoc, List.singleton_append, List.length_append, List.length_singleton] at hread
  exact mentionAt?_of_read? hk hkeyword hread hfrom

theorem placedFrom_word {t : Token} {w : String} (ht : t.kind = .word w) (i : Nat) (d : Int) (ts : List Token) :
    Token.placedFrom i d (t :: ts) = ⟨t, d, i⟩ :: Token.placedFrom (i + 1) d ts :=
  Token.placedFrom_of_not_paren (Token.isParen_of_kind ht) i d ts

theorem mentionAt?_of_plain {t : Token} {w : String} (ht : t.kind = .word w) (hw : PlainWord w)
    (ts : List Token) (depth d : Int) (i : Nat) : mentionAt? ts depth ⟨t, d, i⟩ = none :=
  mentionAt?_of_not_keyword ((hw.quiet ht).isOneOf (by decide +kernel))

theorem mentionAt?_as {t : Token} (ht : t.kind = .word "AS") (ts : List Token) (depth d : Int) (i : Nat) :
    mentionAt? ts depth ⟨t, d, i⟩ = none :=
  mentionAt?_of_not_keyword ((quiet_as ht).isOneOf (by decide +kernel))

theorem filterMap_mentionAt?_source {s : Source} (hs : PlainWord s.table ∧ PlainWord s.label) {k t as b : Token}
    {keyword : String} (hk : k.kind = .word keyword) (hkeyword : keyword = "FROM" ∨ keyword = "JOIN")
    (ht : t.kind = .word s.table) (has : as.kind = .word "AS") (hb : b.kind = .word s.label)
    {pre rest : List Token}
    (hfrom : keyword = "FROM" → isNonTableFrom (pre ++ k :: t :: as :: b :: rest) pre.length = false) :
    (Token.placedFrom pre.length 0 (k :: t :: as :: b :: rest)).filterMap
        (mentionAt? (pre ++ k :: t :: as :: b :: rest) 0) =
      s.mention :: (Token.placedFrom (pre.length + 4) 0 rest).filterMap
        (mentionAt? (pre ++ k :: t :: as :: b :: rest) 0) := by
  rw [placedFrom_word hk, placedFrom_word ht, placedFrom_word has, placedFrom_word hb,
    List.filterMap_cons_some (mentionAt?_source hs hk hkeyword ht has hb hfrom),
    List.filterMap_cons_none (mentionAt?_of_plain ht hs.1 _ _ _ _),
    List.filterMap_cons_none (mentionAt?_as has _ _ _ _),
    List.filterMap_cons_none (mentionAt?_of_plain hb hs.2 _ _ _ _)]

theorem filterMap_mentionAt?_chained {ss : List Source} {us : List Token} (h : Chained ss us)
    (hw : ∀ s ∈ ss, PlainWord s.table ∧ PlainWord s.label) (pre : List Token) :
    (Token.placedFrom pre.length 0 us).filterMap (mentionAt? (pre ++ us) 0) = ss.map Source.mention := by
  induction h generalizing pre with
  | nil => rfl
  | @cons s ss k t as b us hk ht has hb _ ih =>
    obtain ⟨hs, hss⟩ := List.forall_mem_cons.mp hw
    have hrec := ih hss (pre ++ [k, t, as, b])
    rw [List.append_assoc, List.length_append] at hrec
    rw [filterMap_mentionAt?_source hs hk (.inr rfl) ht has hb nofun, List.map_cons]
    exact congrArg _ hrec

/-! ## All of a query -/

theorem markKeys_of_no_group {ts : List Token} (h : ∀ u ∈ ts, u.isWord "GROUP" = false) (select : Nat)
    (columns : List Column) : markKeys ts select columns = columns := by
  have hnone : groupBy? ts select = none := by
    rw [groupBy?, Option.map_eq_none_iff, List.find?_eq_none]
    intro p hp
    have hmem := List.mem_of_mem_drop hp
    rw [Token.placed_eq] at hmem
    simp [h _ (Token.mem_placedFrom hmem).1]
  rw [markKeys, groupItems, hnone]
  rfl

/-- The tokens of a query, cut at the word `FROM`. -/
structure Parts (j : JoinQuery) (sel : Token) (its : List Token) (k t as b : Token) (us : List Token) : Prop where
  sel_sign : sel.sign = word "SELECT"
  items : ListedBy (fun item u => u.map Token.sign = item.signs) j.items its
  k_kind : k.kind = .word "FROM"
  t_kind : t.kind = .word j.origin.table
  as_kind : as.kind = .word "AS"
  b_kind : b.kind = .word j.origin.label
  chained : Chained j.joined us

theorem parts_of_signs {j : JoinQuery} {ts : List Token} (h : ts.map Token.sign = j.signs) :
    ∃ sel its k t as b us, ts = sel :: its ++ k :: t :: as :: b :: us ∧ Parts j sel its k t as b us := by
  obtain ⟨sel, _, rfl, hsel, h⟩ := List.map_eq_cons_iff.mp h
  obtain ⟨its, _, rfl, hits, h⟩ := List.map_eq_append_iff.mp h
  obtain ⟨k, _, rfl, hk, h⟩ := List.map_eq_cons_iff.mp h
  obtain ⟨u, us, rfl, hu, hus⟩ := List.map_eq_append_iff.mp h
  obtain ⟨t, as, b, rfl, ht, has, hb⟩ := source_tokens hu
  exact ⟨sel, its, k, t, as, b, us, rfl, hsel, listedBy_of_signs hits, Token.kind_of_sign hk, ht, has, hb,
    chained_of_signs hus⟩

namespace Parts
variable {j : JoinQuery} {sel : Token} {its : List Token} {k t as b : Token} {us : List Token}

theorem sel_kind (h : Parts j sel its k t as b us) : sel.kind = .word "SELECT" := Token.kind_of_sign h.sel_sign

theorem quiet (h : Parts j sel its k t as b us) (hj : j.Plain) : ∀ u ∈ sel :: its, Quiet u := by
  intro u hu
  rcases List.mem_cons.mp hu with rfl | hu
  · rw [Quiet, Token.isOneOf_of_kind h.sel_kind]
    decide +kernel
  · obtain hk | ⟨item, hi, v, hv, huv⟩ := h.items.mem hu
    · exact quiet_of_not_word (by simp [hk])
    · exact Item.quiet hj (hj.items item hi) hv u huv

theorem nested (h : Parts j sel its k t as b us) : Token.Nested (fun _ => True) (sel :: its) :=
  .plain (Token.isParen_of_kind h.sel_kind) trivial
    (h.items.nested fun _ _ hu => (Item.nested hu).mono fun _ _ => trivial)

theorem words (h : Parts j sel its k t as b us) (hj : j.Plain) :
    ∀ u ∈ t :: as :: b :: us, ∃ w, u.kind = .word w ∧ (w = "JOIN" ∨ w = "AS" ∨ PlainWord w) := by
  have horigin := hj.words j.origin (List.mem_cons_self ..)
  simp only [List.forall_mem_cons]
  exact ⟨⟨_, h.t_kind, .inr (.inr horigin.1)⟩, ⟨_, h.as_kind, .inr (.inl rfl)⟩,
    ⟨_, h.b_kind, .inr (.inr horigin.2)⟩,
    h.chained.words fun s hs => hj.words s (List.mem_cons_of_mem _ hs)⟩

theorem isNonTableFrom (h : Parts j sel its k t as b us) (hj : j.Plain) :
    Select.isNonTableFrom (sel :: its ++ k :: t :: as :: b :: us) (sel :: its).length = false := by
  have hlast : (sel :: its).getLast?.any (·.isWord "DISTINCT") = false := by
    cases hg : (sel :: its).getLast? with
    | none => rfl
    | some u => exact (h.quiet hj u (List.mem_of_getLast? hg)).isWord (by decide +kernel)
  have hopens := opensFromFunction_nested h.nested []
  rw [List.append_nil] at hopens
  rw [Select.isNonTableFrom, ColumnRef.before?_append, List.take_left, hlast, hopens]
  rfl

theorem keywordMentions (h : Parts j sel its k t as b us) (hj : j.Plain) :
    Select.keywordMentions (sel :: its ++ k :: t :: as :: b :: us) 0 = j.mentions := by
  have hitems : (Token.placedFrom 0 0 (sel :: its)).filterMap
      (mentionAt? (sel :: its ++ k :: t :: as :: b :: us) 0) = [] := by
    refine List.filterMap_eq_nil_iff.mpr fun p hp => ?_
    exact mentionAt?_of_not_keyword
      ((h.quiet hj _ (Token.mem_placedFrom hp).1).isOneOf (by decide +kernel))
  have hchain := filterMap_mentionAt?_chained h.chained
    (fun s hs => hj.words s (List.mem_cons_of_mem _ hs)) (sel :: its ++ [k, t, as, b])
  rw [List.append_assoc, List.length_append] at hchain
  have horigin := filterMap_mentionAt?_source (hj.words j.origin (List.mem_cons_self ..)) h.k_kind (.inl rfl)
    h.t_kind h.as_kind h.b_kind (fun _ => h.isNonTableFrom hj)
  rw [Select.keywordMentions, Token.placed_eq, Token.placedFrom_append, List.filterMap_append, hitems,
    h.nested.depthBehind_eq, List.nil_append, Nat.zero_add, horigin, JoinQuery.mentions, JoinQuery.sources,
    List.map_cons]
  exact congrArg _ hchain

theorem select? (h : Parts j sel its k t as b us) :
    Select.select? (sel :: its ++ k :: t :: as :: b :: us) = some 0 := by
  have hword : sel.isWord "SELECT" = true := by
    rw [Token.isWord, h.sel_kind]
    rfl
  rw [Select.select?, List.cons_append, List.findIdx?_cons, if_pos hword]

theorem depthAt (h : Parts j sel its k t as b us) :
    Token.depthAt (sel :: its ++ k :: t :: as :: b :: us) 0 = 0 := by
  rw [Token.depthAt, Token.depths, List.cons_append, Token.depthsFrom, if_neg (by simp [h.sel_kind])]
  rfl

/-- The only `FROM` is the one behind the items. -/
theorem length_le_of_isWord (h : Parts j sel its k t as b us) (hj : j.Plain) {i : Nat} {u : Token}
    (hu : (sel :: its ++ k :: t :: as :: b :: us)[i]? = some u) (hfrom : u.isWord "FROM" = true) :
    (sel :: its).length ≤ i := by
  by_contra hlt
  rw [List.getElem?_append_left (by omega)] at hu
  have hquiet := (h.quiet hj u (List.mem_of_getElem? hu)).isWord (show "FROM" ∈ clauseWords by decide +kernel)
  rw [hfrom] at hquiet
  cases hquiet

theorem not_comma_of_mem_drop (h : Parts j sel its k t as b us) (hj : j.Plain) {i : Nat}
    (hi : (sel :: its).length ≤ i) :
    ∀ u ∈ (sel :: its ++ k :: t :: as :: b :: us).drop (i + 1), u.kind ≠ .comma := by
  intro u hu
  obtain ⟨n, hn⟩ := Nat.exists_eq_add_of_le hi
  have hskip : i + 1 - (sel :: its).length = n + 1 := by omega
  rw [List.drop_append, List.drop_eq_nil_of_le (by omega), List.nil_append, hskip, List.drop_succ_cons] at hu
  obtain ⟨w, hw, -⟩ := h.words hj u (List.mem_of_mem_drop hu)
  simp [hw]

/-- There is no comma behind `FROM`, so the table list has one group at most. -/
theorem listMentions (h : Parts j sel its k t as b us) (hj : j.Plain) :
    Select.listMentions (sel :: its ++ k :: t :: as :: b :: us) 0 = [] := by
  have hgroups : (fromGroups (sel :: its ++ k :: t :: as :: b :: us) 0).length < 2 := by
    unfold fromGroups
    cases hf : tableFrom? (sel :: its ++ k :: t :: as :: b :: us) 0 with
    | none => simp
    | some i =>
      obtain ⟨p, hp, rfl⟩ := Option.map_eq_some_iff.mp hf
      have hword := List.find?_some hp
      have hmem := List.mem_of_mem_drop (List.mem_of_find?_eq_some hp)
      rw [Token.placed_eq] at hmem
      simp only [Bool.and_eq_true] at hword
      have hle := h.length_le_of_isWord hj (by simpa using (Token.mem_placedFrom hmem).2.2) hword.1.2
      dsimp only
      rw [Token.topLevel, List.length_map, Token.topLevelSpans]
      refine Nat.lt_succ_of_le (Token.length_spansFrom_le (fun u hu => ?_) 0 0 0)
      exact h.not_comma_of_mem_drop hj hle u (List.mem_of_mem_take hu)
  rw [Select.listMentions, if_pos hgroups]

theorem mentions (h : Parts j sel its k t as b us) (hj : j.Plain) :
    Select.mentions (sel :: its ++ k :: t :: as :: b :: us) = j.mentions := by
  rw [Select.mentions, h.select?]
  simp only [h.depthAt, h.keywordMentions hj, h.listMentions hj, List.append_nil]

theorem head_items (h : Parts j sel its k t as b us) : ∃ u rest w, its = u :: rest ∧ u.kind = .word w := by
  have hits := h.items
  rw [JoinQuery.items] at hits
  generalize j.further = further at hits
  cases hits with
  | one hu => exact Item.head_tokens hu
  | more hu _ _ =>
    obtain ⟨u, rest, w, rfl, hw⟩ := Item.head_tokens hu
    exact ⟨u, _, w, rfl, hw⟩

theorem projectionSpan (h : Parts j sel its k t as b us) (hj : j.Plain) :
    Select.projectionSpan (sel :: its ++ k :: t :: as :: b :: us) 0 = ⟨1, 1 + its.length⟩ := by
  obtain ⟨u, rest, w, rfl, hw⟩ := h.head_items
  have hquiet : Quiet u := h.quiet hj u (by simp)
  have hfirst : ∀ keyword ∈ clauseWords,
      Token.wordAt (sel :: u :: rest ++ k :: t :: as :: b :: us) 1 keyword = false := by
    intro keyword hk
    exact hquiet.isWord hk
  have hquantifier : behindQuantifier (sel :: u :: rest ++ k :: t :: as :: b :: us) 1 = 1 := by
    rw [behindQuantifier, hfirst "DISTINCT" (by decide +kernel), hfirst "ALL" (by decide +kernel)]
    rfl
  have htop : behindTop (sel :: u :: rest ++ k :: t :: as :: b :: us) 1 = 1 := by
    rw [behindTop, hfirst "TOP" (by decide +kernel)]
    rfl
  have hstart : min 1 (sel :: u :: rest ++ k :: t :: as :: b :: us).length = 1 := by
    simp
  have hnested := h.items.nested fun _ _ hv => (Item.nested hv).mono fun _ _ => trivial
  have hends : ∀ v ∈ u :: rest, v.isOneOf projectionEnds = false := fun v hv =>
    (h.quiet hj v (List.mem_cons_of_mem _ hv)).isOneOf (by decide +kernel)
  have hfrom : Select.projectionEnd (1 + (u :: rest).length) 0 (k :: t :: as :: b :: us) = 1 + (u :: rest).length := by
    have hword : k.isOneOf projectionEnds = true := by
      rw [Token.isOneOf_of_kind h.k_kind]
      decide +kernel
    rw [Select.projectionEnd]
    simp [h.k_kind, hword]
  have hdrop : (sel :: u :: rest ++ k :: t :: as :: b :: us).drop 1 = u :: rest ++ k :: t :: as :: b :: us := rfl
  rw [Select.projectionSpan, Nat.zero_add, hquantifier, htop, hstart, hdrop, projectionEnd_nested hnested hends, hfrom]

theorem markKeys (h : Parts j sel its k t as b us) (hj : j.Plain) (columns : List Column) :
    Select.markKeys (sel :: its ++ k :: t :: as :: b :: us) 0 columns = columns := by
  have hgroup : ∀ u ∈ sel :: its ++ k :: t :: as :: b :: us, u.isWord "GROUP" = false := by
    intro u hu
    rcases List.mem_append.mp hu with hu | hu
    · exact (h.quiet hj u hu).isWord (by decide +kernel)
    · rcases List.mem_cons.mp hu with rfl | hu
      · rw [Token.isWord_of_kind h.k_kind]
        decide +kernel
      · obtain ⟨w, hw, rfl | rfl | hplain⟩ := h.words hj u hu
        · rw [Token.isWord_of_kind hw]
          decide +kernel
        · rw [Token.isWord_of_kind hw]
          decide +kernel
        · exact (hplain.quiet hw).isWord (by decide +kernel)
  exact markKeys_of_no_group hgroup 0 columns

end Parts
end Join
end SqlLineage
