import SqlLineage.Proofs.Token.Name
import SqlLineage.Select.Projection

/-! # Collecting column references step by step

* `ColumnRef.collectFrom_skip`, `collectFrom_single`, `collectFrom_pair`: what one sign, one single name
  and one qualified name contribute.
* `ColumnRef.NameAt`, `ColumnRef.mem_collect_iff`: which names are collected, told by their neighbours alone.
* `ColumnRef.before_start_of_mem`: no column reference stands right behind an `AS`, so leaving the output
  aliases out of all references changes nothing. -/

namespace SqlLineage
set_option autoImplicit false

theorem Select.Scope.isIgnored_of_keyword (scope : Scope) {w : String} (h : Keyword.isIgnored w = true) :
    scope.isIgnored w = true := by
  rw [isIgnored, h, Bool.true_or]

namespace Select.ColumnRef

section Steps
variable (scope : Scope) (i : Nat) {previous : Option Token}

theorem collectFrom_skip {t : Token} (ht : t.identifier? = none) (ts : List Token) :
    collectFrom scope i previous (t :: ts) = collectFrom scope (i + 1) (some t) ts := by
  rw [collectFrom]
  split
  · rfl
  · rw [QualifiedName.ofTokens?, ht]
    rfl

theorem collectFrom_single {t : Token} {w : String} (ht : t.identifier? = some w)
    (hp : previous.any (·.kind == .dot) = false) {ts : List Token}
    (hts : QualifiedName.furtherParts ts = []) :
    collectFrom scope i previous (t :: ts) =
      (if isExcluded previous ts.head? then [] else (ofName? scope i t ⟨[w], i + 1⟩).toList) ++
        collectFrom scope (i + 1) (some t) ts := by
  rw [collectFrom, if_neg (by simp [hp]), QualifiedName.ofTokens?_cons ht, hts]
  simp

theorem collectFrom_pair {t d u : Token} {q c : String} (ht : t.identifier? = some q) (hd : d.kind = .dot)
    (hu : u.identifier? = some c) (hp : previous.any (·.kind == .dot) = false) {ts : List Token}
    (hts : QualifiedName.furtherParts ts = []) :
    collectFrom scope i previous (t :: d :: u :: ts) =
      (if isExcluded previous ts.head? then [] else [⟨i, i + 3, some q, c⟩]) ++
        collectFrom scope (i + 3) (some u) ts := by
  have hparts : QualifiedName.furtherParts (d :: u :: ts) = [c] := by
    rw [QualifiedName.furtherParts, if_pos hd, hu, hts]
  have hnext : i + 1 + 2 * [c].length = i + 3 := by simp
  have hname : ofName? scope i t ⟨[q, c], i + 3⟩ = some ⟨i, i + 3, some q, c⟩ := by
    simp only [ofName?, List.dropLast_cons_cons, List.dropLast_singleton, List.isEmpty_cons]
    rfl
  rw [collectFrom, if_neg (by simp [hp]), QualifiedName.ofTokens?_cons ht, hparts, hnext]
  have hfurther : i + 3 - (i + 1) = 2 := by omega
  simp only [hfurther, hname]
  rfl

theorem collectFrom_ignored {t : Token} {w : String} (ht : t.kind = .word w) (hw : scope.isIgnored w = true)
    (hp : previous.any (·.kind == .dot) = false) {ts : List Token} (hts : QualifiedName.furtherParts ts = []) :
    collectFrom scope i previous (t :: ts) = collectFrom scope (i + 1) (some t) ts := by
  have hnone : ofName? scope i t ⟨[w], i + 1⟩ = none := by
    simp [ofName?, Token.isQuoted, ht, hw]
  rw [collectFrom_single scope i (by rw [Token.identifier?, ht]) hp hts, hnone]
  simp

theorem collectFrom_behindAs {as t : Token} {w : String} (has : as.kind = .word "AS") (ht : t.kind = .word w)
    {ts : List Token} (hts : QualifiedName.furtherParts ts = []) :
    collectFrom scope i (some as) (t :: ts) = collectFrom scope (i + 1) (some t) ts := by
  have hex : isExcluded (some as) ts.head? = true := by
    have hword : as.isWord "AS" = true := by
      rw [Token.isWord, has]
      rfl
    simp [isExcluded, hword]
  rw [collectFrom_single scope i (by rw [Token.identifier?, ht]) (by simp [has]) hts, if_pos hex,
    List.nil_append]

end Steps

/-! ## Where a name may begin and end -/

/-- In front of a name nothing says that it is no column. -/
def Neutral (previous : Option Token) : Prop :=
  previous.any (·.kind == .dot) = false ∧ previous.any (fun t => t.isWord "AS" || t.lexeme == "::") = false

/-- Behind a name nothing goes on with it. -/
def Closed (ts : List Token) : Prop :=
  ∀ t ∈ ts.head?, t.kind ≠ .dot ∧ t.kind ≠ .leftParen

theorem closed_nil : Closed [] := by
  intro t ht
  cases ht

theorem closed_cons {t : Token} (hdot : t.kind ≠ .dot) (hparen : t.kind ≠ .leftParen) (ts : List Token) :
    Closed (t :: ts) := by
  intro u hu
  obtain rfl := Option.some.inj hu
  exact ⟨hdot, hparen⟩

theorem Closed.furtherParts {ts : List Token} (h : Closed ts) : QualifiedName.furtherParts ts = [] := by
  cases ts with
  | nil => rfl
  | cons t ts => exact QualifiedName.furtherParts_cons (h t rfl).1 ts

theorem isExcluded_of_neutral {previous : Option Token} (hp : Neutral previous) {ts : List Token} (hts : Closed ts) :
    isExcluded previous ts.head? = false := by
  unfold isExcluded
  rw [hp.2, Bool.or_false]
  cases hh : ts.head? with
  | none => rfl
  | some t =>
    have ht := hts t hh
    simp [ht.1, ht.2]

/-! ## References and aliases -/

theorem before?_append (pre ts : List Token) : Token.before? (pre ++ ts) pre.length = pre.getLast? := by
  unfold Token.before?
  rcases pre.eq_nil_or_concat with rfl | ⟨pre, t, rfl⟩
  · rfl
  · rw [if_neg (by simp)]
    simp

/-- A name that begins at `start` with the token `t`, and of which nothing around it says that it is no column. -/
structure NameAt (ts : List Token) (start : Nat) (t : Token) (n : QualifiedName) : Prop where
  first : ts[start]? = some t
  name : QualifiedName.read? ts start = some n
  undotted : (Token.before? ts start).any (·.kind == .dot) = false
  free : isExcluded (Token.before? ts start) ts[n.next]? = false

/-- Inside a name no other one begins. -/
theorem NameAt.not_inside {ts : List Token} {i k : Nat} {t : Token} {m n : QualifiedName} (h : NameAt ts k t n)
    (hm : QualifiedName.read? ts i = some m) (hik : i < k) : m.next ≤ k := by
  refine Nat.le_of_not_lt fun hk => ?_
  rcases QualifiedName.inside hm hik hk with ⟨d, hd, hdot⟩ | hdot
  · obtain ⟨u, part, hu, hpart, -⟩ := QualifiedName.read?_eq_some_iff.mp h.name
    obtain rfl : d = u := Option.some.inj (hd.symm.trans hu)
    simp [Token.identifier?, hdot] at hpart
  · rw [h.undotted] at hdot
    cases hdot

theorem start_ofName? {scope : Scope} {i : Nat} {t : Token} {n : QualifiedName} {r : ColumnRef}
    (h : ofName? scope i t n = some r) : r.start = i ∧ r.stop = n.next := by
  unfold ofName? at h
  dsimp only at h
  split at h
  · split at h
    · exact Option.some.inj h ▸ ⟨rfl, rfl⟩
    · cases h
  · exact Option.some.inj h ▸ ⟨rfl, rfl⟩

theorem mem_name_iff (scope : Scope) (r : ColumnRef) {ts : List Token} {i : Nat} {t : Token} {n : QualifiedName}
    (hn : QualifiedName.read? ts i = some n) (ht : ts[i]? = some t)
    (hdot : (Token.before? ts i).any (·.kind == .dot) = false) :
    (r ∈ if isExcluded (Token.before? ts i) ts[n.next]? then [] else (ofName? scope i t n).toList) ↔
      r.start = i ∧ ∃ u m, NameAt ts r.start u m ∧ ofName? scope r.start u m = some r := by
  constructor
  · intro hr
    split at hr
    · cases hr
    · next hfree =>
      have hname := Option.mem_toList.mp hr
      obtain rfl := (start_ofName? hname).1
      exact ⟨rfl, t, n, ⟨ht, hn, hdot, (Bool.not_eq_true _).mp hfree⟩, hname⟩
  · rintro ⟨rfl, u, m, hname, hr⟩
    obtain rfl : u = t := Option.some.inj (hname.first.symm.trans ht)
    obtain rfl : m = n := Option.some.inj (hname.name.symm.trans hn)
    rw [if_neg (by rw [hname.free]; exact Bool.false_ne_true)]
    exact Option.mem_toList.mpr hr

/-- From behind the tokens `pre` on, names are collected as they stand in the whole token list. -/
def CollectsBehind (scope : Scope) (pre ts : List Token) : Prop :=
  ∀ r, r ∈ collectFrom scope pre.length pre.getLast? ts ↔
    pre.length ≤ r.start ∧ ∃ t n, NameAt (pre ++ ts) r.start t n ∧ ofName? scope r.start t n = some r

section CollectsBehind
variable {scope : Scope} {pre ts : List Token} {t : Token}

theorem collectsBehind_nil (scope : Scope) (pre : List Token) : CollectsBehind scope pre [] := by
  intro r
  rw [collectFrom, List.append_nil]
  constructor
  · rintro ⟨⟩
  · rintro ⟨hle, t, n, hname, -⟩
    exact absurd (List.getElem?_eq_some_iff.mp hname.first).1 (Nat.not_lt_of_le hle)

/-- Where no name begins, the next token is looked at. -/
theorem CollectsBehind.skip (h : CollectsBehind scope (pre ++ [t]) ts)
    (hno : ∀ u n, ¬ NameAt (pre ++ t :: ts) pre.length u n)
    (hstep : collectFrom scope pre.length pre.getLast? (t :: ts) = collectFrom scope (pre.length + 1) (some t) ts) :
    CollectsBehind scope pre (t :: ts) := by
  intro r
  have hr := h r
  rw [List.length_append, List.length_singleton, List.getLast?_append, List.append_assoc] at hr
  rw [hstep]
  refine hr.trans (and_congr_left ?_)
  rintro ⟨u, n, hname, -⟩
  exact ⟨Nat.le_of_succ_le, fun hle => Nat.lt_of_le_of_ne hle fun heq => hno u n (heq ▸ hname)⟩

/-- A name that is read takes its tokens as a whole, and the next one is looked for behind it. -/
theorem CollectsBehind.name {further : List Token} (h : CollectsBehind scope (pre ++ t :: further) ts)
    {n : QualifiedName} (hn : QualifiedName.read? (pre ++ t :: (further ++ ts)) pre.length = some n)
    (hnext : n.next = pre.length + 1 + further.length) (hdot : pre.getLast?.any (·.kind == .dot) = false) :
    CollectsBehind scope pre (t :: (further ++ ts)) := by
  intro r
  have hbefore : Token.before? (pre ++ t :: (further ++ ts)) pre.length = pre.getLast? := before?_append ..
  have hhead : ts.head? = (pre ++ t :: (further ++ ts))[n.next]? := by
    rw [List.getElem?_append_right (by omega), show n.next - pre.length = further.length + 1 by omega,
      List.getElem?_cons_succ, List.getElem?_append_right (Nat.le_refl _), Nat.sub_self, List.head?_eq_getElem?]
  have hown := mem_name_iff scope r (t := t) hn (by simp) (by rw [hbefore, hdot])
  have hbehind := h r
  have hread : QualifiedName.ofTokens? pre.length (t :: (further ++ ts)) = some n := by
    rwa [QualifiedName.read?, List.drop_left] at hn
  have hfurther : n.next - (pre.length + 1) = further.length := by omega
  have hlength : (pre ++ t :: further).length = n.next := by
    rw [List.length_append, List.length_cons]
    omega
  have hlast : (pre ++ t :: further).getLast? = (t :: further).getLast? := by
    rw [List.getLast?_append, List.getLast?_cons]
    rfl
  rw [hbefore, ← hhead] at hown
  rw [hlength, hlast, List.append_assoc, List.cons_append] at hbehind
  rw [collectFrom, if_neg (Bool.eq_false_iff.mp hdot), hread]
  dsimp only
  rw [hfurther, List.drop_left, List.take_left, List.mem_append, hown, hbehind, ← or_and_right]
  refine and_congr_left ?_
  rintro ⟨u, m, hname, -⟩
  constructor
  · rintro (hstart | hstart) <;> omega
  · intro hle
    rcases Nat.eq_or_lt_of_le hle with heq | hlt
    · exact .inl heq.symm
    · exact .inr (hname.not_inside hn hlt)

end CollectsBehind

theorem collectsBehind_of_length_le (scope : Scope) (k : Nat) :
    ∀ (pre ts : List Token), ts.length ≤ k → CollectsBehind scope pre ts := by
  -- a name may take up several tokens, so the induction is on a bound for their number
  induction k with
  | zero =>
    intro pre ts hk
    rw [List.length_eq_zero_iff.mp (Nat.le_zero.mp hk)]
    exact collectsBehind_nil scope pre
  | succ k ih =>
    intro pre ts hk
    cases ts with
    | nil => exact collectsBehind_nil scope pre
    | cons t ts =>
      rw [List.length_cons] at hk
      have hskip := ih (pre ++ [t]) ts (by omega)
      have hbefore : Token.before? (pre ++ t :: ts) pre.length = pre.getLast? := before?_append ..
      have hread : QualifiedName.read? (pre ++ t :: ts) pre.length = QualifiedName.ofTokens? pre.length (t :: ts) := by
        rw [QualifiedName.read?, List.drop_left]
      cases hdot : pre.getLast?.any (·.kind == .dot) with
      | true =>
        refine hskip.skip (fun u n hname => ?_) (by rw [collectFrom, if_pos hdot])
        rw [← hbefore, hname.undotted] at hdot
        cases hdot
      | false =>
        cases hn : QualifiedName.read? (pre ++ t :: ts) pre.length with
        | none =>
          refine hskip.skip (fun u n hname => ?_) ?_
          · rw [hname.name] at hn
            cases hn
          · rw [collectFrom, if_neg (Bool.eq_false_iff.mp hdot), ← hread, hn]
        | some n =>
          have hlt := QualifiedName.start_lt_next hn
          have hle := QualifiedName.next_le hn
          rw [List.length_append, List.length_cons] at hle
          obtain ⟨further, rest, rfl, hnext⟩ : ∃ further rest, ts = further ++ rest ∧
              n.next = pre.length + 1 + further.length := by
            refine ⟨ts.take (n.next - (pre.length + 1)), _, (List.take_append_drop _ ts).symm, ?_⟩
            rw [List.length_take]
            omega
          rw [List.length_append] at hk
          exact (ih (pre ++ t :: further) rest (by omega)).name hn hnext hdot

/-- The references of a token list are its names that may be columns. -/
theorem mem_collect_iff {scope : Scope} {ts : List Token} {r : ColumnRef} :
    r ∈ collect scope ts ↔ ∃ t n, NameAt ts r.start t n ∧ ofName? scope r.start t n = some r := by
  have hall := collectsBehind_of_length_le scope ts.length [] ts (Nat.le_refl _) r
  exact hall.trans (and_iff_right (Nat.zero_le _))

theorem before_start_of_mem {scope : Scope} {ts : List Token} {r : ColumnRef} (h : r ∈ collect scope ts) :
    (Token.before? ts r.start).any (·.isWord "AS") = false := by
  obtain ⟨t, n, hname, -⟩ := mem_collect_iff.mp h
  have hfree := hname.free
  unfold isExcluded at hfree
  cases hp : Token.before? ts r.start with
  | none => rfl
  | some p =>
    rw [hp] at hfree
    simp only [Option.any_some, Bool.or_eq_false_iff] at hfree
    exact hfree.2.1

end Select.ColumnRef
end SqlLineage
