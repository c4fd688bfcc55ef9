import SqlLineage.Proofs.Case.Scan
import SqlLineage.Token.Bracket
import SqlLineage.Token.QualifiedName

/-! # Tokens in capitals

What the readers ask of tokens has the same answer for the tokens in capitals, and names that are read from them are
the same names in capitals.

* `Token.isWord_fold`, `Token.identifier?_fold`, `Token.kind_fold_eq_iff`: single tokens.
* `Token.placed_fold`, `Token.closing?_fold`, `Token.topLevel_fold`: parentheses and what they group.
* `QualifiedName.read?_fold`, `Token.nameList?_fold`: names. -/

namespace SqlLineage
open SqlLineage.Text
set_option autoImplicit false

/-! ## Single tokens -/

namespace Token

/-- Whether tokens of the kind carry a text beside their source text. -/
def Kind.hasText : Kind → Bool
  | .word _ | .quoted _ | .literal _ | .number _ => true
  | _ => false

theorem Kind.fold_eq_iff {k k' : Kind} (hk : k'.hasText = false) : k.fold = k' ↔ k = k' := by
  cases k' with
  | word text => cases hk
  | quoted name => cases hk
  | literal value => cases hk
  | number text => cases hk
  | _ => cases k <;> simp [fold]

section Single
variable (t : Token)

theorem kind_fold : t.fold.kind = t.kind.fold := rfl

@[simp] theorem line_fold : t.fold.line = t.line := rfl

@[simp] theorem lexeme_fold : t.fold.lexeme = foldCase t.lexeme := rfl

theorem kind_fold_eq_iff (k : Kind) (hk : k.hasText = false) : t.fold.kind = k ↔ t.kind = k :=
  Kind.fold_eq_iff hk

theorem kind_fold_beq (k : Kind) (hk : k.hasText = false) : (t.fold.kind == k) = (t.kind == k) := by
  rw [Bool.eq_iff_iff, beq_iff_eq, beq_iff_eq]
  exact kind_fold_eq_iff t k hk

@[simp] theorem isWord_fold (keyword : String) : t.fold.isWord keyword = t.isWord keyword := by
  rw [isWord, isWord, kind_fold]
  cases t.kind with
  | word text => exact congrArg (· == keyword) (foldCase_foldCase text)
  | _ => rfl

@[simp] theorem isOneOf_fold (keywords : List String) : t.fold.isOneOf keywords = t.isOneOf keywords := by
  rw [isOneOf, isOneOf, kind_fold]
  cases t.kind with
  | word text => exact congrArg keywords.contains (foldCase_foldCase text)
  | _ => rfl

@[simp] theorem identifier?_fold : t.fold.identifier? = t.identifier?.map foldCase := by
  rw [identifier?, identifier?, kind_fold]
  cases t.kind <;> rfl

@[simp] theorem isIdentifier_fold : t.fold.isIdentifier = t.isIdentifier := by
  rw [isIdentifier, identifier?_fold, Option.isSome_map, isIdentifier]

@[simp] theorem isQuoted_fold : t.fold.isQuoted = t.isQuoted := by
  rw [isQuoted, isQuoted, kind_fold]
  cases t.kind <;> rfl

@[simp] theorem depthChange_fold : t.fold.depthChange = t.depthChange := by
  rw [depthChange, depthChange, kind_fold]
  cases t.kind <;> rfl

end Single

/-! ## Tokens at an index -/

section Lists
variable (ts : List Token)

theorem any_map_fold {p : Token → Bool} (hp : ∀ t, p t.fold = p t) (t? : Option Token) :
    (t?.map fold).any p = t?.any p := by
  cases t? with
  | none => rfl
  | some t => exact hp t

@[simp] theorem wordAt_fold (i : Nat) (keyword : String) : wordAt (ts.map fold) i keyword = wordAt ts i keyword := by
  rw [wordAt, List.getElem?_map, any_map_fold fun t => t.isWord_fold keyword, wordAt]

@[simp] theorem opensAt_fold (i : Nat) : opensAt (ts.map fold) i = opensAt ts i := by
  rw [opensAt, List.getElem?_map, any_map_fold fun t => t.kind_fold_beq .leftParen rfl, opensAt]

@[simp] theorem behindWord_fold (i : Nat) (keyword : String) :
    behindWord (ts.map fold) i keyword = behindWord ts i keyword := by
  rw [behindWord, wordAt_fold, behindWord]

theorem before?_fold (i : Nat) : before? (ts.map fold) i = (before? ts i).map fold := by
  rw [before?, before?, List.getElem?_map]
  split <;> rfl

theorem findIdx?_fold {p : Token → Bool} (hp : ∀ t, p t.fold = p t) :
    (ts.map fold).findIdx? p = ts.findIdx? p := by
  rw [List.findIdx?_map]
  exact congrArg (fun q => ts.findIdx? q) (funext hp)

theorem spanOf_fold (s : Span) : s.of (ts.map fold) = (s.of ts).map fold := by
  rw [Span.of, ← List.map_drop, ← List.map_take, Span.of]

theorem spelled_fold : spelled (ts.map fold) = foldCase (spelled ts) := by
  rw [spelled, spelled, foldCase_intercalate, List.map_map, List.map_map]
  rfl

/-! ## Parentheses -/

theorem depthsFrom_fold (d : Int) : depthsFrom d (ts.map fold) = depthsFrom d ts := by
  induction ts generalizing d with
  | nil => rfl
  | cons t ts ih => simp [depthsFrom, kind_fold_eq_iff t .rightParen rfl, ih]

@[simp] theorem depthAt_fold (i : Nat) : depthAt (ts.map fold) i = depthAt ts i := by
  rw [depthAt, depths, depthsFrom_fold, depthAt, depths]

def Placed.fold (p : Placed) : Placed :=
  { p with token := p.token.fold }

theorem placed_fold : placed (ts.map fold) = (placed ts).map Placed.fold := by
  rw [placed, depths, depthsFrom_fold, placed, depths, List.zip_map_left, List.zipIdx_map, List.map_map, List.map_map]
  rfl

theorem find?_placed_fold {p q : Placed → Bool} (hpq : ∀ x, q x.fold = p x) (ps : List Placed) :
    (ps.map Placed.fold).find? q = (ps.find? p).map Placed.fold := by
  rw [List.find?_map]
  exact congrArg (fun q => (ps.find? q).map Placed.fold) (funext hpq)

theorem index?_placed_fold {p q : Placed → Bool} (hpq : ∀ x, q x.fold = p x) :
    ((placed (ts.map fold)).find? q).map Placed.index = ((placed ts).find? p).map Placed.index := by
  rw [placed_fold, find?_placed_fold hpq, Option.map_map]
  rfl

theorem closingFrom_fold (i : Nat) (d : Int) : closingFrom i d (ts.map fold) = closingFrom i d ts := by
  induction ts generalizing i d with
  | nil => rfl
  | cons t ts ih => simp [closingFrom, kind_fold_eq_iff t .rightParen rfl, ih]

@[simp] theorem closing?_fold (start : Nat) : closing? (ts.map fold) start = closing? ts start := by
  rw [closing?, ← List.map_drop, closingFrom_fold, closing?]

theorem spansFrom_fold (i start : Nat) (d : Int) : spansFrom i start d (ts.map fold) = spansFrom i start d ts := by
  induction ts generalizing i start d with
  | nil => rfl
  | cons t ts ih => simp [spansFrom, kind_fold_eq_iff t .comma rfl, ih]

@[simp] theorem topLevelSpans_fold : topLevelSpans (ts.map fold) = topLevelSpans ts :=
  spansFrom_fold ts 0 0 0

theorem topLevel_fold : topLevel (ts.map fold) = (topLevel ts).map (List.map fold) := by
  rw [topLevel, topLevelSpans_fold, topLevel, List.map_map]
  exact List.map_congr_left fun s _ => spanOf_fold ts s

theorem unwrapped_fold : unwrapped (ts.map fold) = (unwrapped ts).map fold := by
  cases ts with
  | nil => rfl
  | cons t ts =>
    have hclosing := closing?_fold (t :: ts) 0
    rw [List.map_cons] at hclosing
    simp only [List.map_cons, unwrapped, kind_fold_eq_iff t .leftParen rfl, hclosing, List.length_map]
    split
    · rw [List.map_dropLast]
    · rfl

end Lists
end Token

/-! ## Names -/

def QualifiedName.fold (n : QualifiedName) : QualifiedName :=
  { n with parts := n.parts.map foldCase }

namespace QualifiedName

@[simp] theorem next_fold (n : QualifiedName) : n.fold.next = n.next := rfl

theorem text_fold (n : QualifiedName) : n.fold.text = foldCase n.text :=
  (foldCase_intercalate "." n.parts).symm

theorem furtherParts_fold (ts : List Token) : furtherParts (ts.map Token.fold) = (furtherParts ts).map foldCase := by
  fun_induction furtherParts ts with
  | case1 d t ts hdot part hpart ih =>
    simp only [List.map_cons, furtherParts, Token.kind_fold_eq_iff d .dot rfl, hdot, if_true, Token.identifier?_fold,
      hpart, Option.map_some, ih]
  | case2 d t ts hdot hpart =>
    simp only [List.map_cons, furtherParts, Token.kind_fold_eq_iff d .dot rfl, hdot, if_true, Token.identifier?_fold,
      hpart, Option.map_none, List.map_nil]
  | case3 d t ts hdot =>
    simp only [List.map_cons, furtherParts, Token.kind_fold_eq_iff d .dot rfl, hdot, if_false, List.map_nil]
  | case4 ts hno =>
    cases ts with
    | nil => rfl
    | cons d ts =>
      cases ts with
      | nil => rfl
      | cons t ts => exact absurd rfl (hno d t ts)

theorem ofTokens?_fold (start : Nat) (ts : List Token) :
    ofTokens? start (ts.map Token.fold) = (ofTokens? start ts).map fold := by
  cases ts with
  | nil => rfl
  | cons t ts =>
    rw [List.map_cons, ofTokens?, ofTokens?, Token.identifier?_fold, furtherParts_fold, List.length_map]
    cases t.identifier? <;> rfl

theorem read?_fold (ts : List Token) (start : Nat) :
    read? (ts.map Token.fold) start = (read? ts start).map fold := by
  rw [read?, ← List.map_drop, ofTokens?_fold, read?]

end QualifiedName

namespace Token

def NameList.fold (l : NameList) : NameList :=
  { l with names := l.names.map foldCase }

theorem headNames_fold (ts : List Token) : headNames (ts.map fold) = (headNames ts).map foldCase := by
  rw [headNames, topLevel_fold, List.filterMap_map, headNames, List.map_filterMap]
  refine List.filterMap_congr fun group _ => ?_
  rw [Function.comp_apply, List.head?_map]
  cases group.head? with
  | none => rfl
  | some t => exact t.identifier?_fold

theorem nameList?_fold (ts : List Token) (start : Nat) :
    nameList? (ts.map fold) start = (nameList? ts start).map NameList.fold := by
  rw [nameList?, List.getElem?_map, closing?_fold, nameList?]
  cases ts[start]? with
  | none => rfl
  | some t =>
    simp only [Option.map_some, kind_fold_eq_iff t .leftParen rfl]
    split
    · cases closing? ts start with
      | none => rfl
      | some close =>
        simp only [Option.map_some]
        rw [spanOf_fold, headNames_fold]
        rfl
    · rfl

end Token
end SqlLineage
