import SqlLineage.Proofs.Case.Letter
import SqlLineage.Proofs.Token.Piece
import SqlLineage.Script

/-! # Reading a text in capitals

Comments, statements and tokens of a text are found by signs, blanks and classes of characters. The text in capitals
has the same ones, in capitals.

* `Comment.strip_foldCase`, `Script.statements_foldCase`: comments and statements.
* `Token.fold`: a token in capitals.
* `Token.scan_foldCase`: the tokens. -/

namespace SqlLineage
open SqlLineage.Text
set_option autoImplicit false

/-! ## Comments -/

namespace Comment

theorem line_map_toUpper (cs : List Char) :
    line (cs.map Char.toUpper) = ((line cs).1.map Char.toUpper, (line cs).2.map Char.toUpper) := by
  have hnewline : (fun c : Char => c != '\n') ∘ Char.toUpper = fun c => c != '\n' := by
    funext c
    rw [Function.comp_apply, bne, bne, toUpper_beq (by decide)]
  rw [line, line, List.takeWhile_map, List.dropWhile_map, hnewline]

theorem block_map_toUpper (cs : List Char) :
    block (cs.map Char.toUpper) = ((block cs).1.map Char.toUpper, (block cs).2.map Char.toUpper) := by
  have hstar : ∀ c : Char, c.toUpper = '*' → c = '*' := fun c => (toUpper_eq_iff (by decide)).mp
  have hslash : ∀ c : Char, c.toUpper = '/' → c = '/' := fun c => (toUpper_eq_iff (by decide)).mp
  fun_induction block cs with
  | case1 => rfl
  | case2 cs => rfl
  | case3 c cs hno ih =>
    rw [List.map_cons, block, ih]
    · rfl
    · intro rest hc hrest
      obtain ⟨c', cs', rfl, hc', -⟩ := List.map_eq_cons_iff.mp hrest
      exact hno cs' (hstar c hc) (by rw [hslash c' hc'])

theorem through_map_toUpper {q : Char} (hq : isSign q = true) (cs : List Char) :
    through q (cs.map Char.toUpper) = ((through q cs).1.map Char.toUpper, (through q cs).2.map Char.toUpper) := by
  induction cs with
  | nil => rfl
  | cons c cs ih =>
    simp only [List.map_cons, through, toUpper_eq_iff hq, ih]
    split <;> rfl

theorem isQuote_toUpper (c : Char) : isQuote c.toUpper = isQuote c := by
  rw [isQuote, toUpper_beq (by decide), toUpper_beq (by decide), toUpper_beq (by decide), isQuote]

theorem isSign_of_isQuote {c : Char} (h : isQuote c = true) : isSign c = true := by
  simp only [isQuote, Bool.or_eq_true, beq_iff_eq] at h
  rcases h with (rfl | rfl) | rfl <;> decide

theorem remove_map_toUpper (cs : List Char) : remove (cs.map Char.toUpper) = (remove cs).map Char.toUpper := by
  have hhead : ∀ (cs : List Char) {d : Char}, isSign d = true →
      ((cs.map Char.toUpper).head? = some d ↔ cs.head? = some d) := by
    intro cs d hd
    cases cs with
    | nil => rfl
    | cons c cs => simp [toUpper_eq_iff hd]
  fun_induction remove cs with
  | case1 => rw [List.map_nil, remove]
  | case2 c cs h ih =>
    rw [List.map_cons, remove, if_pos, line_map_toUpper, ih]
    rw [toUpper_eq_iff (by decide), hhead cs (by decide)]
    exact h
  | case3 c cs h1 h2 ih =>
    rw [List.map_cons, remove, if_neg, if_pos, ← List.map_tail, block_map_toUpper, ih]
    · rfl
    · rw [toUpper_eq_iff (by decide), hhead cs (by decide)]
      exact h2
    · rw [toUpper_eq_iff (by decide), hhead cs (by decide)]
      exact h1
  | case4 c cs h1 h2 h3 ih =>
    have hc : c.toUpper = c := toUpper_of_isSign (isSign_of_isQuote h3)
    rw [List.map_cons, remove, if_neg, if_neg, if_pos (by rw [isQuote_toUpper, h3]), hc,
      through_map_toUpper (isSign_of_isQuote h3), ih, ← List.map_append, List.map_cons, hc]
    · rw [toUpper_eq_iff (by decide), hhead cs (by decide)]
      exact h2
    · rw [toUpper_eq_iff (by decide), hhead cs (by decide)]
      exact h1
  | case5 c cs h1 h2 h3 ih =>
    rw [List.map_cons, remove, if_neg, if_neg, if_neg (by rw [isQuote_toUpper]; exact h3), ih, List.map_cons]
    · rw [toUpper_eq_iff (by decide), hhead cs (by decide)]
      exact h2
    · rw [toUpper_eq_iff (by decide), hhead cs (by decide)]
      exact h1

theorem strip_foldCase (s : String) : strip (foldCase s) = foldCase (strip s) := by
  rw [← String.toList_inj, toList_strip, toList_foldCase, toList_foldCase, toList_strip, remove_map_toUpper,
    trim_map_toUpper]

end Comment

/-! ## Statements -/

namespace Script

theorem isSeparator_map_toUpper (l : List Char) : isSeparator (l.map Char.toUpper) = isSeparator l := by
  rw [isSeparator, trim_map_toUpper, ← foldCase_ofList, sameFold_foldCase_left, isSeparator]

theorem blocks_map_toUpper (ls : List (List Char)) :
    blocks (ls.map (List.map Char.toUpper)) = (blocks ls).map (List.map Char.toUpper) := by
  induction ls with
  | nil => rfl
  | cons l ls ih =>
    rw [List.map_cons, blocks, blocks, isSeparator_map_toUpper, ih]
    split
    · rfl
    · cases blocks ls with
      | nil => simp
      | cons b bs => simp

theorem depthAfter_toUpper (depth : Nat) (c : Char) : depthAfter depth c.toUpper = depthAfter depth c := by
  have hopen : c.toUpper = '(' ↔ c = '(' := toUpper_eq_iff (by decide)
  have hclose : c.toUpper = ')' ↔ c = ')' := toUpper_eq_iff (by decide)
  simp only [depthAfter, hopen, hclose]

theorem cut_map_toUpper (depth : Nat) (cs : List Char) :
    cut depth (cs.map Char.toUpper) = (cut depth cs).map (List.map Char.toUpper) := by
  induction cs generalizing depth with
  | nil => rfl
  | cons c cs ih =>
    have hsemicolon : c.toUpper = ';' ↔ c = ';' := toUpper_eq_iff (by decide)
    simp only [List.map_cons, cut, hsemicolon, depthAfter_toUpper, ih]
    split
    · rfl
    · cases cut (depthAfter depth c) cs with
      | nil => rfl
      | cons p ps => rfl

theorem blockStatements_map_toUpper (block : List Char) :
    blockStatements (block.map Char.toUpper) = (blockStatements block).map (List.map Char.toUpper) := by
  have htrim : trim ∘ List.map Char.toUpper = List.map Char.toUpper ∘ trim := funext trim_map_toUpper
  rw [blockStatements, blockStatements, cut_map_toUpper, List.map_map, htrim, ← List.map_map, List.filter_map]
  congr 2
  funext cs
  rw [Function.comp_apply, List.isEmpty_map]

theorem statements_foldCase (s : String) : statements (foldCase s) = (statements s).map foldCase := by
  have hblocks : ∀ bs : List (List Char), (bs.map (List.map Char.toUpper)).flatMap blockStatements =
      (bs.flatMap blockStatements).map (List.map Char.toUpper) := by
    intro bs
    rw [List.flatMap_map, List.map_flatMap]
    exact List.flatMap_congr fun b _ => blockStatements_map_toUpper b
  rw [statements, toList_foldCase, lines_map_toUpper, blocks_map_toUpper, hblocks, statements, List.map_map,
    List.map_map]
  exact List.map_congr_left fun cs _ => (foldCase_ofList cs).symm

end Script

/-! ## Tokens in capitals -/

def Token.Kind.fold : Token.Kind → Token.Kind
  | .word text => .word (foldCase text)
  | .quoted name => .quoted (foldCase name)
  | .literal value => .literal (foldCase value)
  | .number text => .number (foldCase text)
  | k => k

/-- The token with all its texts in capitals, where it was. -/
def Token.fold (t : Token) : Token :=
  { t with kind := t.kind.fold, lexeme := foldCase t.lexeme }

namespace Position

theorem step_toUpper (p : Position) (c : Char) : p.step c.toUpper = p.step c := by
  have hnewline : c.toUpper = '\n' ↔ c = '\n' := toUpper_eq_iff (by decide)
  simp only [step, hnewline]

theorem after_map_toUpper (p : Position) (cs : List Char) : p.after (cs.map Char.toUpper) = p.after cs := by
  induction cs generalizing p with
  | nil => rfl
  | cons c cs ih => rw [List.map_cons, after_cons, after_cons, step_toUpper, ih]

end Position

/-! ## Pieces -/

def Quoted.fold (q : Quoted) : Quoted :=
  ⟨q.value.map Char.toUpper, q.taken.map Char.toUpper, q.rest.map Char.toUpper⟩

theorem Quoted.read_map_toUpper {d : Char} (hd : isSign d = true) (cs : List Char) :
    Quoted.read d (cs.map Char.toUpper) = (Quoted.read d cs).fold := by
  have hself := toUpper_of_isSign hd
  fun_induction Quoted.read d cs with
  | case1 => rfl
  | case2 => simp [read, fold, hself]
  | case3 c cs h ih =>
    rw [List.map_cons, List.map_cons, hself, h.1, hself, read_doubled h.2, ih]
    simp [fold, push, hself]
  | case4 c cs h =>
    have h' : ¬(c.toUpper = d ∧ d ≠ ']') := by rwa [toUpper_eq_iff hd]
    rw [List.map_cons, List.map_cons, hself, read, if_pos rfl]
    simp only [if_neg h']
    simp [fold, hself]
  | case5 c cs hc ih =>
    have hc' : ¬c.toUpper = d := by rwa [toUpper_eq_iff hd]
    rw [List.map_cons, read_of_ne hc', ih]
    simp [fold, push]

theorem isNumberChar_toUpper (c : Char) : isNumberChar c.toUpper = isNumberChar c := by
  rw [isNumberChar, isDigit_toUpper, toUpper_beq (by decide), isNumberChar]

theorem startsWithDigit_map_toUpper (cs : List Char) :
    startsWithDigit (cs.map Char.toUpper) = startsWithDigit cs := by
  cases cs with
  | nil => rfl
  | cons c cs => exact isDigit_toUpper c

theorem startsWithExponent_map_toUpper (cs : List Char) :
    startsWithExponent (cs.map Char.toUpper) = startsWithExponent cs := by
  have hletter : ∀ e : Char, (e.toUpper == 'e' || e.toUpper == 'E') = (e == 'e' || e == 'E') := by
    intro e
    rcases toUpper_cases e with h | ⟨hlow, hhigh, h⟩
    · rw [h]
    · rw [Bool.eq_iff_iff]
      simp only [Bool.or_eq_true, beq_iff_eq, ← Char.toNat_inj, h]
      show e.toNat - 32 = 101 ∨ e.toNat - 32 = 69 ↔ e.toNat = 101 ∨ e.toNat = 69
      omega
  match cs with
  | [] => rfl
  | [_] => rfl
  | e :: c :: cs =>
    rw [List.map_cons, List.map_cons, startsWithExponent, hletter, isDigit_toUpper, toUpper_beq (by decide),
      toUpper_beq (by decide), startsWithDigit_map_toUpper, startsWithExponent]

theorem exponent_map_toUpper (cs : List Char) :
    exponent (cs.map Char.toUpper) = ((exponent cs).1.map Char.toUpper, (exponent cs).2.map Char.toUpper) := by
  have hdigit : Char.isDigit ∘ Char.toUpper = Char.isDigit := funext isDigit_toUpper
  rw [exponent, exponent, startsWithExponent_map_toUpper, ← List.map_take, ← List.map_drop, List.takeWhile_map,
    List.dropWhile_map, hdigit]
  split
  · rw [List.map_append]
  · rfl

namespace Piece

def fold (p : Piece) : Piece :=
  ⟨p.kind.map Token.Kind.fold, p.taken.map Char.toUpper, p.rest.map Char.toUpper⟩

theorem single_map_toUpper {kind : Token.Kind} (hkind : kind.fold = kind) (cs : List Char) :
    single kind (cs.map Char.toUpper) = (single kind cs).fold := by
  rw [single, single, fold, Option.map_some, hkind]
  rfl

theorem number_map_toUpper (c : Char) (cs : List Char) :
    number c.toUpper (cs.map Char.toUpper) = (number c cs).fold := by
  have hdigit : isNumberChar ∘ Char.toUpper = isNumberChar := funext isNumberChar_toUpper
  rw [number, number, List.takeWhile_map, List.dropWhile_map, hdigit, exponent_map_toUpper]
  simp only [fold, Option.map_some, Token.Kind.fold, foldCase_ofList, List.map_cons, List.map_append]

theorem word_map_toUpper (c : Char) (cs : List Char) :
    word c.toUpper (cs.map Char.toUpper) = (word c cs).fold := by
  have hword : isWordChar ∘ Char.toUpper = isWordChar := funext isWordChar_toUpper
  rw [word, word, List.takeWhile_map, List.dropWhile_map, hword]
  simp only [fold, Option.map_some, Token.Kind.fold, foldCase_ofList, List.map_cons]

theorem operator_map_toUpper (cs : List Char) : operator (cs.map Char.toUpper) = (operator cs).fold := by
  cases cs with
  | nil => rfl
  | cons c cs =>
    have hsign : ∀ d, isSign d = true → (c.toUpper = d ↔ c = d) := fun d => toUpper_eq_iff
    simp only [List.map_cons, operator, hsign ':' (by decide), hsign '=' (by decide), hsign '>' (by decide),
      hsign '|' (by decide)]
    split
    · next h =>
      have hc : c.toUpper = c := by
        rcases h with rfl | rfl | rfl | rfl <;> decide
      rw [hc]
      simp [fold, hc, Token.Kind.fold]
    · rfl

theorem delimited_map_toUpper {d : Char} (hd : isSign d = true) {kind : String → Token.Kind}
    (hkind : ∀ s, kind (foldCase s) = (kind s).fold) (cs : List Char) :
    delimited d kind (cs.map Char.toUpper) = (delimited d kind cs).fold := by
  rw [delimited, delimited, Quoted.read_map_toUpper hd]
  simp only [Quoted.fold, fold, Option.map_some, ← foldCase_ofList, hkind]

theorem identifier_foldCase (s : String) : identifier (foldCase s) = (identifier s).fold := by
  rw [identifier, identifier, Token.Kind.fold, foldCase_trimmed]

theorem head?_map_toUpper {d : Char} (hd : isSign d = true) (cs : List Char) :
    (cs.map Char.toUpper).head? = some d ↔ cs.head? = some d := by
  cases cs with
  | nil => rfl
  | cons c cs => simp [toUpper_eq_iff hd]

theorem read_sign_toUpper {c : Char} (hc : c ∈ signs) (cs : List Char) :
    read c (cs.map Char.toUpper) = (read c cs).fold := by
  simp only [signs, List.mem_cons, List.not_mem_nil, or_false] at hc
  rcases hc with rfl | rfl | rfl | rfl | rfl | rfl | rfl | rfl | rfl | rfl | rfl | rfl
  · exact single_map_toUpper rfl cs
  · exact single_map_toUpper rfl cs
  · exact single_map_toUpper rfl cs
  · exact single_map_toUpper rfl cs
  · exact single_map_toUpper rfl cs
  · simp only [read, startsWithDigit_map_toUpper]
    split
    · exact number_map_toUpper '.' cs
    · exact single_map_toUpper rfl cs
  · simp only [read, head?_map_toUpper (show isSign '-' = true by decide), Comment.line_map_toUpper]
    split
    · rfl
    · exact single_map_toUpper rfl cs
  · cases cs with
    | nil => rfl
    | cons d cs =>
      by_cases hd : d = '*'
      · subst hd
        show Piece.mk none ('*' :: (Comment.block (cs.map Char.toUpper)).1) _ = _
        rw [Comment.block_map_toUpper]
        rfl
      · have hread : ∀ (d : Char) (cs : List Char), d ≠ '*' → read '/' (d :: cs) = single .operator (d :: cs) := by
          intro d cs hd
          rw [read]
          rintro r ⟨rfl, -⟩
          exact hd rfl
        rw [List.map_cons, hread _ _ (by rwa [Ne, toUpper_eq_iff (by decide)]), hread d cs hd]
        rfl
  · exact delimited_map_toUpper (by decide) (fun s => rfl) cs
  · exact delimited_map_toUpper (by decide) identifier_foldCase cs
  · exact delimited_map_toUpper (by decide) identifier_foldCase cs
  · exact delimited_map_toUpper (by decide) identifier_foldCase cs

theorem read_map_toUpper (c : Char) (cs : List Char) : read c.toUpper (cs.map Char.toUpper) = (read c cs).fold := by
  have hall : ∀ d ∈ signs, isSign d = true := by simp [signs, isSign]
  by_cases hc : c ∈ signs
  · rw [toUpper_of_isSign (hall c hc)]
    exact read_sign_toUpper hc cs
  · have hc' : c.toUpper ∉ signs := fun hmem => hc ((toUpper_eq_iff (hall _ hmem)).mp rfl ▸ hmem)
    have hsign : ∀ d, isSign d = true → (c.toUpper = d ↔ c = d) := fun d => toUpper_eq_iff
    rw [read_of_not_sign hc', read_of_not_sign hc]
    simp only [hsign ':' (by decide), hsign '<' (by decide), hsign '>' (by decide), hsign '!' (by decide),
      hsign '=' (by decide), hsign '|' (by decide), isDigit_toUpper, isWordChar_toUpper, isBlank_toUpper]
    split
    · exact operator_map_toUpper cs
    · split
      · exact number_map_toUpper c cs
      · split
        · exact word_map_toUpper c cs
        · split
          · rfl
          · exact single_map_toUpper rfl cs

end Piece

/-! ## All tokens of a text -/

namespace Token

theorem scanFrom_map_toUpper (p : Position) (cs : List Char) :
    scanFrom p (cs.map Char.toUpper) = (scanFrom p cs).map fold := by
  fun_induction scanFrom p cs with
  | case1 p => rw [List.map_nil, scanFrom, List.map_nil]
  | case2 p c cs piece p' hkind ih =>
    have hread := Piece.read_map_toUpper c cs
    rw [List.map_cons, scanFrom, hread]
    have hkind : (Piece.read c cs).kind = none := hkind
    simp only [Piece.fold, hkind, Option.map_none]
    rw [← List.map_cons, Position.after_map_toUpper]
    exact ih
  | case3 p c cs piece p' kind hkind ih =>
    have hread := Piece.read_map_toUpper c cs
    have hkind : (Piece.read c cs).kind = some kind := hkind
    rw [List.map_cons, scanFrom, hread]
    simp only [Piece.fold, hkind, Option.map_some]
    rw [← List.map_cons, Position.after_map_toUpper, ← foldCase_ofList, ih]
    rfl

/-- The tokens of a text in capitals are those of the text, in capitals. -/
theorem scan_foldCase (s : String) : scan (foldCase s) = (scan s).map fold := by
  rw [scan, toList_foldCase, scanFrom_map_toUpper, scan]

end Token
end SqlLineage
