import Mathlib.Data.List.TakeWhile
import SqlLineage.Token.Scan

/-! # What a piece of a text depends on

A reader of pieces looks at most three characters beyond the piece that it reads.

* `Piece.read_form`: everything that a piece can be.
* `Quoted.closes`: whether a quoted text comes to its closing delimiter.
* `Piece.Resembles`: a text that looks like another one to a reader who stands in front of it.
* `Piece.read_replace`: what follows a piece may be replaced by a text that resembles it. -/

namespace SqlLineage
open SqlLineage.Text
set_option autoImplicit false

/-! ## Runs of characters -/

/-- What follows the longest run of characters may be replaced by what does not go on with it. -/
theorem Text.span_replace (p : Char → Bool) (cs : List Char) {ys : List Char} (hy : ys.head?.any p = false) :
    (cs.takeWhile p ++ ys).takeWhile p = cs.takeWhile p ∧ (cs.takeWhile p ++ ys).dropWhile p = ys := by
  have hall : ∀ c ∈ cs.takeWhile p, p c = true := fun c hc => List.mem_takeWhile_imp hc
  rw [List.takeWhile_append_of_pos hall, List.dropWhile_append_of_pos hall]
  cases ys with
  | nil => simp
  | cons y ys =>
    have hp : p y = false := by simpa using hy
    simp [hp]

theorem Text.any_head?_dropWhile (p : Char → Bool) (xs : List Char) : (xs.dropWhile p).head?.any p = false := by
  have h := List.head?_dropWhile_not p xs
  cases hh : (xs.dropWhile p).head? with
  | none => rfl
  | some x =>
    rw [hh] at h
    simpa using h

theorem Text.any_head?_beq_eq_false {c : Char} {cs : List Char} :
    cs.head?.any (· == c) = false ↔ cs.head? ≠ some c := by
  cases cs.head? <;> simp

/-- All code points of blanks. -/
def Text.blankCodes : List Nat :=
  [9, 10, 11, 12, 13, 32, 0x85, 0xA0, 0x1680, 0x2000, 0x2001, 0x2002, 0x2003, 0x2004, 0x2005, 0x2006, 0x2007,
   0x2008, 0x2009, 0x200A, 0x2028, 0x2029, 0x202F, 0x205F, 0x3000]

theorem Text.toNat_mem_blankCodes {c : Char} (h : isBlank c = true) : c.toNat ∈ blankCodes := by
  simp only [isBlank, Bool.or_eq_true, Bool.and_eq_true, decide_eq_true_eq, beq_iff_eq] at h
  simp only [blankCodes, List.mem_cons, List.not_mem_nil, or_false]
  omega

/-- What is so of every blank by its code point is so of every blank. -/
theorem Text.false_of_isBlank {p : Char → Bool} (hp : ∀ n ∈ blankCodes, p (Char.ofNat n) = false) {c : Char}
    (h : isBlank c = true) : p c = false := by
  have hc := hp c.toNat (toNat_mem_blankCodes h)
  rwa [Char.ofNat_toNat] at hc

theorem Text.isWordChar_of_isBlank {c : Char} (h : isBlank c = true) : isWordChar c = false :=
  false_of_isBlank (by decide +kernel) h

/-! ## Comments and quotes at the head of a text -/

/-- Whether the text begins with a comment. -/
def Comment.opens : List Char → Bool
  | '-' :: '-' :: _ => true
  | '/' :: '*' :: _ => true
  | _ => false

theorem Comment.opens_cons {c : Char} (h1 : c ≠ '-') (h2 : c ≠ '/') (cs : List Char) : opens (c :: cs) = false := by
  unfold opens
  split
  · next h => exact absurd (List.cons.inj h).1 h1
  · next h => exact absurd (List.cons.inj h).1 h2
  · rfl

theorem Comment.opens_append {c : Char} {cs : List Char} (rest : List Char) (h : opens (c :: cs) = true) :
    opens (c :: (cs ++ rest)) = true := by
  unfold opens at h
  split at h
  · next heq =>
    obtain ⟨rfl, rfl⟩ := List.cons.inj heq
    rfl
  · next heq =>
    obtain ⟨rfl, rfl⟩ := List.cons.inj heq
    rfl
  · cases h

namespace Quoted

/-- The character that ends what the character `c` begins, if `c` is a quote or an opening bracket. -/
def closer? (c : Char) : Option Char :=
  if Comment.isQuote c then some c else if c = '[' then some ']' else none

/-- Whether the text comes to the closing delimiter `d`. -/
def closes (d : Char) : List Char → Bool
  | [] => false
  | c :: cs =>
    if c = d then
      match cs with
      | [] => true
      | c' :: cs' => if c' = d ∧ d ≠ ']' then closes d cs' else true
    else closes d cs

theorem closes_of_ne {c d : Char} (h : c ≠ d) (cs : List Char) : closes d (c :: cs) = closes d cs := by
  rw [closes.eq_def]
  simp only [if_neg h]

theorem closes_doubled {d : Char} (h : d ≠ ']') (cs : List Char) : closes d (d :: d :: cs) = closes d cs := by
  simp [closes, h]

theorem read_of_ne {c d : Char} (h : c ≠ d) (cs : List Char) : read d (c :: cs) = (read d cs).push c [c] := by
  rw [read.eq_def]
  simp only [if_neg h]

theorem read_doubled {d : Char} (h : d ≠ ']') (cs : List Char) :
    read d (d :: d :: cs) = (read d cs).push d [d, d] := by
  simp [read, h]

theorem read_stop {d : Char} {x : List Char} (h : d = ']' ∨ x.head?.any (· == d) = false) :
    read d (d :: x) = ⟨[], [d], x⟩ := by
  cases x with
  | nil => simp [read]
  | cons y x =>
    have hy : ¬ (y = d ∧ d ≠ ']') := by
      rintro ⟨rfl, hd⟩
      simp [hd] at h
    simp [read, hy]

theorem closes_taken (d : Char) (cs : List Char) : closes d (read d cs).taken = closes d cs := by
  fun_induction read d cs with
  | case1 => rfl
  | case2 => simp [closes]
  | case3 c cs hd ih =>
    obtain ⟨rfl, hd⟩ := hd
    simp only [push, List.cons_append, List.nil_append]
    rw [closes_doubled hd, closes_doubled hd, ih]
  | case4 c cs hd => simp only [closes, if_true, if_neg hd]
  | case5 c cs hc ih =>
    simp only [push, List.cons_append, List.nil_append]
    rw [closes_of_ne hc, closes_of_ne hc, ih]

/-- What nothing closes goes to the end of the text. -/
theorem rest_of_open {d : Char} {cs : List Char} (h : closes d cs = false) : (read d cs).rest = [] := by
  fun_induction read d cs with
  | case1 => rfl
  | case2 => rfl
  | case3 c cs hd ih =>
    obtain ⟨rfl, hd⟩ := hd
    rw [closes_doubled hd] at h
    exact ih h
  | case4 c cs hd =>
    simp only [closes, if_true, if_neg hd] at h
    cases h
  | case5 c cs hc ih =>
    rw [closes_of_ne hc] at h
    exact ih h

theorem getLast?_taken {d : Char} {cs : List Char} (h : closes d cs = true) :
    (read d cs).taken.getLast? = some d := by
  fun_induction read d cs with
  | case1 => cases h
  | case2 => rfl
  | case3 c cs hd ih =>
    obtain ⟨rfl, hd⟩ := hd
    rw [closes_doubled hd] at h
    simp [push, List.getLast?_cons, ih h]
  | case4 => rfl
  | case5 c cs hc ih =>
    rw [closes_of_ne hc] at h
    simp [push, List.getLast?_cons, ih h]

theorem head?_rest {d : Char} {cs : List Char} (h : closes d cs = true) :
    d = ']' ∨ (read d cs).rest.head?.any (· == d) = false := by
  fun_induction read d cs with
  | case1 => cases h
  | case2 => exact .inr rfl
  | case3 c cs hd ih =>
    obtain ⟨rfl, hd⟩ := hd
    rw [closes_doubled hd] at h
    exact ih h
  | case4 c cs hd =>
    by_cases hb : d = ']'
    · exact .inl hb
    · exact .inr (by simpa [hb] using hd)
  | case5 c cs hc ih =>
    rw [closes_of_ne hc] at h
    exact ih h

/-- What is read up to a closing delimiter does not depend on what follows, unless that doubles the
delimiter. -/
theorem read_replace {d : Char} {cs : List Char} (h : closes d cs = true) {x : List Char}
    (hx : d = ']' ∨ x.head?.any (· == d) = false) :
    read d ((read d cs).taken ++ x) = ⟨(read d cs).value, (read d cs).taken, x⟩ := by
  fun_induction read d cs with
  | case1 => cases h
  | case2 => exact read_stop hx
  | case3 c cs hd ih =>
    obtain ⟨rfl, hd⟩ := hd
    rw [closes_doubled hd] at h
    simp only [push, List.cons_append, List.nil_append]
    rw [read_doubled hd, ih h]
    rfl
  | case4 => exact read_stop hx
  | case5 c cs hc ih =>
    rw [closes_of_ne hc] at h
    simp only [push, List.cons_append, List.nil_append]
    rw [read_of_ne hc, ih h]
    rfl

end Quoted

/-! ## Pieces -/

namespace Piece

/-- To a reader who stands in front of it, `ahead` looks like `rest`: it begins with the same character or
with a blank, and with no exponent unless `rest` does. -/
structure Resembles (ahead rest : List Char) : Prop where
  head : ∀ c ∈ ahead.head?, isBlank c = true ∨ rest.head? = some c
  exponent : startsWithExponent ahead = true → startsWithExponent rest = true

theorem Resembles.refl (rest : List Char) : Resembles rest rest where
  head := fun _ hc => .inr hc
  exponent := id

theorem Resembles.trans {a b c : List Char} (hab : Resembles a b) (hbc : Resembles b c) : Resembles a c where
  head := fun x hx => (hab.head x hx).elim .inl (hbc.head x)
  exponent := hbc.exponent ∘ hab.exponent

theorem Resembles.any_head {ahead rest : List Char} (h : Resembles ahead rest) {p : Char → Bool}
    (hp : ∀ n ∈ blankCodes, p (Char.ofNat n) = false) (hr : rest.head?.any p = false) :
    ahead.head?.any p = false := by
  cases hh : ahead.head? with
  | none => rfl
  | some c =>
    rcases h.head c hh with hb | hs
    · exact false_of_isBlank hp hb
    · rw [hs] at hr
      exact hr

/-- Everything that the piece behind the character `c` can be, if `cs` follows. -/
inductive Form (c : Char) (cs : List Char) : Prop where
  | line (x : List Char) (hc : c = '-') (hcs : cs = '-' :: x)
  | block (x : List Char) (hc : c = '/') (hcs : cs = '*' :: x)
  | blank (hc : isBlank c = true) (h : ∀ x, read c x = ⟨none, [], x⟩)
  | delimited (d : Char) (kind : String → Token.Kind) (hd : Quoted.closer? c = some d)
      (h : ∀ x, read c x = delimited d kind x)
  | number (hc : isNumberChar c = true) (hs : c.isDigit = true ∨ startsWithDigit cs = true)
      (h : ∀ x, c.isDigit = true ∨ startsWithDigit x = true → read c x = number c x)
  | word (hc : isWordChar c = true) (h : ∀ x, read c x = word c x)
  | operator (hc : c ∈ [':', '<', '>', '!', '=', '|']) (h : ∀ x, read c x = operator x)
  | single (kind : Token.Kind) (hq : Quoted.closer? c = none) (hb : isBlank c = false)
      (ho : Comment.opens (c :: cs) = false) (h : ∀ x, Resembles x cs → read c x = single kind x)

/-- The characters that have a meaning of their own, apart from operators of two signs. -/
def signs : List Char := ['(', ')', ',', ';', '*', '.', '-', '/', '\'', '"', '\x60', '[']

theorem read_of_not_sign {c : Char} (h : c ∉ signs) (cs : List Char) :
    read c cs =
      if c = ':' ∨ c = '<' ∨ c = '>' ∨ c = '!' ∨ c = '=' ∨ c = '|' then Piece.operator cs
      else if c.isDigit then Piece.number c cs
      else if isWordChar c then Piece.word c cs
      else if isBlank c then ⟨none, [], cs⟩
      else Piece.single .operator cs := by
  simp only [signs, List.mem_cons, List.not_mem_nil, or_false, not_or] at h
  unfold read
  split <;> first | rfl | simp_all

theorem read_of_isBlank {c : Char} (h : isBlank c = true) (cs : List Char) : read c cs = ⟨none, [], cs⟩ := by
  have hno : ∀ p : Char → Bool, (∀ n ∈ blankCodes, p (Char.ofNat n) = false) → p c = false :=
    fun p hp => false_of_isBlank hp h
  have hsigns := hno (fun c => signs.contains c) (by decide)
  have hop := hno (fun c => [':', '<', '>', '!', '=', '|'].contains c) (by decide)
  have hdigit := hno Char.isDigit (by decide)
  rw [read_of_not_sign (by simpa using hsigns), if_neg (by simpa using hop), hdigit, isWordChar_of_isBlank h, h]
  rfl

theorem form_of_not_sign {c : Char} (h : c ∉ signs) (cs : List Char) : Form c cs := by
  have hread := read_of_not_sign h
  by_cases ho : c = ':' ∨ c = '<' ∨ c = '>' ∨ c = '!' ∨ c = '=' ∨ c = '|'
  · exact .operator (by simpa using ho) fun x => by rw [hread, if_pos ho]
  · simp only [if_neg ho] at hread
    by_cases hd : c.isDigit = true
    · refine .number (by rw [isNumberChar, hd, Bool.true_or]) (.inl hd) fun x _ => ?_
      rw [hread, if_pos hd]
    · simp only [if_neg hd] at hread
      by_cases hw : isWordChar c = true
      · exact .word hw fun x => by rw [hread, if_pos hw]
      · simp only [if_neg hw] at hread
        by_cases hb : isBlank c = true
        · exact .blank hb fun x => by rw [hread, if_pos hb]
        · simp only [if_neg hb] at hread
          simp only [signs, List.mem_cons, List.not_mem_nil, or_false, not_or] at h
          refine .single .operator ?_ (by simpa using hb) (Comment.opens_cons ?_ ?_ cs) fun x _ => hread x
          · simp [Quoted.closer?, Comment.isQuote, h]
          · exact h.2.2.2.2.2.2.1
          · exact h.2.2.2.2.2.2.2.1

theorem form_dot (cs : List Char) : Form '.' cs := by
  by_cases hd : startsWithDigit cs = true
  · refine .number rfl (.inr hd) fun x hx => ?_
    rcases hx with hx | hx
    · cases hx
    · rw [read, if_pos hx]
  · refine .single .dot rfl rfl rfl fun x hx => ?_
    have hno := hx.any_head (p := Char.isDigit) (by decide) (by simpa [startsWithDigit] using hd)
    rw [read, if_neg (by simp [startsWithDigit, hno])]

theorem form_dash (cs : List Char) : Form '-' cs := by
  by_cases hd : cs.head? = some '-'
  · obtain ⟨x, rfl⟩ := List.head?_eq_some_iff.mp hd
    exact .line x rfl rfl
  · refine .single .operator rfl rfl ?_ fun x hx => ?_
    · unfold Comment.opens
      split <;> simp_all
    · have hno := hx.any_head (p := (· == '-')) (by decide) (any_head?_beq_eq_false.mpr hd)
      rw [read, if_neg (any_head?_beq_eq_false.mp hno)]

theorem form_slash (cs : List Char) : Form '/' cs := by
  by_cases hd : cs.head? = some '*'
  · obtain ⟨x, rfl⟩ := List.head?_eq_some_iff.mp hd
    exact .block x rfl rfl
  · refine .single .operator rfl rfl ?_ fun x hx => ?_
    · unfold Comment.opens
      split <;> simp_all
    · have hno := hx.any_head (p := (· == '*')) (by decide) (any_head?_beq_eq_false.mpr hd)
      rw [read]
      rintro r rfl
      simp at hno

theorem read_form (c : Char) (cs : List Char) : Form c cs := by
  by_cases h : c ∈ signs
  · simp only [signs, List.mem_cons, List.not_mem_nil, or_false] at h
    rcases h with rfl | rfl | rfl | rfl | rfl | rfl | rfl | rfl | rfl | rfl | rfl | rfl
    · exact .single .leftParen rfl rfl rfl fun _ _ => rfl
    · exact .single .rightParen rfl rfl rfl fun _ _ => rfl
    · exact .single .comma rfl rfl rfl fun _ _ => rfl
    · exact .single .semicolon rfl rfl rfl fun _ _ => rfl
    · exact .single .star rfl rfl rfl fun _ _ => rfl
    · exact form_dot cs
    · exact form_dash cs
    · exact form_slash cs
    · exact .delimited '\'' .literal rfl fun _ => rfl
    · exact .delimited '"' identifier rfl fun _ => rfl
    · exact .delimited '\x60' identifier rfl fun _ => rfl
    · exact .delimited ']' identifier rfl fun _ => rfl
  · exact form_of_not_sign h cs

theorem read_of_closer {c d : Char} (h : Quoted.closer? c = some d) :
    ∃ kind, ∀ cs, read c cs = delimited d kind cs := by
  unfold Quoted.closer? at h
  split at h
  · next hq =>
    obtain rfl := Option.some.inj h
    simp only [Comment.isQuote, Bool.or_eq_true, beq_iff_eq] at hq
    rcases hq with (rfl | rfl) | rfl
    · exact ⟨.literal, fun _ => rfl⟩
    · exact ⟨identifier, fun _ => rfl⟩
    · exact ⟨identifier, fun _ => rfl⟩
  · split at h
    · next hc =>
      subst hc
      obtain rfl := Option.some.inj h
      exact ⟨identifier, fun _ => rfl⟩
    · cases h

/-! ## Replacing what follows a piece -/

theorem cons_of_startsWithExponent {cs : List Char} (h : startsWithExponent cs = true) :
    ∃ e c ds, cs = e :: c :: ds := by
  unfold startsWithExponent at h
  split at h
  · exact ⟨_, _, _, rfl⟩
  · cases h

theorem startsWithExponent_append {cs : List Char} (h : startsWithExponent cs = true) (rest : List Char) :
    startsWithExponent (cs ++ rest) = true := by
  obtain ⟨e, c, ds, rfl⟩ := cons_of_startsWithExponent h
  cases ds with
  | nil => simp_all [startsWithExponent, startsWithDigit]
  | cons d ds => exact h

/-- A text looks the same if something is put behind it. -/
theorem resembles_append (cs rest : List Char) : Resembles cs (cs ++ rest) where
  head := by
    intro c hc
    rw [Option.mem_def] at hc
    rw [List.head?_append, hc]
    exact .inr rfl
  exponent := fun h => startsWithExponent_append h rest

theorem exponent_of_startsWith {e c : Char} {cs : List Char} (h : startsWithExponent (e :: c :: cs) = true) :
    exponent (e :: c :: cs) = (e :: c :: cs.takeWhile Char.isDigit, cs.dropWhile Char.isDigit) := by
  rw [exponent, if_pos h]
  rfl

theorem exponent_replace (cs : List Char) {x : List Char} (hx : Resembles x (exponent cs).2) :
    exponent ((exponent cs).1 ++ x) = ((exponent cs).1, x) := by
  by_cases h : startsWithExponent cs = true
  · obtain ⟨e, c, ds, rfl⟩ := cons_of_startsWithExponent h
    rw [exponent_of_startsWith h] at hx ⊢
    obtain ⟨htake, hdrop⟩ := span_replace Char.isDigit ds (hx.any_head (by decide) (any_head?_dropWhile _ ds))
    have hstart : startsWithExponent (e :: c :: (ds.takeWhile Char.isDigit ++ x)) = true := by
      simp only [startsWithExponent, startsWithDigit] at h ⊢
      cases ds with
      | nil => simp_all
      | cons y ds => by_cases hy : y.isDigit = true <;> simp_all
    simp only [List.cons_append]
    rw [exponent_of_startsWith hstart, htake, hdrop]
  · have hnone : exponent cs = ([], cs) := by rw [exponent, if_neg h]
    rw [hnone] at hx ⊢
    rw [List.nil_append, exponent, if_neg (fun hs => h (hx.exponent hs))]

theorem number_replace {c : Char} {cs x : List Char} (hx : Resembles x (number c cs).rest) :
    number c ((number c cs).taken ++ x) = { number c cs with rest := x } := by
  have hexp := exponent_replace (cs.dropWhile isNumberChar) hx
  have hhead : ((exponent (cs.dropWhile isNumberChar)).1 ++ x).head?.any isNumberChar = false := by
    have hstop := any_head?_dropWhile isNumberChar cs
    have hall := exponent_append (cs.dropWhile isNumberChar)
    have hrest : (number c cs).rest = (exponent (cs.dropWhile isNumberChar)).2 := rfl
    cases he : (exponent (cs.dropWhile isNumberChar)).1 with
    | nil =>
      rw [he, List.nil_append] at hall
      exact hx.any_head (by decide) (by rw [hrest, hall]; exact hstop)
    | cons e es =>
      rw [he] at hall
      rw [← hall] at hstop
      exact hstop
  obtain ⟨htake, hdrop⟩ := span_replace isNumberChar cs hhead
  simp only [number, List.append_assoc, htake, hdrop, hexp]

theorem startsWithDigit_number {cs : List Char} (h : startsWithDigit cs = true) (c : Char) (x : List Char) :
    startsWithDigit ((number c cs).taken ++ x) = true := by
  cases cs with
  | nil => cases h
  | cons d cs =>
    have hd : d.isDigit = true := h
    have hn : isNumberChar d = true := by rw [isNumberChar, hd, Bool.true_or]
    simp [number, startsWithDigit, hn, hd]

theorem word_replace {c : Char} {cs x : List Char} (hx : Resembles x (word c cs).rest) :
    word c ((word c cs).taken ++ x) = { word c cs with rest := x } := by
  have hhead := hx.any_head (p := isWordChar) (by decide +kernel) (any_head?_dropWhile _ cs)
  obtain ⟨htake, hdrop⟩ := span_replace isWordChar cs hhead
  simp only [word, htake, hdrop]

/-- Whether the character is the second sign of an operator. -/
def isSecondSign (c : Char) : Bool :=
  c == ':' || c == '=' || c == '>' || c == '|'

theorem operator_cons {c : Char} (h : isSecondSign c = true) (cs : List Char) :
    operator (c :: cs) = ⟨some .operator, [c], cs⟩ := by
  rw [operator, if_pos (by simpa [isSecondSign, or_assoc] using h)]

theorem operator_of_head {cs : List Char} (h : cs.head?.any isSecondSign = false) :
    operator cs = ⟨some .operator, [], cs⟩ := by
  cases cs with
  | nil => rfl
  | cons c cs => rw [operator, if_neg (by simpa [isSecondSign, or_assoc, and_assoc] using h)]

theorem operator_replace {cs x : List Char} (hx : Resembles x (operator cs).rest) :
    operator ((operator cs).taken ++ x) = { operator cs with rest := x } := by
  by_cases h : cs.head?.any isSecondSign = true
  · cases cs with
    | nil => cases h
    | cons c cs =>
      rw [operator_cons h]
      exact operator_cons h x
  · rw [Bool.not_eq_true] at h
    rw [operator_of_head h] at hx ⊢
    exact operator_of_head (hx.any_head (by decide) h)

theorem delimited_replace {d : Char} (kind : String → Token.Kind) {cs x : List Char} (hcs : Quoted.closes d cs = true)
    (hd : ∀ n ∈ blankCodes, (Char.ofNat n == d) = false) (hx : Resembles x (delimited d kind cs).rest) :
    delimited d kind ((delimited d kind cs).taken ++ x) = { delimited d kind cs with rest := x } := by
  have hread := Quoted.read_replace hcs ((Quoted.head?_rest hcs).imp_right (hx.any_head hd))
  simp only [delimited, hread]

theorem closer?_eq_some {c d : Char} (h : Quoted.closer? c = some d) :
    d = '\'' ∨ d = '"' ∨ d = '\x60' ∨ d = ']' := by
  unfold Quoted.closer? at h
  split at h
  · next hq =>
    obtain rfl := Option.some.inj h
    simp only [Comment.isQuote, Bool.or_eq_true, beq_iff_eq] at hq
    rcases hq with (rfl | rfl) | rfl <;> simp
  · split at h
    · exact .inr (.inr (.inr (Option.some.inj h).symm))
    · cases h

theorem not_blank_of_closer {c d : Char} (h : Quoted.closer? c = some d) :
    ∀ n ∈ blankCodes, (Char.ofNat n == d) = false := by
  rcases closer?_eq_some h with rfl | rfl | rfl | rfl <;> decide

/-- What follows a piece may be replaced by what resembles it, if the piece is no comment and nothing in it
is left open. -/
theorem read_replace {c : Char} {cs x : List Char} (ho : Comment.opens (c :: cs) = false)
    (hc : (Quoted.closer? c).all (Quoted.closes · cs) = true) (hx : Resembles x (read c cs).rest) :
    read c ((read c cs).taken ++ x) = { read c cs with rest := x } := by
  cases read_form c cs with
  | line y hc hcs =>
    subst hc hcs
    cases ho
  | block y hc hcs =>
    subst hc hcs
    cases ho
  | blank _ h => rw [h, h]; rfl
  | delimited d kind hd h =>
    rw [hd] at hc
    rw [h] at hx
    rw [h, h]
    exact delimited_replace kind hc (not_blank_of_closer hd) hx
  | number hc hs h =>
    rw [h cs hs] at hx ⊢
    rw [h _ (hs.imp_right fun hd => startsWithDigit_number hd c x)]
    exact number_replace hx
  | word _ h =>
    rw [h] at hx
    rw [h, h]
    exact word_replace hx
  | operator _ h =>
    rw [h] at hx
    rw [h, h]
    exact operator_replace hx
  | single kind _ _ _ h =>
    rw [h cs (.refl cs)] at hx ⊢
    exact h x hx

end Piece
end SqlLineage
