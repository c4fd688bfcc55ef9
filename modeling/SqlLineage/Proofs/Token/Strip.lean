import SqlLineage.Proofs.Text.Line
import SqlLineage.Proofs.Token.Piece

/-! # The tokens of a text without comments

Removing comments and reading tokens are two scanners with rules of their own. Both know the three quotes;
only the second one knows brackets.

* `Token.readings`: what is read from a text, apart from the places.
* `Piece.remove_token`: a token is copied as it stands, if it is closed and is no bracketed
  identifier that looks like a quote or a comment inside.
* `Comment.keeps_tokens_iff`: the tokens of a text are those of the text without comments just when no
  bracketed identifier holds what looks like a comment.
* `Comment.loses_dashes_behind_bracketed_quote`: a quote in a bracketed identifier can do as much harm. -/

namespace SqlLineage
open SqlLineage.Text
set_option autoImplicit false

/-! ## What is read from a text -/

/-- An induction over the pieces of a text. -/
theorem Piece.induction {motive : List Char → Prop} (nil : motive [])
    (cons : ∀ c cs, motive (read c cs).rest → motive (c :: cs)) (cs : List Char) : motive cs := by
  induction hn : cs.length using Nat.strong_induction_on generalizing cs with
  | _ n ih =>
    cases cs with
    | nil => exact nil
    | cons c cs =>
      have hlt := length_rest_le c cs
      rw [List.length_cons] at hn
      exact cons c cs (ih _ (by omega) _ rfl)

namespace Token

/-- A token apart from its place. -/
def reading (t : Token) : Kind × String := (t.kind, t.lexeme)

def readings (cs : List Char) : List (Kind × String) := (scanFrom .start cs).map reading

theorem map_reading_scanFrom (p : Position) (cs : List Char) : (scanFrom p cs).map reading = readings cs := by
  unfold readings
  generalize Position.start = q
  induction cs using Piece.induction generalizing p q with
  | nil => rw [scanFrom, scanFrom]
  | cons c cs ih =>
    rw [scanFrom, scanFrom]
    cases (Piece.read c cs).kind with
    | none => exact ih _ _
    | some kind => exact congrArg (List.cons _) (ih _ _)

@[simp] theorem readings_nil : readings [] = [] := by
  rw [readings, scanFrom]
  rfl

theorem readings_skip {c : Char} {cs : List Char} (h : (Piece.read c cs).kind = none) :
    readings (c :: cs) = readings (Piece.read c cs).rest := by
  rw [readings, scanFrom, h]
  exact map_reading_scanFrom _ _

theorem readings_token {c : Char} {cs : List Char} {kind : Kind} (h : (Piece.read c cs).kind = some kind) :
    readings (c :: cs) =
      (kind, String.ofList (c :: (Piece.read c cs).taken)) :: readings (Piece.read c cs).rest := by
  rw [readings, scanFrom, h]
  exact congrArg (List.cons _) (map_reading_scanFrom _ _)

theorem readings_blank {c : Char} (h : isBlank c = true) (cs : List Char) : readings (c :: cs) = readings cs := by
  have hread := Piece.read_of_isBlank h cs
  rw [readings_skip (by rw [hread]), hread]

theorem readings_blanks {bs : List Char} (h : ∀ b ∈ bs, isBlank b = true) (cs : List Char) :
    readings (bs ++ cs) = readings cs := by
  induction bs with
  | nil => rfl
  | cons b bs ih =>
    rw [List.forall_mem_cons] at h
    rw [List.cons_append, readings_blank h.1, ih h.2]

end Token

/-! ## Removing comments -/

namespace Comment

theorem opens_iff {c : Char} {cs : List Char} :
    opens (c :: cs) = true ↔ (c = '-' ∧ cs.head? = some '-') ∨ (c = '/' ∧ cs.head? = some '*') := by
  unfold opens
  split
  · next h =>
    obtain ⟨rfl, rfl⟩ := List.cons.inj h
    simp
  · next h =>
    obtain ⟨rfl, rfl⟩ := List.cons.inj h
    simp
  · next h1 h2 =>
    constructor
    · intro h
      cases h
    · rintro (⟨rfl, h⟩ | ⟨rfl, h⟩) <;> obtain ⟨x, rfl⟩ := List.head?_eq_some_iff.mp h
      · exact absurd rfl (h1 x)
      · exact absurd rfl (h2 x)

theorem ne_of_isQuote {c : Char} (h : isQuote c = true) : c ≠ '-' ∧ c ≠ '/' := by
  constructor <;> rintro rfl <;> cases h

theorem remove_line (cs : List Char) : remove ('-' :: '-' :: cs) = remove (line ('-' :: cs)).2 := by
  rw [remove]
  simp

theorem remove_block (cs : List Char) : remove ('/' :: '*' :: cs) = ' ' :: remove (block cs).2 := by
  rw [remove]
  simp

theorem remove_quote {c : Char} (h : isQuote c = true) (cs : List Char) :
    remove (c :: cs) = c :: ((through c cs).1 ++ remove (through c cs).2) := by
  obtain ⟨h1, h2⟩ := ne_of_isQuote h
  rw [remove, if_neg (fun hc => h1 hc.1), if_neg (fun hc => h2 hc.1), if_pos h]

theorem remove_plain {c : Char} {cs : List Char} (hq : isQuote c = false) (ho : opens (c :: cs) = false) :
    remove (c :: cs) = c :: remove cs := by
  have hno := opens_iff.not.mp (by rw [ho]; exact Bool.false_ne_true)
  rw [not_or] at hno
  rw [remove, if_neg hno.1, if_neg hno.2, if_neg (by rw [hq]; exact Bool.false_ne_true)]

theorem isQuote_of_isBlank {c : Char} (h : isBlank c = true) : isQuote c = false :=
  false_of_isBlank (by decide) h

theorem opens_of_isBlank {c : Char} (h : isBlank c = true) (cs : List Char) : opens (c :: cs) = false := by
  refine opens_cons ?_ ?_ cs <;> rintro rfl <;> cases h

theorem remove_blank {c : Char} (h : isBlank c = true) (cs : List Char) : remove (c :: cs) = c :: remove cs :=
  remove_plain (isQuote_of_isBlank h) (opens_of_isBlank h cs)

/-- What is left of a text that begins with a comment begins with a blank. -/
theorem isBlank_head_of_opens {cs : List Char} (h : opens cs = true) : ∀ b ∈ (remove cs).head?, isBlank b = true := by
  intro b hb
  unfold opens at h
  split at h
  · next x =>
    rw [remove_line, line] at hb
    have hstop := List.head?_dropWhile_not (· != '\n') ('-' :: x)
    cases hrest : ('-' :: x).dropWhile (· != '\n') with
    | nil =>
      rw [hrest, remove] at hb
      cases hb
    | cons y ys =>
      rw [hrest] at hstop hb
      obtain rfl : y = '\n' := by simpa using hstop
      rw [remove_blank rfl] at hb
      exact Option.some.inj hb ▸ rfl
  · rw [remove_block] at hb
    exact Option.some.inj hb ▸ rfl
  · cases h

/-- A quoted text is copied up to its closing quote: where the quote is doubled, one copy ends and the next
one begins. -/
theorem remove_quoted {c : Char} (hq : isQuote c = true) {cs : List Char} (h : Quoted.closes c cs = true) :
    remove (c :: cs) = c :: ((Quoted.read c cs).taken ++ remove (Quoted.read c cs).rest) := by
  rw [remove_quote hq]
  fun_induction Quoted.read c cs with
  | case1 => cases h
  | case2 => simp [through]
  | case3 c cs hd ih =>
    obtain ⟨rfl, hd⟩ := hd
    rw [Quoted.closes_doubled hd] at h
    simp only [through, if_true, Quoted.push, List.cons_append, List.nil_append]
    rw [remove_quote hq, ih h]
  | case4 => simp [through]
  | case5 c cs hc ih =>
    rw [Quoted.closes_of_ne hc] at h
    simp only [through, if_neg hc, Quoted.push, Prod.map, List.cons_append, List.nil_append, id]
    rw [List.cons.inj (ih h) |>.2]

/-! ## Copied pieces -/

/-- Whether the removal of comments looks at nothing but the character itself. -/
def isInert (c : Char) : Bool :=
  !isQuote c && c != '-' && c != '/'

theorem isInert_of {p : Char → Bool} (hp : ['\'', '"', '\x60', '-', '/'].any p = false) {c : Char}
    (h : p c = true) : isInert c = true := by
  by_contra hc
  have hmem : c ∈ ['\'', '"', '\x60', '-', '/'] := by
    simp only [isInert, isQuote, Bool.not_eq_true, Bool.and_eq_false_iff, Bool.not_eq_false', bne_eq_false_iff_eq,
      Bool.or_eq_true, beq_iff_eq] at hc
    simpa [or_assoc] using hc
  exact List.any_eq_false.mp hp c hmem h

/-- The characters are no quotes, and no comment begins with any of them if `rest` follows. -/
def Copies (rest : List Char) : List Char → Prop
  | [] => True
  | c :: l => isQuote c = false ∧ opens (c :: (l ++ rest)) = false ∧ Copies rest l

theorem remove_append {rest l : List Char} (h : Copies rest l) : remove (l ++ rest) = l ++ remove rest := by
  induction l with
  | nil => rfl
  | cons c l ih =>
    rw [List.cons_append, remove_plain h.1 h.2.1, ih h.2.2]
    rfl

theorem copies_append {rest k l : List Char} (hk : Copies (l ++ rest) k) (hl : Copies rest l) :
    Copies rest (k ++ l) := by
  induction k with
  | nil => exact hl
  | cons c k ih =>
    refine ⟨hk.1, ?_, ih hk.2.2⟩
    rw [List.append_eq, List.append_assoc]
    exact hk.2.1

theorem copies_of_inert {l : List Char} (h : ∀ c ∈ l, isInert c = true) (rest : List Char) : Copies rest l := by
  induction l with
  | nil => trivial
  | cons c l ih =>
    rw [List.forall_mem_cons] at h
    have hc := h.1
    simp only [isInert, Bool.and_eq_true, Bool.not_eq_true', bne_iff_ne] at hc
    exact ⟨hc.1.1, opens_cons hc.1.2 hc.2 _, ih h.2⟩

/-- Whether a comment seems to begin somewhere in the text. -/
def marked : List Char → Bool
  | [] => false
  | c :: cs => opens (c :: cs) || marked cs

theorem copies_of_unmarked {l : List Char} (hq : ∀ c ∈ l, isQuote c = false) (hm : marked l = false)
    (hlast : ∀ c ∈ l.getLast?, isInert c = true) (rest : List Char) : Copies rest l := by
  induction l with
  | nil => trivial
  | cons c l ih =>
    rw [List.forall_mem_cons] at hq
    rw [marked, Bool.or_eq_false_iff] at hm
    cases l with
    | nil => exact copies_of_inert (by simpa using hlast) rest
    | cons c' l =>
      have hopens : opens (c :: (c' :: l ++ rest)) = opens (c :: c' :: l) := by
        rw [Bool.eq_iff_iff, opens_iff, opens_iff]
        rfl
      exact ⟨hq.1, hopens.trans hm.1, ih hq.2 hm.2 (by simpa [List.getLast?_cons] using hlast)⟩

/-- What seems to be a comment in it is never copied. -/
theorem remove_ne_of_marked {l : List Char} (hq : ∀ c ∈ l, isQuote c = false) (hm : marked l = true)
    (rest y : List Char) : remove (l ++ rest) ≠ l ++ y := by
  induction l with
  | nil => cases hm
  | cons c l ih =>
    rw [List.forall_mem_cons] at hq
    intro h
    by_cases ho : opens (c :: (l ++ rest)) = true
    · have hblank := isBlank_head_of_opens ho c (by rw [← List.cons_append, h]; rfl)
      rw [opens_of_isBlank hblank] at ho
      cases ho
    · rw [Bool.not_eq_true] at ho
      rw [List.cons_append, remove_plain hq.1 ho] at h
      have hin : opens (c :: l) = false := by
        by_contra hc
        rw [Bool.not_eq_false] at hc
        rw [opens_append rest hc] at ho
        cases ho
      rw [marked, hin, Bool.false_or] at hm
      exact ih hq.2 hm (List.cons.inj h).2

end Comment

/-! ## Lexemes -/

namespace Lexeme
open Comment

/-- Whether the text is no quoted text that lacks its closing delimiter. -/
def closed : List Char → Bool
  | [] => true
  | c :: cs => (Quoted.closer? c).all (Quoted.closes · cs)

def bracketed (l : List Char) : Bool := l.head? == some '['

/-- Removing comments leaves the text alone whatever `rest` follows, and the text does not end in a
blank. -/
structure Solid (rest l : List Char) : Prop where
  copies : Copies rest l
  last : ∀ c ∈ l.getLast?, isBlank c = false

theorem solid_of_forall {p : Char → Bool} (hp : ['\'', '"', '\x60', '-', '/'].any p = false)
    (hb : ∀ n ∈ blankCodes, p (Char.ofNat n) = false) {l : List Char} (h : ∀ c ∈ l, p c = true) (rest : List Char) :
    Solid rest l where
  copies := copies_of_inert (fun c hc => isInert_of hp (h c hc)) rest
  last := by
    intro c hc
    by_contra hn
    rw [Bool.not_eq_false] at hn
    have hpc := h c (List.mem_of_getLast? hc)
    rw [false_of_isBlank hb hn] at hpc
    cases hpc

theorem solid_append {rest k l : List Char} (hk : Solid (l ++ rest) k) (hl : Solid rest l) : Solid rest (k ++ l) where
  copies := copies_append hk.copies hl.copies
  last := by
    intro c hc
    rw [List.getLast?_append] at hc
    cases hll : l.getLast? with
    | none =>
      rw [hll] at hc
      exact hk.last c hc
    | some x =>
      rw [hll] at hc
      exact hl.last c (hll.trans hc)

theorem solid_exponent (cs rest : List Char) : Solid rest (exponent cs).1 := by
  by_cases h : startsWithExponent cs = true
  · obtain ⟨e, c, ds, rfl⟩ := Piece.cons_of_startsWithExponent h
    rw [Piece.exponent_of_startsWith h]
    simp only [startsWithExponent, Bool.and_eq_true, Bool.or_eq_true, beq_iff_eq] at h
    have hdigits : Solid rest (ds.takeWhile Char.isDigit) :=
      solid_of_forall (by decide) (by decide) (fun x hx => List.mem_takeWhile_imp hx) rest
    have hsign : Solid (ds.takeWhile Char.isDigit ++ rest) [c] := by
      rcases h.2 with hc | ⟨rfl | rfl, hd⟩
      · exact solid_of_forall (p := Char.isDigit) (by decide) (by decide) (by simpa using hc) _
      · exact solid_of_forall (p := (· == '+')) (by decide) (by decide) (by simp) _
      · -- a digit follows the sign, so that it does not begin a comment
        refine ⟨⟨rfl, ?_, trivial⟩, by simp; rfl⟩
        rw [← Bool.not_eq_true, opens_iff]
        cases ds with
        | nil => cases hd
        | cons d ds =>
          have hd : d.isDigit = true := hd
          rintro (⟨-, hx⟩ | ⟨hx, -⟩)
          · rw [List.takeWhile_cons_of_pos hd] at hx
            obtain rfl := Option.some.inj hx
            cases hd
          · cases hx
    have he : ∀ x ∈ [e], (x == 'e' || x == 'E') = true := by simpa using h.1
    exact solid_append (solid_of_forall (by decide) (by decide) he _) (solid_append hsign hdigits)
  · rw [exponent, if_neg h]
    exact ⟨trivial, by simp⟩

theorem solid_number {c : Char} (hc : isNumberChar c = true) (cs rest : List Char) :
    Solid rest (c :: (Piece.number c cs).taken) := by
  have hdigits : ∀ x ∈ c :: cs.takeWhile isNumberChar, isNumberChar x = true := by
    rw [List.forall_mem_cons]
    exact ⟨hc, fun x hx => List.mem_takeWhile_imp hx⟩
  exact solid_append (solid_of_forall (by decide) (by decide) hdigits _) (solid_exponent _ rest)

theorem solid_word {c : Char} (hc : isWordChar c = true) (cs rest : List Char) :
    Solid rest (c :: (Piece.word c cs).taken) := by
  refine solid_of_forall (p := isWordChar) (by decide +kernel) (by decide +kernel) ?_ rest
  rw [List.forall_mem_cons]
  exact ⟨hc, fun x hx => List.mem_takeWhile_imp hx⟩

theorem solid_operator {c : Char} (hc : c ∈ [':', '<', '>', '!', '=', '|']) (cs rest : List Char) :
    Solid rest (c :: (Piece.operator cs).taken) := by
  refine solid_of_forall (p := fun c => [':', '<', '>', '!', '=', '|'].contains c) (by decide) (by decide) ?_ rest
  rw [List.forall_mem_cons]
  refine ⟨List.contains_iff_mem.mpr hc, fun x hx => ?_⟩
  by_cases h : cs.head?.any Piece.isSecondSign = true
  · cases cs with
    | nil => cases h
    | cons d cs =>
      rw [Piece.operator_cons h] at hx
      obtain rfl := List.mem_singleton.mp hx
      have hx : Piece.isSecondSign x = true := h
      simp only [Piece.isSecondSign, Bool.or_eq_true, beq_iff_eq] at hx
      rcases hx with ((rfl | rfl) | rfl) | rfl <;> rfl
  · rw [Piece.operator_of_head (by simpa using h)] at hx
    cases hx

theorem solid_single {c : Char} {cs : List Char} (hc : Quoted.closer? c = none) (hb : isBlank c = false)
    (ho : opens (c :: cs) = false) : Solid cs [c] where
  copies := by
    refine ⟨?_, ho, trivial⟩
    by_contra hq
    rw [Bool.not_eq_false] at hq
    rw [Quoted.closer?, if_pos hq] at hc
    cases hc
  last := by simpa using hb

theorem getLast?_delimited {c d : Char} {cs : List Char} (h : Quoted.closes d cs = true) :
    (c :: (Quoted.read d cs).taken).getLast? = some d := by
  rw [List.getLast?_cons, Quoted.getLast?_taken h]
  rfl

theorem copies_bracketed {cs : List Char} (h : Quoted.closes ']' cs = true)
    (hq : ∀ x ∈ '[' :: (Quoted.read ']' cs).taken, isQuote x = false)
    (hm : marked ('[' :: (Quoted.read ']' cs).taken) = false) (rest : List Char) :
    Copies rest ('[' :: (Quoted.read ']' cs).taken) := by
  refine copies_of_unmarked hq hm ?_ rest
  rw [getLast?_delimited h]
  simp
  rfl

end Lexeme

/-! ## Pieces and the removal of comments -/

namespace Piece
open Comment Lexeme

theorem kind_of_opens {c : Char} {cs : List Char} (h : opens (c :: cs) = true) : (read c cs).kind = none := by
  rcases opens_iff.mp h with ⟨rfl, hcs⟩ | ⟨rfl, hcs⟩ <;> obtain ⟨x, rfl⟩ := List.head?_eq_some_iff.mp hcs <;> rfl

theorem opens_of_kind {c : Char} {cs : List Char} {kind : Token.Kind} (h : (read c cs).kind = some kind) :
    opens (c :: cs) = false := by
  by_contra ho
  rw [Bool.not_eq_false] at ho
  rw [kind_of_opens ho] at h
  cases h

theorem kind_operator (cs : List Char) : (operator cs).kind = some .operator := by
  unfold operator
  split
  · rfl
  · split <;> rfl

/-- A piece that is no token is a comment or a blank. -/
theorem skip_cases {c : Char} {cs : List Char} (h : (read c cs).kind = none) :
    (c = '-' ∧ ∃ x, cs = '-' :: x) ∨ (c = '/' ∧ ∃ x, cs = '*' :: x) ∨
      isBlank c = true ∧ read c cs = ⟨none, [], cs⟩ := by
  cases read_form c cs with
  | line x hc hcs => exact .inl ⟨hc, x, hcs⟩
  | block x hc hcs => exact .inr (.inl ⟨hc, x, hcs⟩)
  | blank hc hread => exact .inr (.inr ⟨hc, hread cs⟩)
  | delimited d kind hd hread =>
    rw [hread] at h
    cases h
  | number hc hs hread =>
    rw [hread cs hs] at h
    cases h
  | word hc hread =>
    rw [hread] at h
    cases h
  | operator hc hread =>
    rw [hread, kind_operator] at h
    cases h
  | single kind hq hb ho hread =>
    rw [hread cs (.refl cs)] at h
    cases h

theorem blank_of_skip {c : Char} {cs : List Char} (ho : opens (c :: cs) = false) (h : (read c cs).kind = none) :
    isBlank c = true ∧ read c cs = ⟨none, [], cs⟩ := by
  rcases skip_cases h with ⟨rfl, x, rfl⟩ | ⟨rfl, x, rfl⟩ | hblank
  · cases ho
  · cases ho
  · exact hblank

/-- Of a piece that is no token at most a blank is left. -/
theorem remove_of_skip {c : Char} {cs : List Char} (h : (read c cs).kind = none) :
    remove (c :: cs) = remove (read c cs).rest ∨
      ∃ b, isBlank b = true ∧ remove (c :: cs) = b :: remove (read c cs).rest := by
  rcases skip_cases h with ⟨rfl, x, rfl⟩ | ⟨rfl, x, rfl⟩ | ⟨hc, hread⟩
  · exact .inl (remove_line x)
  · exact .inr ⟨' ', rfl, remove_block x⟩
  · rw [hread]
    exact .inr ⟨c, hc, remove_blank hc cs⟩

theorem remove_of_copies {c : Char} {cs : List Char} (h : Copies (read c cs).rest (c :: (read c cs).taken)) :
    remove (c :: cs) = c :: (read c cs).taken ++ remove (read c cs).rest := by
  have hcopy := remove_append h
  rwa [List.cons_append, read_append] at hcopy

/-- A token without delimiters is copied whatever follows it. -/
theorem solid_of_not_delimited {c : Char} {cs : List Char} {kind : Token.Kind} (hk : (read c cs).kind = some kind)
    (hd : Quoted.closer? c = none) : Solid (read c cs).rest (c :: (read c cs).taken) := by
  cases read_form c cs with
  | line x hx hcs =>
    subst hx hcs
    cases hk
  | block x hx hcs =>
    subst hx hcs
    cases hk
  | blank hx hread =>
    rw [hread] at hk
    cases hk
  | delimited d kind hsome hread =>
    rw [hd] at hsome
    cases hsome
  | number hx hs hread =>
    rw [hread cs hs]
    exact solid_number hx cs _
  | word hx hread =>
    rw [hread]
    exact solid_word hx cs _
  | operator hx hread =>
    rw [hread]
    exact solid_operator hx cs _
  | single kind hq hx ho hread =>
    rw [hread cs (.refl cs)]
    exact solid_single hq hx ho

/-- A token in which nothing is left open does not end in a blank. -/
theorem last_of_token {c : Char} {cs : List Char} {kind : Token.Kind} (hk : (read c cs).kind = some kind)
    (hc : closed (c :: cs) = true) : ∀ x ∈ (c :: (read c cs).taken).getLast?, isBlank x = false := by
  cases hd : Quoted.closer? c with
  | none => exact (solid_of_not_delimited hk hd).last
  | some d =>
    rw [closed, hd] at hc
    obtain ⟨k, hread⟩ := read_of_closer hd
    intro x hx
    rw [hread] at hx
    obtain rfl : d = x := Option.some.inj ((getLast?_delimited hc).symm.trans hx)
    by_contra hblank
    rw [Bool.not_eq_false] at hblank
    simpa using false_of_isBlank (p := (· == d)) (not_blank_of_closer hd) hblank

/-- A token is copied as it stands if nothing in it is left open and, where it is a bracketed identifier,
nothing in it looks like a quote or a comment. -/
theorem remove_token {c : Char} {cs : List Char} {kind : Token.Kind} (hk : (read c cs).kind = some kind)
    (hc : closed (c :: cs) = true)
    (hb : c = '[' → (∀ x ∈ c :: (read c cs).taken, isQuote x = false) ∧ marked (c :: (read c cs).taken) = false) :
    remove (c :: cs) = c :: (read c cs).taken ++ remove (read c cs).rest := by
  cases hd : Quoted.closer? c with
  | none => exact remove_of_copies (solid_of_not_delimited hk hd).copies
  | some d =>
    rw [closed, hd] at hc
    have hc : Quoted.closes d cs = true := hc
    obtain ⟨k, hread⟩ := read_of_closer hd
    by_cases hq : isQuote c = true
    · obtain rfl : c = d := by
        rw [Quoted.closer?, if_pos hq] at hd
        exact Option.some.inj hd
      rw [hread]
      exact remove_quoted hq hc
    · rw [Quoted.closer?, if_neg hq] at hd
      split at hd
      · next hx =>
        subst hx
        obtain rfl := Option.some.inj hd
        refine remove_of_copies ?_
        rw [hread] at hb ⊢
        exact copies_bracketed hc (hb rfl).1 (hb rfl).2 _
      · cases hd

end Piece

/-! ## What is left of a text looks like the text -/

namespace Comment
open Lexeme

/-- What is left of a text begins with a blank or as the text does. -/
theorem head_remove (cs : List Char) : ∀ c ∈ (remove cs).head?, isBlank c = true ∨ cs.head? = some c := by
  intro c hc
  cases cs with
  | nil =>
    rw [remove] at hc
    cases hc
  | cons x cs =>
    by_cases ho : opens (x :: cs) = true
    · exact .inl (isBlank_head_of_opens ho c hc)
    · rw [Bool.not_eq_true] at ho
      refine .inr ?_
      by_cases hq : isQuote x = true
      · rwa [remove_quote hq] at hc
      · rwa [remove_plain (by simpa using hq) ho] at hc

theorem cons_of_remove {c : Char} {y cs : List Char} (h : remove cs = c :: y) (hb : isBlank c = false)
    (hq : isQuote c = false) : ∃ x, cs = c :: x ∧ y = remove x := by
  have hhead := head_remove cs c (by rw [h]; rfl)
  rw [hb] at hhead
  obtain ⟨x, rfl⟩ := List.head?_eq_some_iff.mp (hhead.resolve_left Bool.false_ne_true)
  have ho : opens (c :: x) = false := by
    by_contra ho
    rw [Bool.not_eq_false] at ho
    have hblank := isBlank_head_of_opens ho c (by rw [h]; rfl)
    rw [hb] at hblank
    cases hblank
  rw [remove_plain hq ho] at h
  exact ⟨x, rfl, (List.cons.inj h).2.symm⟩

theorem not_blank_of_isDigit {c : Char} (h : c.isDigit = true) : isBlank c = false ∧ isQuote c = false := by
  have hinert := isInert_of (p := Char.isDigit) (by decide) h
  simp only [isInert, Bool.and_eq_true, Bool.not_eq_true'] at hinert
  refine ⟨?_, hinert.1.1⟩
  by_contra hb
  rw [Bool.not_eq_false] at hb
  rw [false_of_isBlank (p := Char.isDigit) (by decide) hb] at h
  cases h

theorem exponent_remove {cs : List Char} (h : startsWithExponent (remove cs) = true) :
    startsWithExponent cs = true := by
  obtain ⟨e, c, ds, hr⟩ := Piece.cons_of_startsWithExponent h
  rw [hr] at h
  simp only [startsWithExponent, Bool.and_eq_true, Bool.or_eq_true, beq_iff_eq] at h
  have he : isBlank e = false ∧ isQuote e = false := by rcases h.1 with rfl | rfl <;> exact ⟨rfl, rfl⟩
  have hc : isBlank c = false ∧ isQuote c = false := by
    rcases h.2 with hc | ⟨rfl | rfl, -⟩
    · exact not_blank_of_isDigit hc
    · exact ⟨rfl, rfl⟩
    · exact ⟨rfl, rfl⟩
  obtain ⟨x, rfl, hx⟩ := cons_of_remove hr he.1 he.2
  obtain ⟨y, rfl, rfl⟩ := cons_of_remove hx.symm hc.1 hc.2
  simp only [startsWithExponent, Bool.and_eq_true, Bool.or_eq_true, beq_iff_eq]
  refine ⟨h.1, h.2.imp_right fun hs => ⟨hs.1, ?_⟩⟩
  cases hy : remove y with
  | nil =>
    rw [hy] at hs
    cases hs.2
  | cons d ds =>
    rw [hy] at hs
    have hd : d.isDigit = true := hs.2
    obtain ⟨w, rfl, -⟩ := cons_of_remove hy (not_blank_of_isDigit hd).1 (not_blank_of_isDigit hd).2
    exact hd

theorem resembles_remove (cs : List Char) : Piece.Resembles (remove cs) cs where
  head := head_remove cs
  exponent := exponent_remove

theorem resembles_of_remove {cs z b : List Char} (h : remove cs = z ++ b) : Piece.Resembles z cs :=
  (Piece.resembles_append z b).trans (h ▸ resembles_remove cs)

end Comment

/-! ## The two scanners side by side -/

namespace Token
open Comment Lexeme

theorem readings_replace {c : Char} {cs x : List Char} {kind : Kind} (hk : (Piece.read c cs).kind = some kind)
    (hc : closed (c :: cs) = true) (hx : Piece.Resembles x (Piece.read c cs).rest) :
    readings (c :: ((Piece.read c cs).taken ++ x)) =
      (kind, String.ofList (c :: (Piece.read c cs).taken)) :: readings x := by
  have hread := Piece.read_replace (Piece.opens_of_kind hk) hc hx
  rw [readings_token (by rw [hread]; exact hk), hread]

/-- A lexeme that is copied does not reach into the blanks at the end. -/
theorem split_of_last {l x z b : List Char} (h : l ++ x = z ++ b) (hb : ∀ c ∈ b, isBlank c = true)
    (hl : ∀ c ∈ l.getLast?, isBlank c = false) : ∃ z', z = l ++ z' ∧ x = z' ++ b := by
  rcases List.append_eq_append_iff.mp h with ⟨m, hz, hx⟩ | ⟨m, rfl, rfl⟩
  · exact ⟨m, hz, hx⟩
  · cases hm : m.getLast? with
    | none =>
      obtain rfl := List.getLast?_eq_none_iff.mp hm
      exact ⟨[], by simp, rfl⟩
    | some c =>
      have hno := hl c (by rw [List.getLast?_append, hm]; rfl)
      rw [hb c (List.mem_append_left _ (List.mem_of_getLast? hm))] at hno
      cases hno

theorem closed_of_taken {c : Char} {cs : List Char} (h : closed (c :: (Piece.read c cs).taken) = true) :
    closed (c :: cs) = true := by
  rw [closed] at h ⊢
  cases hd : Quoted.closer? c with
  | none => rfl
  | some d =>
    obtain ⟨kind, hread⟩ := Piece.read_of_closer hd
    rw [hd, hread] at h
    exact (Quoted.closes_taken d cs).symm.trans h

/-- A bracketed identifier that holds what looks like a comment is not read from what is left. -/
theorem readings_ne_of_marked {cs z b : List Char} {kind : Kind} {rs : List (Kind × String)}
    (h : remove ('[' :: cs) = z ++ b) (hq : ∀ x ∈ '[' :: (Piece.read '[' cs).taken, isQuote x = false)
    (hm : marked ('[' :: (Piece.read '[' cs).taken) = true) :
    readings z ≠ (kind, String.ofList ('[' :: (Piece.read '[' cs).taken)) :: rs := by
  intro hr
  cases z with
  | nil =>
    rw [readings_nil] at hr
    cases hr
  | cons y z =>
    have hsplit := Piece.read_append '[' cs
    rw [remove_plain rfl rfl] at h
    obtain ⟨rfl, h'⟩ := List.cons.inj h
    have hread : (Piece.read '[' z).kind = some (Piece.identifier (String.ofList (Quoted.read ']' z).value)) := rfl
    rw [readings_token hread] at hr
    have htaken : (Piece.read '[' z).taken = (Piece.read '[' cs).taken := by
      have hl := (Prod.mk.inj (List.cons.inj hr).1).2
      exact (List.cons.inj (String.ofList_injective hl)).2
    refine remove_ne_of_marked hq hm (Piece.read '[' cs).rest ((Piece.read '[' z).rest ++ b) ?_
    rw [List.cons_append, hsplit, remove_plain rfl rfl, h', ← htaken, List.cons_append, ← List.append_assoc,
      Piece.read_append]
    rfl

/-- Where every quoted text is closed and no bracketed identifier holds a quote, all tokens of a text are read
from what is left of it just when no bracketed identifier holds what looks like a comment. -/
theorem readings_of_remove_iff (cs : List Char) {z b : List Char} (h : remove cs = z ++ b)
    (hb : ∀ c ∈ b, isBlank c = true) (hclosed : ∀ r ∈ readings cs, closed r.2.toList = true)
    (hquote : ∀ r ∈ readings cs, bracketed r.2.toList = true → r.2.toList.any isQuote = false) :
    readings z = readings cs ↔ ∀ r ∈ readings cs, bracketed r.2.toList = true → marked r.2.toList = false := by
  induction cs using Piece.induction generalizing z b with
  | nil =>
    rw [remove] at h
    obtain ⟨rfl, -⟩ := List.append_eq_nil_iff.mp h.symm
    simp
  | cons c cs ih =>
    cases hk : (Piece.read c cs).kind with
    | none =>
      rw [readings_skip hk] at hclosed hquote ⊢
      rcases Piece.remove_of_skip hk with hr | ⟨x, hx, hr⟩
      · exact ih (hr ▸ h) hb hclosed hquote
      · rw [hr] at h
        cases z with
        | nil =>
          -- the blank and all that follows is cut off at the end
          obtain rfl : x :: remove (Piece.read c cs).rest = b := h
          rw [List.forall_mem_cons] at hb
          exact ih rfl hb.2 hclosed hquote
        | cons y z =>
          obtain ⟨rfl, htail⟩ := List.cons.inj h
          rw [readings_blank hx]
          exact ih htail hb hclosed hquote
    | some kind =>
      rw [readings_token hk] at hclosed hquote ⊢
      rw [List.forall_mem_cons] at hclosed hquote ⊢
      simp only [String.toList_ofList] at hclosed hquote ⊢
      by_cases hbad : c = '[' ∧ marked (c :: (Piece.read c cs).taken) = true
      · obtain ⟨rfl, hm⟩ := hbad
        refine iff_of_false (readings_ne_of_marked h ?_ hm) ?_
        · simpa using hquote.1 rfl
        · rintro ⟨hno, -⟩
          rw [hno rfl] at hm
          cases hm
      · have hgood : c = '[' → marked (c :: (Piece.read c cs).taken) = false := by simpa using hbad
        have hr := Piece.remove_token hk (closed_of_taken hclosed.1)
          (fun hc => ⟨by simpa using hquote.1 (by rw [bracketed, hc]; rfl), hgood hc⟩)
        obtain ⟨z, rfl, hz⟩ := split_of_last (hr.symm.trans h) hb (Piece.last_of_token hk (closed_of_taken hclosed.1))
        have hown : bracketed (c :: (Piece.read c cs).taken) = true → marked (c :: (Piece.read c cs).taken) = false :=
          fun hc => hgood (by simpa [bracketed] using hc)
        rw [List.cons_append, readings_replace hk (closed_of_taken hclosed.1) (resembles_of_remove hz),
          List.cons_inj_right, ih hz hb hclosed.2 hquote.2]
        exact ⟨fun hrest => ⟨hown, hrest⟩, And.right⟩

end Token

/-! ## Whole texts -/

namespace Comment
open Lexeme

/-- Where every quoted text of a script is closed and no bracketed identifier holds a quote, the script has the
same tokens without its comments just when no bracketed identifier holds what looks like a comment. -/
theorem keeps_tokens_iff (s : String) (hclosed : ∀ t ∈ Token.scan s, closed t.lexeme.toList = true)
    (hquote : ∀ t ∈ Token.scan s, bracketed t.lexeme.toList = true → t.lexeme.toList.any isQuote = false) :
    (Token.scan (strip s)).map Token.reading = (Token.scan s).map Token.reading ↔
      ∀ t ∈ Token.scan s, bracketed t.lexeme.toList = true → marked t.lexeme.toList = false := by
  obtain ⟨a, b, hremove, ha, hb⟩ := exists_trim (remove s.toList)
  have hiff := Token.readings_of_remove_iff s.toList (hremove.trans (List.append_assoc a _ b).symm) hb
    (List.forall_mem_map.mpr hclosed) (List.forall_mem_map.mpr hquote)
  rw [Token.readings_blanks ha, ← toList_strip] at hiff
  exact hiff.trans List.forall_mem_map

theorem keeps_tokens_iff_quoted :
    let s := "SELECT [a b] -- it's a\n, 'c--d' FROM \"t/*\""
    (∀ t ∈ Token.scan s, closed t.lexeme.toList = true) ∧
    (∀ t ∈ Token.scan s, bracketed t.lexeme.toList = true → t.lexeme.toList.any isQuote = false) ∧
    ((Token.scan (strip s)).map Token.reading = (Token.scan s).map Token.reading ↔
      ∀ t ∈ Token.scan s, bracketed t.lexeme.toList = true → marked t.lexeme.toList = false) := by
  intro s
  have hclosed : ∀ t ∈ Token.scan s, closed t.lexeme.toList = true := by decide +kernel
  have hquote : ∀ t ∈ Token.scan s, bracketed t.lexeme.toList = true → t.lexeme.toList.any isQuote = false := by
    decide +kernel
  exact ⟨hclosed, hquote, keeps_tokens_iff s hclosed hquote⟩

/-- The rest of a line is lost behind two dashes in a bracketed identifier. -/
theorem loses_bracketed_dashes :
    let s := "SELECT [a--b] FROM t"
    (∀ t ∈ Token.scan s, closed t.lexeme.toList = true) ∧ strip s = "SELECT [a" ∧
      (Token.scan (strip s)).map Token.reading ≠ (Token.scan s).map Token.reading := by
  decide +kernel

/-- A quote in a bracketed identifier makes the next literal look like the end of a quoted text, so that the rest of
the line is lost behind two dashes in the literal. No bracketed identifier holds what looks like a comment. -/
theorem loses_dashes_behind_bracketed_quote :
    let s := "SELECT [it's], 'a--b' FROM t"
    (∀ t ∈ Token.scan s, closed t.lexeme.toList = true) ∧
      (∀ t ∈ Token.scan s, bracketed t.lexeme.toList = true → marked t.lexeme.toList = false) ∧
      strip s = "SELECT [it's], 'a" ∧
      (Token.scan (strip s)).map Token.reading ≠ (Token.scan s).map Token.reading := by
  decide +kernel

end Comment
end SqlLineage
