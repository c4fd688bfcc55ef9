import SqlLineage.Proofs.Token.Strip

/-! # Texts without comments

Where a comment is removed a line break, a space or the end of the text is left, so that the characters around it make
no new comment; a quote that stands in a comment goes with it, so that the other quotes keep their partners.

* `Comment.Bare`: no comment begins outside quoted text.
* `Comment.remove_of_bare`, `Comment.bare_remove`: such texts stay as they are, and all others become such.
* `Comment.strip_strip`: removing comments a second time changes nothing.
* `Token.Spaced`: nothing but blanks stands between the tokens; `Comment.keeps_tokens_iff_bare`: such a text keeps its
  tokens just when nothing in it is taken for a comment, whatever its bracketed identifiers hold. -/

namespace SqlLineage.Comment
open SqlLineage.Text
set_option autoImplicit false

/-- No comment begins in the text outside quoted text. A quoted text goes to the next quote of its kind, or to the end
if there is none. -/
inductive Bare : List Char → Prop where
  | nil : Bare []
  | plain {c : Char} {cs : List Char} (hq : isQuote c = false) (ho : opens (c :: cs) = false) (hcs : Bare cs) :
    Bare (c :: cs)
  | quoted {q : Char} {body cs : List Char} (hq : isQuote q = true) (hbody : q ∉ body) (hcs : Bare cs) :
    Bare (q :: (body ++ q :: cs))
  | openQuote {q : Char} {body : List Char} (hq : isQuote q = true) (hbody : q ∉ body) : Bare (q :: body)

/-! ## Quoted text -/

theorem through_append_of_not_mem {q : Char} {body : List Char} (h : q ∉ body) (cs : List Char) :
    through q (body ++ cs) = (body ++ (through q cs).1, (through q cs).2) := by
  induction body with
  | nil => rfl
  | cons c body ih =>
    rw [List.mem_cons, not_or] at h
    rw [List.cons_append, through, if_neg (Ne.symm h.1), ih h.2]
    rfl

theorem through_open {q : Char} {body : List Char} (h : q ∉ body) : through q body = (body, []) := by
  have hthrough := through_append_of_not_mem h []
  rwa [through, List.append_nil] at hthrough

theorem through_close {q : Char} {body : List Char} (h : q ∉ body) (cs : List Char) :
    through q (body ++ q :: cs) = (body ++ [q], cs) := by
  rw [through_append_of_not_mem h, through, if_pos rfl]

/-- Everything up to the first quote, or everything if there is none. -/
theorem through_cases (q : Char) (cs : List Char) :
    (∃ body rest, cs = body ++ q :: rest ∧ q ∉ body) ∨ q ∉ cs := by
  by_cases h : q ∈ cs
  · obtain ⟨body, rest, hcs, hbody⟩ := List.eq_append_cons_of_mem h
    exact .inl ⟨body, rest, hcs, hbody⟩
  · exact .inr h

/-! ## Removing comments -/

theorem remove_of_bare {cs : List Char} (h : Bare cs) : remove cs = cs := by
  induction h with
  | nil => rw [remove]
  | plain hq ho _ ih => rw [remove_plain hq ho, ih]
  | quoted hq hbody _ ih => rw [remove_quote hq, through_close hbody, ih, List.append_assoc]; rfl
  | openQuote hq hbody => rw [remove_quote hq, through_open hbody, remove, List.append_nil]

/-- What is left behind a character makes no comment with it, unless what stood there did. -/
theorem opens_remove {c : Char} {cs : List Char} (h : opens (c :: cs) = false) : opens (c :: remove cs) = false := by
  have hhead : ∀ d, isBlank d = false → (remove cs).head? = some d → cs.head? = some d := by
    intro d hd hr
    have hcases := head_remove cs d hr
    rw [hd] at hcases
    exact hcases.resolve_left Bool.false_ne_true
  by_contra ho
  rw [Bool.not_eq_false, opens_iff] at ho
  have hno := opens_iff.not.mp (by rw [h]; exact Bool.false_ne_true)
  exact hno (ho.imp (And.imp_right (hhead '-' rfl)) (And.imp_right (hhead '*' rfl)))

theorem bare_remove (cs : List Char) : Bare (remove cs) := by
  fun_induction remove cs with
  | case1 => exact .nil
  | case2 c cs _ ih => exact ih
  | case3 c cs _ _ ih => exact .plain rfl rfl ih
  | case4 c cs _ _ hq ih =>
    rcases through_cases c cs with ⟨body, rest, rfl, hbody⟩ | hopen
    · rw [through_close hbody, List.append_assoc] at *
      exact .quoted hq hbody ih
    · rw [through_open hopen, remove, List.append_nil]
      exact .openQuote hq hopen
  | case5 c cs hline hblock hq ih =>
    refine .plain (by simpa using hq) (opens_remove ?_) ih
    rw [← Bool.not_eq_true, opens_iff, not_or]
    exact ⟨hline, hblock⟩

theorem bare_iff_remove_eq {cs : List Char} : Bare cs ↔ remove cs = cs :=
  ⟨remove_of_bare, fun h => h ▸ bare_remove cs⟩

instance : DecidablePred Bare := fun _ => decidable_of_iff' _ bare_iff_remove_eq

/-! ## Cutting off ends -/

theorem Bare.of_append {z b : List Char} (h : Bare (z ++ b)) : Bare z := by
  generalize hcs : z ++ b = cs at h
  induction h generalizing z with
  | nil =>
    rw [(List.append_eq_nil_iff.mp hcs).1]
    exact .nil
  | @plain c cs hq ho _ ih =>
    cases z with
    | nil => exact .nil
    | cons x z =>
      obtain ⟨rfl, rfl⟩ := List.cons.inj hcs
      refine .plain hq ?_ (ih rfl)
      by_contra hopens
      rw [Bool.not_eq_false] at hopens
      rw [List.append_eq, opens_append b hopens] at ho
      cases ho
  | @quoted q body cs hq hbody _ ih =>
    cases z with
    | nil => exact .nil
    | cons x z =>
      obtain ⟨rfl, htail⟩ := List.cons.inj hcs
      rcases List.append_eq_append_iff.mp htail with ⟨m, rfl, -⟩ | ⟨m, rfl, hm⟩
      · -- the text ends before the closing quote
        exact .openQuote hq fun hx => hbody (List.mem_append_left _ hx)
      · cases m with
        | nil =>
          rw [List.append_nil]
          exact .openQuote hq hbody
        | cons y m =>
          obtain ⟨rfl, rfl⟩ := List.cons.inj hm
          exact .quoted hq hbody (ih rfl)
  | @openQuote q body hq hbody =>
    cases z with
    | nil => exact .nil
    | cons x z =>
      obtain ⟨rfl, rfl⟩ := List.cons.inj hcs
      exact .openQuote hq fun hx => hbody (List.mem_append_left _ hx)

theorem Bare.tail {c : Char} {cs : List Char} (hc : isQuote c = false) (h : Bare (c :: cs)) : Bare cs := by
  cases h with
  | plain _ _ hcs => exact hcs
  | quoted hq =>
    rw [hc] at hq
    cases hq
  | openQuote hq =>
    rw [hc] at hq
    cases hq

theorem Bare.of_blanks {a cs : List Char} (ha : ∀ c ∈ a, isBlank c = true) (h : Bare (a ++ cs)) : Bare cs := by
  induction a with
  | nil => exact h
  | cons c a ih =>
    rw [List.forall_mem_cons] at ha
    exact ih ha.2 (h.tail (isQuote_of_isBlank ha.1))

theorem bare_strip (s : String) : Bare (strip s).toList := by
  obtain ⟨a, b, hremove, ha, -⟩ := exists_trim (remove s.toList)
  have hbare := bare_remove s.toList
  rw [hremove] at hbare
  rw [toList_strip]
  exact (hbare.of_blanks ha).of_append

/-- A script that has lost its comments and the blanks at its ends holds no comment, and loses nothing if that is done
again. -/
theorem strip_strip (s : String) : Bare (strip s).toList ∧ strip (strip s) = strip s := by
  refine ⟨bare_strip s, String.toList_injective ?_⟩
  rw [toList_strip, remove_of_bare (bare_strip s), toList_strip, trim_trim]

end SqlLineage.Comment

/-! ## Characters that are no blanks -/

namespace SqlLineage.Text

/-- How many of the characters are no blanks. -/
def ink (cs : List Char) : Nat :=
  cs.countP fun c => !isBlank c

@[simp] theorem ink_append (a b : List Char) : ink (a ++ b) = ink a + ink b :=
  List.countP_append

theorem ink_of_append {a b cs : List Char} (h : a ++ b = cs) : ink cs = ink a + ink b := by
  rw [← h, ink_append]

theorem ink_cons (c : Char) (cs : List Char) : ink (c :: cs) = ink [c] + ink cs :=
  ink_append [c] cs

theorem ink_of_blanks {bs : List Char} (h : ∀ b ∈ bs, isBlank b = true) : ink bs = 0 :=
  List.countP_eq_zero.mpr fun b hb => by simp [h b hb]

theorem ink_tail_le (cs : List Char) : ink cs.tail ≤ ink cs :=
  cs.tail_sublist.countP_le

end SqlLineage.Text

namespace SqlLineage.Comment
open SqlLineage.Text

theorem ink_remove_le (cs : List Char) : ink (remove cs) ≤ ink cs := by
  fun_induction remove cs with
  | case1 => exact le_rfl
  | case2 c cs _ ih =>
    have hcs := ink_of_append (line_append cs)
    rw [ink_cons c cs]
    omega
  | case3 c cs _ _ ih =>
    have hcs := ink_of_append (block_append cs.tail)
    have htail := ink_tail_le cs
    have hblank : ink [' '] = 0 := rfl
    rw [ink_cons ' ' _, ink_cons c cs]
    omega
  | case4 c cs _ _ _ ih =>
    have hcs := ink_of_append (through_append c cs)
    rw [ink_cons c cs, ink_cons c (_ ++ _), ink_append]
    omega
  | case5 c cs _ _ _ ih =>
    rw [ink_cons c cs, ink_cons c (remove cs)]
    omega

/-- A comment is never removed without characters that are no blanks. -/
theorem remove_eq_of_ink_le {cs : List Char} (h : ink cs ≤ ink (remove cs)) : remove cs = cs := by
  fun_induction remove cs with
  | case1 => rfl
  | case2 c cs hc ih =>
    have hle := ink_remove_le (line cs).2
    have hcs := ink_of_append (line_append cs)
    have hdash : ink [c] = 1 := by rw [hc.1]; rfl
    rw [ink_cons c cs] at h
    omega
  | case3 c cs _ hc ih =>
    have hle := ink_remove_le (block cs.tail).2
    have hcs := ink_of_append (block_append cs.tail)
    have htail := ink_tail_le cs
    have hslash : ink [c] = 1 := by rw [hc.1]; rfl
    have hblank : ink [' '] = 0 := rfl
    rw [ink_cons c cs, ink_cons ' ' _] at h
    omega
  | case4 c cs _ _ _ ih =>
    have hcs := ink_of_append (through_append c cs)
    rw [ink_cons c cs, ink_cons c (_ ++ _), ink_append] at h
    rw [ih (by omega), through_append]
  | case5 c cs _ _ _ ih =>
    rw [ink_cons c cs, ink_cons c (remove cs)] at h
    rw [ih (by omega)]

end SqlLineage.Comment

/-! ## Texts with nothing but blanks between the tokens -/

namespace SqlLineage.Token
open SqlLineage.Text SqlLineage.Comment SqlLineage.Lexeme

/-- Nothing but blanks stands between the tokens of the text: no comment begins where a token could. -/
inductive Spaced : List Char → Prop where
  | nil : Spaced []
  | cons {c : Char} {cs : List Char} (ho : opens (c :: cs) = false) (hrest : Spaced (Piece.read c cs).rest) :
    Spaced (c :: cs)

/-- How many characters of the lexemes are no blanks. -/
def lexemeInk (rs : List (Kind × String)) : Nat :=
  ink (rs.flatMap fun r => r.2.toList)

theorem ink_piece (c : Char) (cs : List Char) :
    ink (c :: cs) = ink (c :: (Piece.read c cs).taken) + ink (Piece.read c cs).rest :=
  ink_of_append (congrArg (List.cons c) (Piece.read_append c cs))

theorem lexemeInk_readings_token {c : Char} {cs : List Char} {kind : Kind} (hk : (Piece.read c cs).kind = some kind) :
    lexemeInk (readings (c :: cs)) =
      ink (c :: (Piece.read c cs).taken) + lexemeInk (readings (Piece.read c cs).rest) := by
  rw [readings_token hk, lexemeInk, List.flatMap_cons, String.toList_ofList, ink_append]
  rfl

theorem lexemeInk_readings_le (cs : List Char) : lexemeInk (readings cs) ≤ ink cs := by
  induction cs using Piece.induction with
  | nil =>
    rw [readings_nil]
    exact le_rfl
  | cons c cs ih =>
    rw [ink_piece c cs]
    cases hk : (Piece.read c cs).kind with
    | none =>
      rw [readings_skip hk]
      omega
    | some kind =>
      rw [lexemeInk_readings_token hk]
      exact Nat.add_le_add_left ih _

/-- Nothing but blanks stands between the tokens just when the lexemes hold all other characters. -/
theorem spaced_iff (cs : List Char) : Spaced cs ↔ lexemeInk (readings cs) = ink cs := by
  constructor
  · intro h
    induction h with
    | nil =>
      rw [readings_nil]
      rfl
    | @cons c cs ho _ ih =>
      rw [ink_piece c cs]
      cases hk : (Piece.read c cs).kind with
      | none =>
        obtain ⟨hblank, hread⟩ := Piece.blank_of_skip ho hk
        have hnone : ink (c :: (Piece.read c cs).taken) = 0 := by
          rw [hread]
          exact ink_of_blanks (by simpa using hblank)
        rw [readings_skip hk, ih, hnone, Nat.zero_add]
      | some kind => rw [lexemeInk_readings_token hk, ih]
  · intro h
    induction cs using Piece.induction with
    | nil => exact .nil
    | cons c cs ih =>
      rw [ink_piece c cs] at h
      cases hk : (Piece.read c cs).kind with
      | none =>
        have hle := lexemeInk_readings_le (Piece.read c cs).rest
        rw [readings_skip hk] at h
        refine .cons ?_ (ih (by omega))
        -- the first character of a comment is no blank
        by_contra ho
        rw [Bool.not_eq_false] at ho
        have hfirst : ink [c] = 1 := by
          rcases opens_iff.mp ho with ⟨rfl, -⟩ | ⟨rfl, -⟩ <;> rfl
        rw [ink_cons c] at h
        omega
      | some kind =>
        rw [lexemeInk_readings_token hk] at h
        exact .cons (Piece.opens_of_kind hk) (ih (Nat.add_left_cancel h))

instance : DecidablePred Spaced := fun cs => decidable_of_iff' _ (spaced_iff cs)

/-- Blanks at the end of a text belong to no token if nothing in the text is left open. -/
theorem Spaced.readings_prefix {cs : List Char} (h : Spaced cs) {z b : List Char} (hcs : cs = z ++ b)
    (hb : ∀ c ∈ b, isBlank c = true) (hclosed : ∀ r ∈ readings cs, closed r.2.toList = true) :
    readings z = readings cs := by
  induction h generalizing z with
  | nil => rw [(List.append_eq_nil_iff.mp hcs.symm).1]
  | @cons c cs ho _ ih =>
    cases hk : (Piece.read c cs).kind with
    | none =>
      obtain ⟨hblank, hread⟩ := Piece.blank_of_skip ho hk
      rw [readings_skip hk, hread] at hclosed ⊢
      rw [hread] at ih
      cases z with
      | nil =>
        rw [List.nil_append] at hcs
        have hall : ∀ x ∈ cs, isBlank x = true := fun x hx => hb x (hcs ▸ List.mem_cons_of_mem c hx)
        have hnone := readings_blanks hall []
        rw [List.append_nil] at hnone
        rw [hnone]
      | cons y z =>
        obtain ⟨rfl, htail⟩ := List.cons.inj hcs
        rw [readings_blank hblank]
        exact ih htail hclosed
    | some kind =>
      rw [readings_token hk] at hclosed ⊢
      rw [List.forall_mem_cons] at hclosed
      have hown := closed_of_taken ((congrArg closed String.toList_ofList).symm.trans hclosed.1)
      have hsplit : c :: (Piece.read c cs).taken ++ (Piece.read c cs).rest = z ++ b := by
        rw [List.cons_append, Piece.read_append, hcs]
      obtain ⟨z, rfl, hz⟩ := split_of_last hsplit hb (Piece.last_of_token hk hown)
      rw [List.cons_append, readings_replace hk hown (hz ▸ Piece.resembles_append z b), ih hz hclosed.2]

end SqlLineage.Token

namespace SqlLineage.Comment
open SqlLineage.Text SqlLineage.Lexeme

/-- Where every quoted text is closed and nothing but blanks stands between the tokens, a script has the same tokens
without its comments just when no comment begins outside what looks like quoted text. Its bracketed identifiers may
hold anything. -/
theorem keeps_tokens_iff_bare (s : String) (hclosed : ∀ t ∈ Token.scan s, closed t.lexeme.toList = true)
    (hspaced : Token.Spaced s.toList) :
    (Token.scan (strip s)).map Token.reading = (Token.scan s).map Token.reading ↔ Bare s.toList := by
  obtain ⟨a, b, hremove, ha, hb⟩ := exists_trim (remove s.toList)
  change Token.readings (strip s).toList = Token.readings s.toList ↔ _
  rw [toList_strip]
  constructor
  · intro h
    -- the lexemes have room for all characters but blanks, so that no comment is gone
    have hkept := Token.lexemeInk_readings_le (trim (remove s.toList))
    rw [h, (Token.spaced_iff _).mp hspaced] at hkept
    refine bare_iff_remove_eq.mpr (remove_eq_of_ink_le (hkept.trans ?_))
    have hink := congrArg ink hremove
    rw [ink_append, ink_append] at hink
    omega
  · intro h
    have hprefix := hspaced.readings_prefix (z := a ++ trim (remove s.toList)) (b := b)
      ((remove_of_bare h).symm.trans (hremove.trans (List.append_assoc a _ b).symm)) hb (List.forall_mem_map.mpr hclosed)
    rwa [Token.readings_blanks ha] at hprefix

example :
    let s := "SELECT [it's], 'a--b' FROM t"
    (∀ t ∈ Token.scan s, closed t.lexeme.toList = true) ∧ Token.Spaced s.toList ∧ ¬ Bare s.toList := by
  decide +kernel

end SqlLineage.Comment
