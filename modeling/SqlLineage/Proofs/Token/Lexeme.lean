import SqlLineage.Proofs.Token.Strip

/-! # Lexemes and what stands between them

A text is made of the lexemes of its tokens and of gaps, which hold blanks and comments.

* `Comment.Whole`: a comment from its first character to its last one; `Token.Gap`: blanks and whole comments.
* `Token.Covers`: a text as `g0 l1 g1 ... ln gn`, with gaps that go as far as they can.
* `Token.covers_scan`: the lexemes of a text cover it.
* `Token.reading_scan_spelled`: the lexemes with one space between neighbours are read as the same tokens. -/

namespace SqlLineage
open SqlLineage.Text
set_option autoImplicit false

/-! ## Gaps -/

/-- The text is a comment and ends where the comment does, if `rest` follows: a line comment in front of a newline or at
the end of everything, a block comment with the first `*/` behind its two opening characters, or without one at the
end of everything. -/
inductive Comment.Whole (rest : List Char) : List Char → Prop where
  | line {body : List Char} (hbody : '\n' ∉ body) (hrest : ∀ c ∈ rest.head?, c = '\n') :
    Whole rest ('-' :: '-' :: body)
  | block {body : List Char} (hbody : ¬ ['*', '/'] <:+: body) :
    Whole rest ('/' :: '*' :: (body ++ ['*', '/']))
  | openBlock {body : List Char} (hbody : ¬ ['*', '/'] <:+: body) (hrest : rest = []) :
    Whole rest ('/' :: '*' :: body)

namespace Token

/-- The text consists of blanks and whole comments, if `rest` follows. -/
inductive Gap (rest : List Char) : List Char → Prop where
  | nil : Gap rest []
  | blank {c : Char} {g : List Char} (hc : isBlank c = true) (hg : Gap rest g) : Gap rest (c :: g)
  | comment {k g : List Char} (hk : Comment.Whole (g ++ rest) k) (hg : Gap rest g) : Gap rest (k ++ g)

/-- Whether the text begins with a blank or a comment. -/
def beginsGap (cs : List Char) : Bool :=
  cs.head?.any isBlank || Comment.opens cs

/-- The text is `g0 l1 g1 ... ln gn` for the lexemes `l1, ..., ln`, none of them empty, with gaps in between that go as
far as they can. -/
inductive Covers : List Char → List (List Char) → Prop where
  | last {g : List Char} (hg : Gap [] g) : Covers g []
  | lexeme {g l rest : List Char} {ls : List (List Char)} (hg : Gap (l ++ rest) g) (hl : l ≠ [])
    (hstart : beginsGap (l ++ rest) = false) (hrest : Covers rest ls) : Covers (g ++ (l ++ rest)) (l :: ls)

end Token

/-! ## Pieces that are no tokens -/

/-- The rest of a line behind the first dash of a comment. -/
theorem Comment.whole_line (x : List Char) : Whole (line ('-' :: x)).2 ('-' :: (line ('-' :: x)).1) := by
  refine .line ?_ ?_
  · change '\n' ∉ x.takeWhile (· != '\n')
    intro h
    simpa using List.mem_takeWhile_imp h
  · intro c hc
    have hstop := Text.any_head?_dropWhile (· != '\n') ('-' :: x)
    rw [line] at hc
    rw [hc] at hstop
    simpa using hstop

theorem Comment.block_spec (cs : List Char) :
    (∃ body, (block cs).1 = body ++ ['*', '/'] ∧ ¬ ['*', '/'] <:+: body) ∨
      (block cs).2 = [] ∧ ¬ ['*', '/'] <:+: (block cs).1 := by
  fun_induction block cs with
  | case1 => exact .inr ⟨rfl, by simp⟩
  | case2 cs => exact .inl ⟨[], rfl, by simp⟩
  | case3 c cs hne ih =>
    have hcs := block_append cs
    rcases ih with ⟨body, hbody, hfirst⟩ | ⟨hrest, hopen⟩
    · refine .inl ⟨c :: body, by rw [Prod.map_fst, hbody]; rfl, ?_⟩
      rw [List.infix_cons_iff]
      rintro (⟨t, ht⟩ | h)
      · obtain ⟨rfl, rfl⟩ := List.cons.inj ht
        exact hne _ rfl (by rw [← hcs, hbody]; rfl)
      · exact hfirst h
    · refine .inr ⟨hrest, ?_⟩
      rw [Prod.map_fst, List.infix_cons_iff]
      rintro (⟨t, ht⟩ | h)
      · obtain ⟨rfl, htail⟩ := List.cons.inj ht
        exact hne _ rfl (by rw [← hcs, ← htail]; rfl)
      · exact hopen h

/-- A piece that is no token is a blank or a whole comment. -/
theorem Piece.blank_or_whole {c : Char} {cs : List Char} (h : (read c cs).kind = none) :
    (isBlank c = true ∧ (read c cs).taken = []) ∨ Comment.Whole (read c cs).rest (c :: (read c cs).taken) := by
  rcases skip_cases h with ⟨rfl, x, rfl⟩ | ⟨rfl, x, rfl⟩ | ⟨hc, hread⟩
  · exact .inr (Comment.whole_line x)
  · refine .inr ?_
    change Comment.Whole (Comment.block x).2 ('/' :: '*' :: (Comment.block x).1)
    rcases Comment.block_spec x with ⟨body, hbody, hfirst⟩ | ⟨hrest, hopen⟩
    · rw [hbody]
      exact .block hfirst
    · exact .openBlock hopen hrest
  · rw [hread]
    exact .inl ⟨hc, rfl⟩

/-! ## Covering a text -/

namespace Token

theorem Gap.append_piece {c : Char} {cs g rest : List Char} (hkind : (Piece.read c cs).kind = none)
    (hcs : (Piece.read c cs).rest = g ++ rest) (hg : Gap rest g) : Gap rest (c :: (Piece.read c cs).taken ++ g) := by
  rcases Piece.blank_or_whole hkind with ⟨hc, htaken⟩ | hwhole
  · rw [htaken]
    exact .blank hc hg
  · rw [hcs] at hwhole
    exact .comment hwhole hg

/-- A piece that is no token goes to the gap in front of what is covered. -/
theorem Covers.skip {c : Char} {cs : List Char} {ls : List (List Char)} (hkind : (Piece.read c cs).kind = none)
    (h : Covers (Piece.read c cs).rest ls) : Covers (c :: cs) ls := by
  have hcs := Piece.read_append c cs
  generalize hrest : (Piece.read c cs).rest = x at h hcs
  cases h with
  | last hg =>
    have hgap := hg.append_piece hkind (hrest.trans (List.append_nil x).symm)
    rw [List.cons_append, hcs] at hgap
    exact .last hgap
  | @lexeme g l rest ls hg hl hstart hrest' =>
    have hgap := hg.append_piece hkind hrest
    have h := Covers.lexeme hgap hl hstart hrest'
    rwa [List.append_assoc, List.cons_append, hcs] at h

theorem beginsGap_of_kind {c : Char} {cs : List Char} {kind : Kind} (h : (Piece.read c cs).kind = some kind) :
    beginsGap (c :: cs) = false := by
  have hblank : isBlank c = false := by
    by_contra hb
    rw [Bool.not_eq_false] at hb
    rw [Piece.read_of_isBlank hb] at h
    cases h
  rw [beginsGap, Piece.opens_of_kind h, List.head?_cons, Option.any_some, hblank]
  rfl

theorem covers_readings (cs : List Char) : Covers cs ((readings cs).map fun r => r.2.toList) := by
  induction cs using Piece.induction with
  | nil =>
    rw [readings_nil]
    exact .last .nil
  | cons c cs ih =>
    cases hkind : (Piece.read c cs).kind with
    | none =>
      rw [readings_skip hkind]
      exact ih.skip hkind
    | some kind =>
      have hcs := Piece.read_append c cs
      rw [readings_token hkind, List.map_cons, String.toList_ofList]
      have h := Covers.lexeme (l := c :: (Piece.read c cs).taken) .nil (List.cons_ne_nil _ _)
        (by rw [List.cons_append, hcs]; exact beginsGap_of_kind hkind) ih
      rwa [List.nil_append, List.cons_append, hcs] at h

/-- Every text is made of its lexemes in order and of blanks and whole comments between them. -/
theorem covers_scan (s : String) : Covers s.toList ((scan s).map fun t => t.lexeme.toList) := by
  have h := covers_readings s.toList
  rw [readings, List.map_map] at h
  exact h

/-! ## Reading lexemes again -/

theorem rest_of_open {c : Char} {cs : List Char} (h : Lexeme.closed (c :: cs) = false) :
    (Piece.read c cs).rest = [] := by
  rw [Lexeme.closed] at h
  cases hd : Quoted.closer? c with
  | none =>
    rw [hd] at h
    cases h
  | some d =>
    rw [hd] at h
    obtain ⟨kind, hread⟩ := Piece.read_of_closer hd
    rw [hread]
    exact Quoted.rest_of_open h

/-- A text that is empty or begins with a space. -/
def SetOff (cs : List Char) : Prop :=
  ∀ c ∈ cs.head?, c = ' '

theorem SetOff.resembles {cs : List Char} (h : SetOff cs) (rest : List Char) : Piece.Resembles cs rest where
  head := fun c hc => .inl (by rw [h c hc]; rfl)
  exponent := by
    intro hexp
    obtain ⟨e, c, ds, rfl⟩ := Piece.cons_of_startsWithExponent hexp
    obtain rfl := h e rfl
    cases hexp

/-- A token is read alike in front of any text that is set off from it. An open one goes to the end of everything, so
that nothing can follow it. -/
theorem readings_setOff {c : Char} {cs x : List Char} {kind : Kind} (hkind : (Piece.read c cs).kind = some kind)
    (hx : SetOff x) (hend : (Piece.read c cs).rest = [] → x = []) :
    readings (c :: ((Piece.read c cs).taken ++ x)) =
      (kind, String.ofList (c :: (Piece.read c cs).taken)) :: readings x := by
  cases hclosed : Lexeme.closed (c :: cs) with
  | true => exact readings_replace hkind hclosed (hx.resembles _)
  | false =>
    have hrest := rest_of_open hclosed
    have hcs := Piece.read_append c cs
    rw [hrest, List.append_nil] at hcs
    rw [hend hrest, List.append_nil, hcs, readings_token hkind, hcs, hrest]

/-- The texts of readings with one space between neighbours. -/
def joined (rs : List (Kind × String)) : List Char :=
  [' '].intercalate (rs.map fun r => r.2.toList)

theorem joined_cons_cons (r r' : Kind × String) (rs : List (Kind × String)) :
    joined (r :: r' :: rs) = r.2.toList ++ ' ' :: joined (r' :: rs) := by
  simp [joined, List.intercalate_cons_cons]

theorem readings_joined (cs : List Char) : readings (joined (readings cs)) = readings cs := by
  induction cs using Piece.induction with
  | nil =>
    rw [readings_nil]
    exact readings_nil
  | cons c cs ih =>
    cases hkind : (Piece.read c cs).kind with
    | none => rwa [readings_skip hkind]
    | some kind =>
      rw [readings_token hkind]
      cases hrs : readings (Piece.read c cs).rest with
      | nil =>
        have hlast := readings_setOff (x := []) hkind (by simp [SetOff]) (fun _ => rfl)
        simpa [joined] using hlast
      | cons r rs =>
        rw [hrs] at ih
        have hfollow := readings_setOff (x := ' ' :: joined (r :: rs)) hkind (by simp [SetOff]) (by
          intro hrest
          rw [hrest, readings_nil] at hrs
          cases hrs)
        rw [readings_blank (c := ' ') rfl, ih] at hfollow
        rw [joined_cons_cons, String.toList_ofList]
        exact hfollow

/-- The lexemes of a text with one space between neighbours are read as the tokens of the text. -/
theorem reading_scan_spelled (s : String) : (scan (spelled (scan s))).map reading = (scan s).map reading := by
  have hspelled : (spelled (scan s)).toList = joined (readings s.toList) := by
    rw [spelled, String.toList_intercalate, joined, readings, List.map_map, List.map_map]
    rfl
  have h := readings_joined s.toList
  rw [← hspelled] at h
  exact h

end Token
end SqlLineage
