import Mathlib.Data.List.DropRight
import SqlLineage.Proofs.Token.Lexeme

/-! # Where tokens end

The line and the column of a token are those of the place behind its lexeme, whatever stands in front of it.

* `Token.Through`: the part of a text that ends with one of its lexemes.
* `Position.after_eq`: a place in terms of the newlines in front of it.
* `Token.scanFrom_gap`: a gap moves the place and nothing else.
* `Token.scan_place`: the place of every token, counted in the text up to its end; `Token.scan_place_le`: how far
  places can go. -/

namespace SqlLineage
open SqlLineage.Text
set_option autoImplicit false

/-! ## Counting -/

/-- A line more for every newline, and a column more for every character behind the last one. -/
theorem Position.after_eq (p : List Char) :
    Position.start.after p = ⟨1 + p.count '\n', 1 + (p.rtakeWhile (· ≠ '\n')).length⟩ := by
  induction p using List.reverseRecOn with
  | nil => rfl
  | append_singleton p c ih =>
    rw [after_append, ih, after_cons, after_nil, step, List.count_append]
    by_cases hc : c = '\n'
    · subst hc
      rw [if_pos rfl, List.rtakeWhile_concat_neg _ _ _ (by simp)]
      rfl
    · rw [if_neg hc, List.rtakeWhile_concat_pos _ _ _ (by simpa using hc), List.count_singleton,
        if_neg (by simpa using hc), List.length_append]
      rfl

/-- In front of the end of a text there are no more lines than newlines, and no longer lines than the text. -/
theorem Position.after_le {p cs : List Char} (h : p <+: cs) :
    (Position.start.after p).line ≤ cs.length + 1 ∧ (Position.start.after p).col ≤ cs.length + 1 := by
  have hlines := (List.count_le_length (a := '\n')).trans h.length_le
  have hcolumns := (List.rtakeWhile_suffix (· ≠ '\n') p).length_le.trans h.length_le
  rw [after_eq, Nat.add_comm cs.length]
  exact ⟨Nat.add_le_add_left hlines 1, Nat.add_le_add_left hcolumns 1⟩

/-! ## Reading gaps -/

theorem Comment.line_body {body rest : List Char} (hbody : '\n' ∉ body) (hrest : ∀ c ∈ rest.head?, c = '\n') :
    line (body ++ rest) = (body, rest) := by
  have hall : body.takeWhile (· != '\n') = body :=
    List.takeWhile_eq_self_iff.mpr fun c hc => bne_iff_ne.mpr fun h => hbody (h ▸ hc)
  have hstop : rest.head?.any (· != '\n') = false := by
    cases rest with
    | nil => rfl
    | cons c rest =>
      obtain rfl := hrest c rfl
      rfl
  obtain ⟨htake, hdrop⟩ := Text.span_replace (· != '\n') body hstop
  rw [hall] at htake hdrop
  rw [line, htake, hdrop]

theorem Comment.block_cons {c : Char} {cs : List Char} (h : c = '*' → cs.head? ≠ some '/') :
    block (c :: cs) = (block cs).map (List.cons c) id := by
  rw [block]
  rintro x rfl rfl
  exact h rfl rfl

/-- Text that closes no block comment is passed by, whatever follows that cannot close one together with it. -/
theorem Comment.block_append_of_open {body cs : List Char} (hbody : ¬ ['*', '/'] <:+: body)
    (hcs : cs.head? ≠ some '/') : block (body ++ cs) = (body ++ (block cs).1, (block cs).2) := by
  induction body with
  | nil => rfl
  | cons c body ih =>
    rw [List.infix_cons_iff, not_or] at hbody
    rw [List.cons_append, block_cons, ih hbody.2]
    · rfl
    · rintro rfl hhead
      cases body with
      | nil => exact hcs hhead
      | cons d body =>
        obtain rfl : d = '/' := Option.some.inj hhead
        exact hbody.1 (by simp)

/-- A whole comment is read as one piece, which is no token. -/
theorem Piece.read_whole {c : Char} {k rest : List Char} (h : Comment.Whole rest (c :: k)) :
    read c (k ++ rest) = ⟨none, k, rest⟩ := by
  cases h with
  | @line body hbody hrest =>
    have hline : Comment.line (('-' :: body) ++ rest) = ('-' :: body, rest) :=
      Comment.line_body (by simpa using hbody) hrest
    exact congrArg (fun x => (⟨none, x.1, x.2⟩ : Piece)) hline
  | @block body hbody =>
    have hblock : Comment.block (body ++ '*' :: '/' :: rest) = (body ++ ['*', '/'], rest) :=
      Comment.block_append_of_open hbody (by simp)
    rw [List.cons_append, List.append_assoc]
    exact congrArg (fun x => (⟨none, '*' :: x.1, x.2⟩ : Piece)) hblock
  | @openBlock body hbody hrest =>
    subst hrest
    have hblock : Comment.block (body ++ []) = (body, []) :=
      (Comment.block_append_of_open hbody (by simp)).trans (congrArg (·, []) body.append_nil)
    exact congrArg (fun x => (⟨none, '*' :: x.1, x.2⟩ : Piece)) hblock

namespace Token

theorem scanFrom_skip {p : Position} {c : Char} {cs k rest : List Char} (h : Piece.read c cs = ⟨none, k, rest⟩) :
    scanFrom p (c :: cs) = scanFrom (p.after (c :: k)) rest := by
  rw [scanFrom, h]

/-- A gap moves the place from which the rest of the text is read, and nothing else. -/
theorem scanFrom_gap {g rest : List Char} (h : Gap rest g) (p : Position) :
    scanFrom p (g ++ rest) = scanFrom (p.after g) rest := by
  induction h generalizing p with
  | nil => rfl
  | @blank c g hc _ ih =>
    rw [List.cons_append, scanFrom_skip (Piece.read_of_isBlank hc _), ih]
    rfl
  | @comment k g hk _ ih =>
    cases k with
    | nil => cases hk
    | cons c k =>
      rw [List.append_assoc, List.cons_append, scanFrom_skip (Piece.read_whole hk), ih, Position.after_append]

/-- Where no gap begins, a token does. -/
theorem exists_kind {c : Char} {cs : List Char} (h : beginsGap (c :: cs) = false) :
    ∃ kind, (Piece.read c cs).kind = some kind := by
  rw [← Option.isSome_iff_exists, ← Option.ne_none_iff_isSome]
  intro hnone
  rw [beginsGap, Bool.or_eq_false_iff, List.head?_cons, Option.any_some] at h
  rcases Piece.skip_cases hnone with ⟨rfl, x, rfl⟩ | ⟨rfl, x, rfl⟩ | ⟨hc, -⟩
  · cases h.2
  · cases h.2
  · rw [hc] at h
    cases h.1

/-! ## The part of a text in front of the end of a token -/

/-- The text is made of the lexemes and of gaps, as in `Covers`, and `p` is its part that ends with the lexeme at
`i`. -/
inductive Through : List Char → List (List Char) → Nat → List Char → Prop where
  | here {g l rest : List Char} {ls : List (List Char)} (hg : Gap (l ++ rest) g) (hl : l ≠ [])
    (hstart : beginsGap (l ++ rest) = false) (hrest : Covers rest ls) : Through (g ++ (l ++ rest)) (l :: ls) 0 (g ++ l)
  | later {g l rest p : List Char} {ls : List (List Char)} {i : Nat} (hg : Gap (l ++ rest) g) (hl : l ≠ [])
    (hstart : beginsGap (l ++ rest) = false) (hrest : Through rest ls i p) :
    Through (g ++ (l ++ rest)) (l :: ls) (i + 1) (g ++ (l ++ p))

theorem Covers.exists_through {cs : List Char} {ls : List (List Char)} (h : Covers cs ls) {i : Nat}
    (hi : i < ls.length) : ∃ p, Through cs ls i p := by
  induction h generalizing i with
  | last => cases hi
  | lexeme hg hl hstart hrest ih =>
    cases i with
    | zero => exact ⟨_, .here hg hl hstart hrest⟩
    | succ i =>
      obtain ⟨p, hp⟩ := ih (Nat.lt_of_succ_lt_succ hi)
      exact ⟨_, .later hg hl hstart hp⟩

theorem Through.isPart {cs p : List Char} {ls : List (List Char)} {i : Nat} (h : Through cs ls i p) : p <+: cs := by
  induction h with
  | here => exact (List.prefix_append_right_inj _).mpr (List.prefix_append _ _)
  | later _ _ _ _ ih => exact (List.prefix_append_right_inj _).mpr ((List.prefix_append_right_inj _).mpr ih)

theorem Through.suffix {cs p : List Char} {ls : List (List Char)} {i : Nat} (h : Through cs ls i p) :
    ∀ l ∈ ls[i]?, l <:+ p := by
  induction h with
  | here =>
    rintro l hl
    obtain rfl := Option.some.inj hl
    exact List.suffix_append _ _
  | later _ _ _ _ ih =>
    intro l hl
    exact (ih l hl).trans ((List.suffix_append _ _).trans (List.suffix_append _ _))

/-- The token at the head of a text is the first lexeme, at the place behind it. -/
theorem scanFrom_lexeme {p : Position} {l rest : List Char} {ls : List (List Char)} (hl : l ≠ [])
    (hstart : beginsGap (l ++ rest) = false) (hls : (scanFrom p (l ++ rest)).map (fun t => t.lexeme.toList) = l :: ls) :
    ∃ kind, scanFrom p (l ++ rest) =
      ⟨kind, String.ofList l, (p.after l).line, (p.after l).col⟩ :: scanFrom (p.after l) rest := by
  obtain ⟨c, x, rfl⟩ := List.exists_cons_of_ne_nil hl
  rw [List.cons_append] at hstart hls ⊢
  obtain ⟨kind, hkind⟩ := exists_kind hstart
  have hsplit := Piece.read_append c (x ++ rest)
  rw [scanFrom, hkind] at hls ⊢
  simp only [List.map_cons, String.toList_ofList, List.cons.injEq, true_and] at hls
  rw [hls.1, List.append_cancel_left_eq] at hsplit
  exact ⟨kind, by rw [hls.1, hsplit]⟩

/-- The place of a token is the place behind everything up to its end. -/
theorem Through.place {cs q : List Char} {ls : List (List Char)} {i : Nat} (h : Through cs ls i q) {p : Position}
    (hls : (scanFrom p cs).map (fun t => t.lexeme.toList) = ls) {t : Token} (ht : (scanFrom p cs)[i]? = some t) :
    p.after q = ⟨t.line, t.col⟩ := by
  induction h generalizing p with
  | @here g l rest ls hg hl hstart _ =>
    rw [scanFrom_gap hg] at hls ht
    obtain ⟨kind, hscan⟩ := scanFrom_lexeme hl hstart hls
    rw [hscan, List.getElem?_cons_zero] at ht
    obtain rfl := Option.some.inj ht
    rw [Position.after_append]
  | @later g l rest q ls i hg hl hstart _ ih =>
    rw [scanFrom_gap hg] at hls ht
    obtain ⟨kind, hscan⟩ := scanFrom_lexeme hl hstart hls
    rw [hscan, List.map_cons] at hls
    rw [hscan, List.getElem?_cons_succ] at ht
    rw [Position.after_append, Position.after_append]
    exact ih (List.cons.inj hls).2 ht

theorem exists_through_scan {s : String} {i : Nat} {t : Token} (ht : (scan s)[i]? = some t) :
    ∃ p, Through s.toList ((scan s).map fun t => t.lexeme.toList) i p := by
  have hcovers := covers_readings s.toList
  rw [readings, List.map_map] at hcovers
  obtain ⟨hi, -⟩ := List.getElem?_eq_some_iff.mp ht
  exact hcovers.exists_through (by rwa [List.length_map])

/-- No line and no column of a token goes beyond the number of characters by more than one. -/
theorem scan_place_le (s : String) : ∀ t ∈ scan s, t.line ≤ s.length + 1 ∧ t.col ≤ s.length + 1 := by
  intro t ht
  obtain ⟨i, hi⟩ := List.getElem?_of_mem ht
  obtain ⟨p, hp⟩ := exists_through_scan hi
  have hle := Position.after_le hp.isPart
  rwa [hp.place rfl hi, String.length_toList] at hle

/-- A token tells the line and the column behind its lexeme: one more than the newlines in the text up to there, and one
more than the characters behind the last of these newlines. -/
theorem scan_place (s : String) (i : Nat) (t : Token) (ht : (scan s)[i]? = some t) :
    (∃ p, Through s.toList ((scan s).map fun t => t.lexeme.toList) i p) ∧
    ∀ p, Through s.toList ((scan s).map fun t => t.lexeme.toList) i p →
      p <+: s.toList ∧ t.lexeme.toList <:+ p ∧
        t.line = 1 + p.count '\n' ∧ t.col = 1 + (p.rtakeWhile (· ≠ '\n')).length := by
  refine ⟨exists_through_scan ht, fun p hp => ⟨hp.isPart, hp.suffix _ ?_, ?_⟩⟩
  · rw [List.getElem?_map, ht]
    rfl
  · have hplace := hp.place rfl ht
    rw [Position.after_eq] at hplace
    obtain ⟨hline, hcol⟩ := Position.mk.inj hplace
    exact ⟨hline.symm, hcol.symm⟩

theorem scan_place_behind_breaks :
    (scan "a /* x\ny */ 'b\nc' d")[2]? = some ⟨.word "d", "d", 3, 5⟩ ∧
    ∃ p, Through "a /* x\ny */ 'b\nc' d".toList [['a'], "'b\nc'".toList, ['d']] 2 p ∧
      3 = 1 + p.count '\n' ∧ 5 = 1 + (p.rtakeWhile (· ≠ '\n')).length := by
  have ht : (scan "a /* x\ny */ 'b\nc' d")[2]? = some ⟨.word "d", "d", 3, 5⟩ := by decide +kernel
  have hls : (scan "a /* x\ny */ 'b\nc' d").map (fun t => t.lexeme.toList) = [['a'], "'b\nc'".toList, ['d']] := by
    decide +kernel
  obtain ⟨⟨p, hp⟩, hplace⟩ := scan_place _ _ _ ht
  obtain ⟨-, -, hline, hcol⟩ := hplace p hp
  rw [hls] at hp
  exact ⟨ht, p, hp, hline, hcol⟩

end Token
end SqlLineage
