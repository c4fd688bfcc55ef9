import Mathlib.Data.List.DropRight
import SqlLineage.Text.Line

/-! # The ends of texts and of lines

* `Text.trim_append_blanks`, `Text.trim_trim`: blanks at the end of a text do not matter to `trim`, and it
  leaves none at either end.
* `Text.lines_eq`: the lines of a text are what stands between its newlines, less the carriage returns in front
  of them, where nothing behind the last newline is no line.
* `Text.exists_lines`: what a newline and more text behind it make of the lines of a text. -/

namespace SqlLineage.Text
set_option autoImplicit false

/-! ## Trimming -/

theorem exists_trim (cs : List Char) : ∃ a b, cs = a ++ (trim cs ++ b) ∧
    (∀ c ∈ a, isBlank c = true) ∧ ∀ c ∈ b, isBlank c = true := by
  refine ⟨cs.takeWhile isBlank, ((cs.dropWhile isBlank).reverse.takeWhile isBlank).reverse, ?_,
    fun c hc => List.mem_takeWhile_imp hc, fun c hc => List.mem_takeWhile_imp (List.mem_reverse.mp hc)⟩
  rw [trim, trimEnd, ← List.reverse_append, List.takeWhile_append_dropWhile, List.reverse_reverse,
    List.takeWhile_append_dropWhile]

theorem trimEnd_append_blanks {u : List Char} (hu : ∀ c ∈ u, isBlank c = true) (cs : List Char) :
    trimEnd (cs ++ u) = trimEnd cs := by
  have hu' : ∀ c ∈ u.reverse, isBlank c = true := fun c hc => hu c (List.mem_reverse.mp hc)
  rw [trimEnd, List.reverse_append, List.dropWhile_append_of_pos hu']
  rfl

theorem trim_append_blanks {u : List Char} (hu : ∀ c ∈ u, isBlank c = true) (cs : List Char) :
    trim (cs ++ u) = trim cs := by
  rw [trim, trim, List.dropWhile_append]
  split
  · next h => rw [List.isEmpty_iff.mp h, List.dropWhile_eq_nil_iff.mpr hu]
  · exact trimEnd_append_blanks hu _

theorem trim_trim (cs : List Char) : trim (trim cs) = trim cs := by
  have hend : trimEnd (trim cs) = trim cs := List.rdropWhile_idempotent isBlank _
  have hstart : (trim cs).dropWhile isBlank = trim cs := by
    cases h : trim cs with
    | nil => rfl
    | cons c t =>
      -- the first character is the one at which blanks in front of the text end
      obtain ⟨r, hr⟩ : trim cs <+: cs.dropWhile isBlank := List.rdropWhile_prefix isBlank _
      have hhead := List.head?_dropWhile_not isBlank cs
      rw [← hr, h] at hhead
      exact List.dropWhile_cons_of_neg (Bool.eq_false_iff.mp hhead)
  rw [trim, hstart, hend]

/-! ## Lines -/

/-- A line without the carriage return at its end. -/
def withoutReturn (l : List Char) : List Char :=
  if l.getLast? = some '\r' then l.dropLast else l

theorem withoutReturn_cons {c : Char} {l : List Char} (h : c = '\r' → l ≠ []) :
    withoutReturn (c :: l) = c :: withoutReturn l := by
  cases l with
  | nil =>
    have hc : c ≠ '\r' := fun hc => h hc rfl
    simp [withoutReturn, hc]
  | cons d l =>
    simp only [withoutReturn, List.getLast?_cons_cons, List.dropLast_cons_cons]
    split <;> rfl

theorem exists_withoutReturn (l : List Char) : ∃ u, l = withoutReturn l ++ u ∧ ∀ c ∈ u, isBlank c = true := by
  unfold withoutReturn
  split
  · next h =>
    refine ⟨['\r'], (List.dropLast_append_getLast? '\r' h).symm, ?_⟩
    simp
    rfl
  · exact ⟨[], by simp⟩

theorem trim_withoutReturn (l : List Char) : trim (withoutReturn l) = trim l := by
  obtain ⟨u, hl, hu⟩ := exists_withoutReturn l
  have h := trim_append_blanks hu (withoutReturn l)
  rw [← hl] at h
  exact h.symm

theorem splitOn_newline_cons (c : Char) (cs : List Char) : (c :: cs).splitOn '\n' =
    if c = '\n' then [] :: cs.splitOn '\n' else (cs.splitOn '\n').modifyHead (c :: ·) := by
  unfold List.splitOn
  rw [List.splitOnP_cons_eq_if_modifyHead]
  simp only [beq_iff_eq]

theorem splitOn_newline_append (a b : List Char) :
    (a ++ '\n' :: b).splitOn '\n' = a.splitOn '\n' ++ b.splitOn '\n' :=
  List.splitOnP_append_cons a b (beq_self_eq_true '\n')

theorem head?_of_splitOn_newline {cs l : List Char} {ls : List (List Char)}
    (h : cs.splitOn '\n' = [] :: l :: ls) : cs.head? = some '\n' := by
  cases cs with
  | nil => simp at h
  | cons c cs =>
    rw [splitOn_newline_cons] at h
    split at h
    · next hc => rw [hc, List.head?_cons]
    · cases hcs : cs.splitOn '\n' <;> simp [hcs] at h

theorem exists_lines_eq (cs : List Char) : ∃ ls last, cs.splitOn '\n' = ls ++ [last] ∧
    lines cs = ls.map withoutReturn ++ if last = [] then [] else [last] := by
  fun_induction lines cs with
  | case1 => exact ⟨[], [], rfl, rfl⟩
  | case2 cs ih =>
    obtain ⟨ls, last, hsplit, hlines⟩ := ih
    refine ⟨[] :: ls, last, ?_, by rw [hlines]; rfl⟩
    rw [splitOn_newline_cons, if_pos rfl, hsplit, List.cons_append]
  | case3 cs ih =>
    obtain ⟨ls, last, hsplit, hlines⟩ := ih
    refine ⟨['\r'] :: ls, last, ?_, by rw [hlines]; rfl⟩
    rw [splitOn_newline_cons, if_neg (by decide), splitOn_newline_cons, if_pos rfl, hsplit]
    rfl
  | case4 c cs hn hr hnil ih =>
    obtain ⟨ls, last, hsplit, hlines⟩ := ih
    obtain ⟨hls, hlast⟩ := List.append_eq_nil_iff.mp (hlines.symm.trans hnil)
    obtain rfl := List.map_eq_nil_iff.mp hls
    obtain rfl : last = [] := by simpa using hlast
    refine ⟨[], [c], ?_, by simp⟩
    rw [splitOn_newline_cons, if_neg hn, hsplit]
    rfl
  | case5 c cs hn hr l ls' hl ih =>
    obtain ⟨ls, last, hsplit, hlines⟩ := ih
    rw [hl] at hlines
    cases ls with
    | nil =>
      refine ⟨[], c :: last, ?_, ?_⟩
      · rw [splitOn_newline_cons, if_neg hn, hsplit]
        rfl
      · by_cases hlast : last = [] <;> simp_all
    | cons m ls =>
      refine ⟨(c :: m) :: ls, last, ?_, ?_⟩
      · rw [splitOn_newline_cons, if_neg hn, hsplit]
        rfl
      · have hreturn : c = '\r' → m ≠ [] := by
          -- a carriage return on a line of its own would have been read with the newline behind it
          rintro rfl rfl
          obtain ⟨x, rfl⟩ : ∃ x, cs = '\n' :: x := by
            cases ls <;> exact List.head?_eq_some_iff.mp (head?_of_splitOn_newline hsplit)
          exact hr x rfl rfl
        obtain ⟨rfl, rfl⟩ := List.cons.inj hlines
        rw [List.map_cons, withoutReturn_cons hreturn]
        rfl

theorem lines_eq {cs last : List Char} {ls : List (List Char)} (h : cs.splitOn '\n' = ls ++ [last]) :
    lines cs = ls.map withoutReturn ++ if last = [] then [] else [last] := by
  obtain ⟨ls', last', hsplit, hlines⟩ := exists_lines_eq cs
  obtain ⟨rfl, hlast⟩ := List.append_inj' (hsplit.symm.trans h) rfl
  obtain rfl := List.singleton_inj.mp hlast
  exact hlines

/-- The lines of a text, alone and with more text behind a newline: the last line loses its carriage return, and an
empty one counts. -/
theorem exists_lines (cs : List Char) : ∃ ls last,
    lines cs = ls ++ (if last = [] then [] else [last]) ∧
      ∀ x, lines (cs ++ '\n' :: x) = ls ++ withoutReturn last :: lines x := by
  obtain ⟨ls, last, hcs, hlines⟩ := exists_lines_eq cs
  refine ⟨ls.map withoutReturn, last, hlines, fun x => ?_⟩
  obtain ⟨ms, m, hx, hlines'⟩ := exists_lines_eq x
  have h : (cs ++ '\n' :: x).splitOn '\n' = (ls ++ last :: ms) ++ [m] := by
    rw [splitOn_newline_append, hcs, hx]
    simp
  rw [lines_eq h, hlines']
  simp

theorem lines_append_newline {l : List Char} (hl : '\n' ∉ l) (x : List Char) :
    lines (l ++ '\n' :: x) = withoutReturn l :: lines x := by
  obtain ⟨ms, m, hx, hlines⟩ := exists_lines_eq x
  have h : (l ++ '\n' :: x).splitOn '\n' = (l :: ms) ++ [m] := by
    rw [splitOn_newline_append, List.splitOn_eq_singleton hl, hx]
    rfl
  rw [lines_eq h, hlines]
  rfl

end SqlLineage.Text
