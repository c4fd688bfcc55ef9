import SqlLineage.Proofs.Checked.Access
import SqlLineage.Token.Scan

/-! # Scanning without faults

The scanner goes over the characters of a text by index. It looks ahead freely, but taking a character behind the
end of the text is a fault, and so is cutting out a text that is not there.

* `Checked.strip_eq`: comments are removed without a fault.
* `Checked.scan_eq`: tokens are read without a fault. -/

namespace SqlLineage
open SqlLineage.Text
set_option autoImplicit false

namespace Checked

/-! ## Looking ahead -/

/-- The character at an index; the null character stands behind the end. -/
def peek (cs : List Char) (i : Nat) : Checked Char :=
  if cs.length ≤ i then .ok '\x00' else get cs i

theorem peek_eq (cs : List Char) (i : Nat) : peek cs i = .ok ((cs.drop i).head?.getD '\x00') := by
  rw [List.head?_drop]
  unfold peek
  split
  · next h => rw [List.getElem?_eq_none h, Option.getD_none]
  · next h => rw [get_eq (List.getElem?_eq_getElem (Nat.lt_of_not_le h)), List.getElem?_eq_getElem (Nat.lt_of_not_le h),
      Option.getD_some]

theorem peek_cons {cs : List Char} {i : Nat} {c : Char} {rest : List Char} (h : cs.drop i = c :: rest) :
    peek cs i = .ok c := by
  rw [peek_eq, h]
  rfl

theorem peek_nil {cs : List Char} {i : Nat} (h : cs.drop i = []) : peek cs i = .ok '\x00' := by
  rw [peek_eq, h]
  rfl

theorem head?_eq {d : Char} (hd : d ≠ '\x00') {cs : List Char} : cs.head?.getD '\x00' = d ↔ cs.head? = some d := by
  cases cs.head? with
  | none => simp [hd.symm]
  | some c => simp

/-- A reader that begins at the index `i` stops at the index `j`, where `rest` follows. -/
structure Stops (cs : List Char) (i j : Nat) (rest : List Char) : Prop where
  le : i ≤ j
  within : j ≤ cs.length
  rest : cs.drop j = rest

/-- What was taken on the way. -/
theorem Stops.taken {cs : List Char} {i j : Nat} {l rest : List Char} (h : Stops cs i j rest)
    (happ : l ++ rest = cs.drop i) : slice cs i j = .ok l ∧ cs.take j = cs.take i ++ l := by
  have hlength : (cs.drop i).length = l.length + rest.length := by rw [← happ, List.length_append]
  rw [List.length_drop] at hlength
  have hrest : rest.length = cs.length - j := by rw [← h.rest, List.length_drop]
  have hj : j = i + l.length := by
    have := h.le
    have := h.within
    omega
  refine ⟨?_, ?_⟩
  · rw [slice_eq h.le h.within, Token.Span.of, hj, Nat.add_sub_cancel_left, ← happ, List.take_left]
  · rw [hj, List.take_add, ← happ, List.take_left]

theorem stops_succ {cs : List Char} {i : Nat} {c : Char} {rest : List Char} (h : cs.drop i = c :: rest) :
    get cs i = .ok c ∧ i < cs.length ∧ Stops cs (i + 1) (i + 1) rest := by
  have hi : cs[i]? = some c := by rw [← List.head?_drop, h, List.head?_cons]
  have hlt := (List.getElem?_eq_some_iff.mp hi).1
  refine ⟨get_eq hi, hlt, Nat.le_refl _, hlt, ?_⟩
  rw [← List.tail_drop, h, List.tail_cons]

/-! ## Runs of characters -/

/-- Takes characters as long as the guard says so. -/
def skip (cs : List Char) (guard : Nat → Checked Bool) (i : Nat) : Checked Nat :=
  match guard i with
  | .error e => .error e
  | .ok false => .ok i
  | .ok true =>
    match _h : get cs i with
    | .error e => .error e
    | .ok _ => skip cs guard (i + 1)
termination_by cs.length - i
decreasing_by
  have hlt := (List.getElem?_eq_some_iff.mp (get_eq_iff.mp _h)).1
  omega

/-- The rest of a text behind the characters in front of which `p` holds. -/
def behindRun (p : List Char → Bool) : List Char → List Char
  | [] => []
  | c :: cs => if p (c :: cs) then behindRun p cs else c :: cs

theorem behindRun_head (q : Char → Bool) (cs : List Char) :
    behindRun (fun s => s.head?.any q) cs = cs.dropWhile q := by
  induction cs with
  | nil => rfl
  | cons c cs ih =>
    rw [behindRun, List.head?_cons, Option.any_some, List.dropWhile_cons, ih]

/-- A guard that is never met behind the end of the text stops the run there, if nothing else does. -/
theorem skip_eq {cs : List Char} {guard : Nat → Checked Bool} {p : List Char → Bool} (hnil : p [] = false)
    (hguard : ∀ j, guard j = .ok (p (cs.drop j))) {i : Nat} (hi : i ≤ cs.length) :
    ∃ j, skip cs guard i = .ok j ∧ Stops cs i j (behindRun p (cs.drop i)) := by
  generalize hn : cs.length - i = n
  induction n generalizing i with
  | zero =>
    have hdrop : cs.drop i = [] := List.drop_eq_nil_of_le (by omega)
    refine ⟨i, ?_, Nat.le_refl _, hi, ?_⟩
    · rw [skip, hguard, hdrop, hnil]
    · rw [hdrop, behindRun]
  | succ n ih =>
    have hlt : i < cs.length := by omega
    have hdrop := List.drop_eq_getElem_cons hlt
    obtain ⟨hget, -, hnext⟩ := stops_succ hdrop
    unfold skip
    rw [hguard]
    cases hp : p (cs.drop i) with
    | false =>
      refine ⟨i, rfl, Nat.le_refl _, hi, ?_⟩
      rw [hdrop] at hp ⊢
      rw [behindRun, hp]
      rfl
    | true =>
      obtain ⟨j, hj, hstops⟩ := ih (i := i + 1) (by omega) (by omega)
      refine ⟨j, ?_, ?_⟩
      · dsimp only
        split
        · next e he =>
          rw [hget] at he
          cases he
        · exact hj
      · rw [hdrop] at hp ⊢
        rw [behindRun, if_pos hp]
        exact ⟨by have := hstops.le; omega, hstops.within, hstops.rest⟩

def runGuard (cs : List Char) (q : Char → Bool) (i : Nat) : Checked Bool :=
  q <$> peek cs i

/-- A run of characters for each of which `q` holds; it does not hold of the null character. -/
theorem skip_run {cs : List Char} {q : Char → Bool} (hq : q '\x00' = false) {i : Nat} (hi : i ≤ cs.length) :
    ∃ j, skip cs (runGuard cs q) i = .ok j ∧ Stops cs i j ((cs.drop i).dropWhile q) := by
  rw [← behindRun_head]
  refine skip_eq rfl (fun j => ?_) hi
  rw [runGuard, peek_eq, map_ok]
  cases (cs.drop j).head? with
  | none => rw [Option.getD_none, hq, Option.any_none]
  | some c => rfl

/-! ## Comments -/

def lineGuard (cs : List Char) (i : Nat) : Checked Bool :=
  if cs.length ≤ i then .ok false else (· != '\n') <$> peek cs i

def lineComment (cs : List Char) (i : Nat) : Checked Nat :=
  skip cs (lineGuard cs) i

theorem lineComment_eq {cs : List Char} {i : Nat} (hi : i ≤ cs.length) :
    ∃ j, lineComment cs i = .ok j ∧ Stops cs i j (Comment.line (cs.drop i)).2 := by
  have hrest : (Comment.line (cs.drop i)).2 = behindRun (fun s => s.head?.any (· != '\n')) (cs.drop i) :=
    (behindRun_head _ _).symm
  rw [hrest]
  refine skip_eq rfl (fun j => ?_) hi
  unfold lineGuard
  split
  · next h => rw [List.drop_eq_nil_of_le h, List.head?_nil, Option.any_none]
  · next h =>
    rw [peek_eq, map_ok, List.drop_eq_getElem_cons (Nat.lt_of_not_le h)]
    rfl

/-- Whether a block comment goes on in front of a text. -/
def goesOn : List Char → Bool
  | [] => false
  | c :: cs => !(c == '*' && cs.head?.getD '\x00' == '/')

def blockGuard (cs : List Char) (i : Nat) : Checked Bool :=
  if cs.length ≤ i then .ok false
  else do
    let c ← peek cs i
    let next ← peek cs (i + 1)
    .ok (!(c == '*' && next == '/'))

/-- Takes the star at `i`, and everything through the end of the block comment that begins with it. -/
def blockComment (cs : List Char) (i : Nat) : Checked Nat := do
  let _ ← get cs i
  let j ← skip cs (blockGuard cs) (i + 1)
  if j < cs.length then
    let _ ← get cs j
    let _ ← get cs (j + 1)
    .ok (j + 2)
  else .ok j

theorem rest_block (cs : List Char) : (Comment.block cs).2 = (behindRun goesOn cs).drop 2 := by
  fun_induction Comment.block cs with
  | case1 => rfl
  | case2 cs => rfl
  | case3 c cs hne ih =>
    have hgoes : goesOn (c :: cs) = true := by
      rw [goesOn, Bool.not_eq_true', Bool.and_eq_false_iff]
      by_cases hc : c = '*'
      · refine .inr ?_
        cases cs with
        | nil => rfl
        | cons d cs => exact beq_eq_false_iff_ne.mpr fun hd : d = '/' => hne cs hc (by rw [hd])
      · exact .inl (beq_eq_false_iff_ne.mpr hc)
    rw [behindRun, if_pos hgoes]
    exact ih

theorem behindRun_goesOn (cs : List Char) : behindRun goesOn cs = [] ∨ ∃ rest, behindRun goesOn cs = '*' :: '/' :: rest := by
  induction cs with
  | nil => exact .inl rfl
  | cons c cs ih =>
    unfold behindRun
    split
    · exact ih
    · next h =>
      right
      rw [goesOn, Bool.not_eq_true, Bool.not_eq_false', Bool.and_eq_true, beq_iff_eq, beq_iff_eq] at h
      obtain ⟨rfl, hd⟩ := h
      cases cs with
      | nil => exact absurd hd (by decide)
      | cons d cs => exact ⟨cs, by rw [show d = '/' from hd]⟩

theorem blockComment_eq {cs : List Char} {i : Nat} {rest : List Char} (h : cs.drop i = '*' :: rest) :
    ∃ j, blockComment cs i = .ok j ∧ Stops cs (i + 1) j (Comment.block rest).2 := by
  obtain ⟨hget, -, hnext⟩ := stops_succ h
  have hguard : ∀ j, blockGuard cs j = .ok (goesOn (cs.drop j)) := by
    intro j
    unfold blockGuard
    split
    · next hj =>
      rw [List.drop_eq_nil_of_le hj]
      rfl
    · next hj =>
      rw [peek_eq, ok_bind, peek_eq, ok_bind, ← List.tail_drop, List.drop_eq_getElem_cons (Nat.lt_of_not_le hj)]
      rfl
  obtain ⟨j, hj, hstops⟩ := skip_eq rfl hguard hnext.within
  rw [hnext.rest] at hstops
  rw [blockComment, hget, ok_bind, hj, ok_bind, rest_block]
  rcases behindRun_goesOn rest with hnil | ⟨after, hafter⟩
  · have hend : cs.length ≤ j := List.drop_eq_nil_iff.mp (hstops.rest.trans hnil)
    rw [if_neg (Nat.not_lt.mpr hend)]
    exact ⟨j, rfl, hstops.le, hstops.within, by rw [hstops.rest, hnil]; rfl⟩
  · obtain ⟨hstar, hlt, hslash⟩ := stops_succ (hstops.rest.trans hafter)
    obtain ⟨hget', -, hbehind⟩ := stops_succ hslash.rest
    rw [if_pos hlt, hstar, ok_bind, hget', ok_bind, hafter]
    exact ⟨j + 2, rfl, by have := hstops.le; omega, hbehind.within, hbehind.rest⟩

/-! ## A text without comments -/

/-- The characters from `i` on through the next `q`. -/
def through (cs : List Char) (q : Char) (i : Nat) : Checked (List Char × Nat) :=
  if cs.length ≤ i then .ok ([], i)
  else do
    let c ← get cs i
    if c = q then .ok ([c], i + 1) else Prod.map (List.cons c) id <$> through cs q (i + 1)
termination_by cs.length - i

theorem through_eq {cs : List Char} (q : Char) {i : Nat} (hi : i ≤ cs.length) :
    ∃ j, through cs q i = .ok ((Comment.through q (cs.drop i)).1, j) ∧ Stops cs i j (Comment.through q (cs.drop i)).2 := by
  generalize hn : cs.length - i = n
  induction n generalizing i with
  | zero =>
    have hdrop : cs.drop i = [] := List.drop_eq_nil_of_le (by omega)
    rw [through, if_pos (by omega), hdrop]
    exact ⟨i, rfl, Nat.le_refl _, hi, hdrop⟩
  | succ n ih =>
    have hlt : i < cs.length := by omega
    have hdrop := List.drop_eq_getElem_cons hlt
    obtain ⟨hget, -, hnext⟩ := stops_succ hdrop
    obtain ⟨j, hj, hstops⟩ := ih (i := i + 1) (by omega) (by omega)
    rw [through, if_neg (by omega), hget, ok_bind, hdrop, Comment.through]
    split
    · exact ⟨i + 1, rfl, Nat.le_succ i, hnext.within, hnext.rest⟩
    · rw [hj, map_ok]
      exact ⟨j, rfl, by have := hstops.le; omega, hstops.within, hstops.rest⟩

/-- What is left of one comment, one quoted text or one other character, and the index behind it. -/
def stripStep (cs : List Char) (i : Nat) : Checked (List Char × Nat) := do
  let c ← get cs i
  let next ← peek cs (i + 1)
  if c = '-' ∧ next = '-' then (fun j => ([], j)) <$> lineComment cs (i + 1)
  else if c = '/' ∧ next = '*' then (fun j => ([' '], j)) <$> blockComment cs (i + 1)
  else if Comment.isQuote c then Prod.map (List.cons c) id <$> through cs c (i + 1)
  else .ok ([c], i + 1)

def strip (s : String) : Checked String :=
  (fun cs => String.ofList (trim cs)) <$> iterate s.toList.length (stripStep s.toList) 0

theorem stripStep_eq {cs : List Char} {i : Nat} (hi : i < cs.length) :
    ∃ out next, stripStep cs i = .ok (out, next) ∧ i < next ∧
      Comment.remove (cs.drop i) = out ++ Comment.remove (cs.drop next) := by
  have hdrop := List.drop_eq_getElem_cons hi
  obtain ⟨hget, -, hnext⟩ := stops_succ hdrop
  unfold stripStep
  rw [hget, ok_bind, peek_eq, ok_bind, hdrop, Comment.remove]
  simp only [head?_eq (show '-' ≠ '\x00' by decide), head?_eq (show '*' ≠ '\x00' by decide)]
  split
  · obtain ⟨j, hj, hstops⟩ := lineComment_eq hnext.within
    rw [hj, map_ok]
    exact ⟨[], j, rfl, hstops.le, by rw [hstops.rest]; rfl⟩
  · split
    · next hblock =>
      obtain ⟨rest, hrest⟩ : ∃ rest, cs.drop (i + 1) = '*' :: rest := List.head?_eq_some_iff.mp hblock.2
      obtain ⟨j, hj, hstops⟩ := blockComment_eq hrest
      rw [hj, map_ok, hrest, List.tail_cons]
      exact ⟨[' '], j, rfl, by have := hstops.le; omega, by rw [hstops.rest]; rfl⟩
    · split
      · obtain ⟨j, hj, hstops⟩ := through_eq cs[i] hnext.within
        rw [hj, map_ok]
        exact ⟨_, j, rfl, hstops.le, by rw [hstops.rest]; rfl⟩
      · exact ⟨_, i + 1, rfl, Nat.lt_succ_self i, rfl⟩

theorem strip_eq (s : String) : strip s = .ok (Comment.strip s) := by
  have hend : ∀ i, s.toList.length ≤ i → Comment.remove (s.toList.drop i) = [] := by
    intro i hi
    rw [List.drop_eq_nil_of_le hi, Comment.remove]
  have hremove := iterate_eq (f := fun i => Comment.remove (s.toList.drop i)) hend (fun i hi => stripStep_eq hi) 0
  rw [strip, hremove]
  rfl

/-! ## Quoted text and numbers -/

/-- The value of a quoted text that goes on at `i`, and the index behind its closing delimiter. -/
def delimited (cs : List Char) (d : Char) (i : Nat) : Checked (List Char × Nat) :=
  if cs.length ≤ i then .ok ([], i)
  else do
    let c ← get cs i
    let next ← peek cs (i + 1)
    if c = d then
      if next = d ∧ d ≠ ']' then
        let _ ← get cs (i + 1)
        Prod.map (List.cons d) id <$> delimited cs d (i + 2)
      else .ok ([], i + 1)
    else Prod.map (List.cons c) id <$> delimited cs d (i + 1)
termination_by cs.length - i

theorem delimited_eq {cs : List Char} {d : Char} (hd : d ≠ '\x00') {i : Nat} (hi : i ≤ cs.length) :
    ∃ j, delimited cs d i = .ok ((Quoted.read d (cs.drop i)).value, j) ∧
      Stops cs i j (Quoted.read d (cs.drop i)).rest := by
  generalize hn : cs.length - i = n
  induction n using Nat.strongRecOn generalizing i with
  | ind n ih =>
    rcases Nat.lt_or_ge i cs.length with hlt | hge
    · have hdrop := List.drop_eq_getElem_cons hlt
      obtain ⟨hget, -, hnext⟩ := stops_succ hdrop
      rw [delimited, if_neg (by omega), hget, ok_bind, hdrop, Quoted.read.eq_def]
      dsimp only
      by_cases hc : cs[i] = d
      · rw [if_pos hc]
        cases hrest : cs.drop (i + 1) with
        | nil =>
          rw [peek_nil hrest, ok_bind, if_pos hc, if_neg fun h => hd h.1.symm]
          exact ⟨i + 1, rfl, Nat.le_succ i, hnext.within, hrest⟩
        | cons c' cs' =>
          obtain ⟨hget', -, hnext'⟩ := stops_succ hrest
          rw [peek_cons hrest, ok_bind, if_pos hc]
          dsimp only
          by_cases hc' : c' = d ∧ d ≠ ']'
          · obtain ⟨j, hj, hstops⟩ := ih (cs.length - (i + 2)) (by omega) hnext'.within rfl
            rw [hnext'.rest] at hj hstops
            rw [if_pos hc', if_pos hc', hget', ok_bind, hj, map_ok]
            exact ⟨j, rfl, by have := hstops.le; omega, hstops.within, hstops.rest⟩
          · rw [if_neg hc', if_neg hc']
            exact ⟨i + 1, rfl, Nat.le_succ i, hnext.within, hrest⟩
      · obtain ⟨j, hj, hstops⟩ := ih (cs.length - (i + 1)) (by omega) hnext.within rfl
        rw [peek_eq, ok_bind, if_neg hc, if_neg hc, hj, map_ok]
        exact ⟨j, rfl, by have := hstops.le; omega, hstops.within, hstops.rest⟩
    · have hdrop : cs.drop i = [] := List.drop_eq_nil_of_le hge
      rw [delimited, if_pos hge, hdrop]
      exact ⟨i, rfl, Nat.le_refl _, hi, hdrop⟩

/-- Whether three characters are the letter of an exponent, maybe a sign, and a digit. -/
def beginsExponent (e sign digit : Char) : Bool :=
  (e == 'e' || e == 'E') && (sign.isDigit || ((sign == '+' || sign == '-') && digit.isDigit))

theorem beginsExponent_eq (cs : List Char) :
    beginsExponent (cs.head?.getD '\x00') (cs.tail.head?.getD '\x00') ((cs.drop 2).head?.getD '\x00') =
      startsWithExponent cs := by
  cases cs with
  | nil => rfl
  | cons e cs =>
    cases cs with
    | nil => exact Bool.and_false _
    | cons sign cs => cases cs <;> rfl

/-- The index behind an exponent, if one stands at `i`. -/
def exponent (cs : List Char) (i : Nat) : Checked Nat := do
  let e ← peek cs i
  let sign ← peek cs (i + 1)
  let digit ← peek cs (i + 2)
  if beginsExponent e sign digit then
    let _ ← get cs i
    let _ ← get cs (i + 1)
    skip cs (runGuard cs Char.isDigit) (i + 2)
  else .ok i

theorem exponent_eq {cs : List Char} {i : Nat} (hi : i ≤ cs.length) :
    ∃ j, exponent cs i = .ok j ∧ Stops cs i j (SqlLineage.exponent (cs.drop i)).2 := by
  have htwo : cs.drop (i + 2) = (cs.drop i).drop 2 := by rw [List.drop_drop]
  unfold exponent SqlLineage.exponent
  rw [peek_eq, ok_bind, peek_eq, ok_bind, peek_eq, ok_bind, htwo, ← List.tail_drop, beginsExponent_eq]
  split
  · next hbegins =>
    obtain ⟨e, sign, rest, hdrop⟩ : ∃ e sign rest, cs.drop i = e :: sign :: rest := by
      unfold startsWithExponent at hbegins
      split at hbegins
      · next e sign rest hdrop => exact ⟨e, sign, rest, hdrop⟩
      · cases hbegins
    obtain ⟨hget, -, hnext⟩ := stops_succ hdrop
    obtain ⟨hget', -, hnext'⟩ := stops_succ hnext.rest
    obtain ⟨j, hj, hstops⟩ := skip_run (q := Char.isDigit) rfl hnext'.within
    rw [hget, ok_bind, hget', ok_bind, ← htwo]
    exact ⟨j, hj, by have := hstops.le; omega, hstops.within, hstops.rest⟩
  · exact ⟨i, rfl, Nat.le_refl i, hi, rfl⟩

/-! ## Pieces -/

/-- The number that begins at `i`. -/
def number (cs : List Char) (i : Nat) : Checked (Option Token.Kind × Nat) := do
  let j ← skip cs (runGuard cs isNumberChar) (i + 1)
  let k ← exponent cs j
  let text ← slice cs i k
  .ok (some (.number (String.ofList text)), k)

/-- The word that begins at `i`. -/
def word (cs : List Char) (i : Nat) : Checked (Option Token.Kind × Nat) := do
  let j ← skip cs (runGuard cs isWordChar) (i + 1)
  let text ← slice cs i j
  .ok (some (.word (String.ofList text)), j)

/-- The operator that begins at `i`, and maybe takes a second sign with it. -/
def operator (cs : List Char) (i : Nat) : Checked (Option Token.Kind × Nat) := do
  let next ← peek cs (i + 1)
  if next = ':' ∨ next = '=' ∨ next = '>' ∨ next = '|' then
    let _ ← get cs (i + 1)
    .ok (some .operator, i + 2)
  else .ok (some .operator, i + 1)

/-- The token of a quoted text whose opening delimiter stands at `i`. -/
def quoted (cs : List Char) (d : Char) (kind : String → Token.Kind) (i : Nat) : Checked (Option Token.Kind × Nat) :=
  Prod.map (fun value => some (kind (String.ofList value))) id <$> delimited cs d (i + 1)

section Pieces
variable {cs : List Char} {i : Nat} {c : Char} {rest : List Char} (h : cs.drop i = c :: rest)
include h

theorem number_eq : ∃ j, number cs i = .ok ((Piece.number c rest).kind, j) ∧
    Stops cs (i + 1) j (Piece.number c rest).rest := by
  obtain ⟨-, -, hnext⟩ := stops_succ h
  obtain ⟨j, hj, hdigits⟩ := skip_run (q := isNumberChar) rfl hnext.within
  obtain ⟨k, hk, hexponent⟩ := exponent_eq hdigits.within
  rw [hdigits.rest, hnext.rest] at hexponent
  have hstops : Stops cs i k (Piece.number c rest).rest :=
    ⟨by have := hdigits.le; have := hexponent.le; omega, hexponent.within, hexponent.rest⟩
  have htext := (hstops.taken (l := c :: (Piece.number c rest).taken) (by
    rw [List.cons_append, Piece.number_append, h])).1
  rw [number, hj, ok_bind, hk, ok_bind, htext]
  exact ⟨k, rfl, by have := hdigits.le; have := hexponent.le; omega, hstops.within, hstops.rest⟩

theorem word_eq : ∃ j, word cs i = .ok ((Piece.word c rest).kind, j) ∧
    Stops cs (i + 1) j (Piece.word c rest).rest := by
  obtain ⟨-, -, hnext⟩ := stops_succ h
  obtain ⟨j, hj, hrun⟩ := skip_run (q := isWordChar) (by decide +kernel) hnext.within
  rw [hnext.rest] at hrun
  have hstops : Stops cs i j (Piece.word c rest).rest := ⟨by have := hrun.le; omega, hrun.within, hrun.rest⟩
  have htext := (hstops.taken (l := c :: (Piece.word c rest).taken) (by
    rw [List.cons_append, Piece.word_append, h])).1
  rw [word, hj, ok_bind, htext]
  exact ⟨j, rfl, hrun.le, hstops.within, hstops.rest⟩

theorem operator_eq : ∃ j, operator cs i = .ok ((Piece.operator rest).kind, j) ∧
    Stops cs (i + 1) j (Piece.operator rest).rest := by
  obtain ⟨-, -, hnext⟩ := stops_succ h
  rw [operator, peek_eq, ok_bind, hnext.rest]
  cases rest with
  | nil =>
    rw [if_neg (by decide)]
    exact ⟨i + 1, rfl, hnext⟩
  | cons d rest =>
    obtain ⟨hget, -, hnext'⟩ := stops_succ hnext.rest
    rw [Piece.operator, List.head?_cons, Option.getD_some]
    split
    · rw [hget, ok_bind]
      exact ⟨i + 2, rfl, Nat.le_succ _, hnext'.within, hnext'.rest⟩
    · exact ⟨i + 1, rfl, hnext⟩

theorem quoted_eq {d : Char} (hd : d ≠ '\x00') (kind : String → Token.Kind) :
    ∃ j, quoted cs d kind i = .ok ((Piece.delimited d kind rest).kind, j) ∧
      Stops cs (i + 1) j (Piece.delimited d kind rest).rest := by
  obtain ⟨-, -, hnext⟩ := stops_succ h
  obtain ⟨j, hj, hstops⟩ := delimited_eq hd hnext.within
  rw [hnext.rest] at hj hstops
  rw [quoted, hj, map_ok]
  exact ⟨j, rfl, hstops⟩

end Pieces

/-- A `-` begins a comment if another one follows. -/
theorem dash_eq {cs : List Char} {i : Nat} {rest : List Char} (h : cs.drop i = '-' :: rest) :
    ∃ j, (if rest.head?.getD '\x00' = '-' then (fun j => (none, j)) <$> lineComment cs (i + 1)
        else .ok (some .operator, i + 1)) = Except.ok ((Piece.read '-' rest).kind, j) ∧
      Stops cs (i + 1) j (Piece.read '-' rest).rest := by
  obtain ⟨-, -, hnext⟩ := stops_succ h
  have hread : Piece.read '-' rest = if rest.head? = some '-' then
      ⟨none, (Comment.line rest).1, (Comment.line rest).2⟩ else .single .operator rest := rfl
  rw [hread]
  simp only [head?_eq (show '-' ≠ '\x00' by decide)]
  split
  · obtain ⟨j, hj, hstops⟩ := lineComment_eq hnext.within
    rw [hnext.rest] at hstops
    rw [hj, map_ok]
    exact ⟨j, rfl, hstops⟩
  · exact ⟨i + 1, rfl, hnext⟩

/-- A `/` begins a comment if a `*` follows. -/
theorem slash_eq {cs : List Char} {i : Nat} {rest : List Char} (h : cs.drop i = '/' :: rest) :
    ∃ j, (if rest.head?.getD '\x00' = '*' then (fun j => (none, j)) <$> blockComment cs (i + 1)
        else .ok (some .operator, i + 1)) = Except.ok ((Piece.read '/' rest).kind, j) ∧
      Stops cs (i + 1) j (Piece.read '/' rest).rest := by
  obtain ⟨-, -, hnext⟩ := stops_succ h
  simp only [head?_eq (show '*' ≠ '\x00' by decide)]
  split
  · next hstar =>
    obtain ⟨after, rfl⟩ := List.head?_eq_some_iff.mp hstar
    obtain ⟨j, hj, hstops⟩ := blockComment_eq hnext.rest
    rw [hj, map_ok]
    exact ⟨j, rfl, by have := hstops.le; omega, hstops.within, hstops.rest⟩
  · next hstar =>
    have hread : Piece.read '/' rest = .single .operator rest := by
      cases rest with
      | nil => rfl
      | cons d after =>
        have hd : d ≠ '*' := fun hd => hstar (by rw [hd]; rfl)
        simp [Piece.read, hd]
    rw [hread]
    exact ⟨i + 1, rfl, hnext⟩

/-- What stands at `i`, and the index behind it: a token of a kind, or a blank or a comment. -/
def readPiece (cs : List Char) (i : Nat) : Checked (Option Token.Kind × Nat) := do
  let c ← get cs i
  let next ← peek cs (i + 1)
  match c with
  | '(' => .ok (some .leftParen, i + 1)
  | ')' => .ok (some .rightParen, i + 1)
  | ',' => .ok (some .comma, i + 1)
  | ';' => .ok (some .semicolon, i + 1)
  | '*' => .ok (some .star, i + 1)
  | '.' => if next.isDigit then number cs i else .ok (some .dot, i + 1)
  | '-' =>
    if next = '-' then (fun j => (none, j)) <$> lineComment cs (i + 1) else .ok (some .operator, i + 1)
  | '/' =>
    if next = '*' then (fun j => (none, j)) <$> blockComment cs (i + 1) else .ok (some .operator, i + 1)
  | '\'' => quoted cs '\'' .literal i
  | '"' => quoted cs '"' Piece.identifier i
  | '\x60' => quoted cs '\x60' Piece.identifier i
  | '[' => quoted cs ']' Piece.identifier i
  | _ =>
    if c = ':' ∨ c = '<' ∨ c = '>' ∨ c = '!' ∨ c = '=' ∨ c = '|' then operator cs i
    else if c.isDigit then number cs i
    else if isWordChar c then word cs i
    else if isBlank c then .ok (none, i + 1)
    else .ok (some .operator, i + 1)

theorem readPiece_eq {cs : List Char} {i : Nat} {c : Char} {rest : List Char} (h : cs.drop i = c :: rest) :
    ∃ j, readPiece cs i = .ok ((Piece.read c rest).kind, j) ∧ Stops cs (i + 1) j (Piece.read c rest).rest := by
  obtain ⟨hget, -, hnext⟩ := stops_succ h
  have hdigit : (rest.head?.getD '\x00').isDigit = startsWithDigit rest := by
    unfold startsWithDigit
    cases rest.head? <;> rfl
  unfold readPiece
  rw [hget, ok_bind, peek_eq, ok_bind, hnext.rest]
  split
  · exact ⟨i + 1, rfl, hnext⟩
  · exact ⟨i + 1, rfl, hnext⟩
  · exact ⟨i + 1, rfl, hnext⟩
  · exact ⟨i + 1, rfl, hnext⟩
  · exact ⟨i + 1, rfl, hnext⟩
  · have hread : Piece.read '.' rest = if startsWithDigit rest then Piece.number '.' rest else .single .dot rest := rfl
    rw [hdigit, hread]
    split
    · exact number_eq h
    · exact ⟨i + 1, rfl, hnext⟩
  · exact dash_eq h
  · exact slash_eq h
  · exact quoted_eq h (by decide) _
  · exact quoted_eq h (by decide) _
  · exact quoted_eq h (by decide) _
  · exact quoted_eq h (by decide) _
  · have hread : Piece.read c rest =
        if c = ':' ∨ c = '<' ∨ c = '>' ∨ c = '!' ∨ c = '=' ∨ c = '|' then Piece.operator rest
        else if c.isDigit then Piece.number c rest
        else if isWordChar c then Piece.word c rest
        else if isBlank c then ⟨none, [], rest⟩
        else .single .operator rest := by
      unfold Piece.read
      split <;> first | contradiction | rfl
    rw [hread]
    split
    · exact operator_eq h
    · split
      · exact number_eq h
      · split
        · exact word_eq h
        · split <;> exact ⟨i + 1, rfl, hnext⟩

/-! ## All tokens -/

/-- The token at `i`, or nothing for a blank or a comment, and the index behind it. -/
def scanStep (cs : List Char) (i : Nat) : Checked (List Token × Nat) := do
  let (kind?, j) ← readPiece cs i
  match kind? with
  | none => .ok ([], j)
  | some kind =>
    let text ← slice cs i j
    let p := Position.start.after (cs.take j)
    .ok ([⟨kind, String.ofList text, p.line, p.col⟩], j)

def scan (s : String) : Checked (List Token) :=
  iterate s.toList.length (scanStep s.toList) 0

theorem scanStep_eq {cs : List Char} {i : Nat} (hi : i < cs.length) :
    ∃ out next, scanStep cs i = .ok (out, next) ∧ i < next ∧
      Token.scanFrom (Position.start.after (cs.take i)) (cs.drop i) =
        out ++ Token.scanFrom (Position.start.after (cs.take next)) (cs.drop next) := by
  have hdrop := List.drop_eq_getElem_cons hi
  obtain ⟨j, hj, hstops⟩ := readPiece_eq hdrop
  have hle : i < j := hstops.le
  have hwhole : Stops cs i j (Piece.read cs[i] (cs.drop (i + 1))).rest := ⟨Nat.le_of_lt hle, hstops.within, hstops.rest⟩
  obtain ⟨htext, htake⟩ := hwhole.taken (l := cs[i] :: (Piece.read cs[i] (cs.drop (i + 1))).taken) (by
    rw [List.cons_append, Piece.read_append, hdrop])
  have hposition : Position.start.after (cs.take j) = (Position.start.after (cs.take i)).after
      (cs[i] :: (Piece.read cs[i] (cs.drop (i + 1))).taken) := by
    rw [htake, Position.after_append]
  unfold scanStep
  rw [hj, ok_bind, hdrop, Token.scanFrom]
  dsimp only
  rw [← hposition, ← hstops.rest]
  cases (Piece.read cs[i] (cs.drop (i + 1))).kind with
  | none => exact ⟨[], j, rfl, hle, rfl⟩
  | some kind =>
    dsimp only
    rw [htext, ok_bind]
    exact ⟨_, j, rfl, hle, rfl⟩

theorem scan_eq (s : String) : scan s = .ok (Token.scan s) := by
  have hend : ∀ i, s.toList.length ≤ i →
      Token.scanFrom (Position.start.after (s.toList.take i)) (s.toList.drop i) = [] := by
    intro i hi
    rw [List.drop_eq_nil_of_le hi, Token.scanFrom]
  exact iterate_eq (f := fun i => Token.scanFrom (Position.start.after (s.toList.take i)) (s.toList.drop i)) hend
    (fun i hi => scanStep_eq hi) 0

end Checked
end SqlLineage
