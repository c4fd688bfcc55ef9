import SqlLineage.Proofs.Text.Line
import SqlLineage.Script

/-! # What the cutting of a script keeps

A script is cut at the lines that hold the separator only, and at the semicolons outside all parentheses.

* `Script.depthBehind`: the depth behind a text; `Script.remainder`: the characters of the lines of a script that
  count.
* `Script.exists_blocks_append`, `Script.exists_cut_append`: lines or characters in front of others make pieces
  of their own and the beginning of one more.
* `Script.statements_conserve`: the statements hold exactly the characters that count, and no semicolon outside all
  parentheses.
* `Script.statements_append_go`: nothing of what stands in front of a separator line reaches over it. -/

namespace SqlLineage.Script
open SqlLineage.Text
set_option autoImplicit false

/-! ## Depths -/

def depthBehind (depth : Nat) (cs : List Char) : Nat :=
  cs.foldl depthAfter depth

@[simp] theorem depthBehind_nil (depth : Nat) : depthBehind depth [] = depth := rfl

@[simp] theorem depthBehind_cons (depth : Nat) (c : Char) (cs : List Char) :
    depthBehind depth (c :: cs) = depthBehind (depthAfter depth c) cs := rfl

theorem depthBehind_append (depth : Nat) (a b : List Char) :
    depthBehind depth (a ++ b) = depthBehind (depthBehind depth a) b :=
  List.foldl_append

theorem depthAfter_of_isBlank {c : Char} (h : isBlank c = true) (depth : Nat) : depthAfter depth c = depth := by
  have h1 : c ≠ '(' := by rintro rfl; cases h
  have h2 : c ≠ ')' := by rintro rfl; cases h
  rw [depthAfter, if_neg h1, if_neg h2]

theorem depthBehind_blanks {u : List Char} (hu : ∀ c ∈ u, isBlank c = true) (depth : Nat) :
    depthBehind depth u = depth := by
  induction u with
  | nil => rfl
  | cons c u ih =>
    rw [List.forall_mem_cons] at hu
    rw [depthBehind_cons, depthAfter_of_isBlank hu.1, ih hu.2]

/-! ## Pieces of an appended text -/

theorem blocks_separator {l : List Char} (h : isSeparator l = true) (ls : List (List Char)) :
    blocks (l :: ls) = [] :: blocks ls := by
  rw [blocks, if_pos h]

theorem blocks_line {l : List Char} (h : isSeparator l = false) (ls : List (List Char)) :
    blocks (l :: ls) = (blocks ls).modifyHead (l ++ '\n' :: ·) := by
  rw [blocks, if_neg (by rw [h]; exact Bool.false_ne_true)]
  split
  · next hnil => exact absurd hnil (blocks_ne_nil ls)
  · next hcons => rw [hcons, List.modifyHead_cons]

theorem cut_semicolon (cs : List Char) : cut 0 (';' :: cs) = [] :: cut 0 cs := by
  rw [cut, if_pos ⟨rfl, rfl⟩]

theorem cut_char {depth : Nat} {c : Char} (h : c = ';' → depth ≠ 0) (cs : List Char) :
    cut depth (c :: cs) = (cut (depthAfter depth c) cs).modifyHead (c :: ·) := by
  rw [cut, if_neg (fun hc => h hc.1 hc.2)]
  split
  · next hnil => exact absurd hnil (cut_ne_nil _ cs)
  · next hcons => rw [hcons, List.modifyHead_cons]

/-- An induction over a text along its cuts. -/
theorem cut_induction {motive : Nat → List Char → Prop} (nil : ∀ depth, motive depth [])
    (semicolon : ∀ cs, motive 0 cs → motive 0 (';' :: cs))
    (char : ∀ depth c cs, (c = ';' → depth ≠ 0) → motive (depthAfter depth c) cs → motive depth (c :: cs))
    (depth : Nat) (cs : List Char) : motive depth cs := by
  induction cs generalizing depth with
  | nil => exact nil depth
  | cons c cs ih =>
    by_cases hc : c = ';' ∧ depth = 0
    · obtain ⟨rfl, rfl⟩ := hc
      exact semicolon cs (ih 0)
    · exact char depth c cs (fun h h0 => hc ⟨h, h0⟩) (ih _)

/-- What is put in front of the first of some pieces stands in front of the first piece of all. -/
theorem exists_modifyHead_append (k last : List Char) (init : List (List Char)) :
    ∃ init' last', ∀ ps : List (List Char),
      (init ++ ps.modifyHead (last ++ ·)).modifyHead (k ++ ·) = init' ++ ps.modifyHead (last' ++ ·) := by
  cases init with
  | nil =>
    refine ⟨[], k ++ last, fun ps => ?_⟩
    cases ps <;> simp
  | cons p init => exact ⟨(k ++ p) :: init, last, fun ps => rfl⟩

theorem exists_blocks_append (ls : List (List Char)) : ∃ init last, ∀ ms,
    blocks (ls ++ ms) = init ++ (blocks ms).modifyHead (last ++ ·) := by
  induction ls with
  | nil =>
    refine ⟨[], [], fun ms => ?_⟩
    cases h : blocks ms <;> simp [h]
  | cons l ls ih =>
    obtain ⟨init, last, hblocks⟩ := ih
    cases hl : isSeparator l with
    | true =>
      refine ⟨[] :: init, last, fun ms => ?_⟩
      rw [List.cons_append, blocks_separator hl, hblocks, List.cons_append]
    | false =>
      obtain ⟨init', last', happ⟩ := exists_modifyHead_append (l ++ ['\n']) last init
      refine ⟨init', last', fun ms => ?_⟩
      rw [List.cons_append, blocks_line hl, hblocks, ← happ]
      simp only [List.append_assoc, List.singleton_append]

theorem exists_cut_append (depth : Nat) (x : List Char) : ∃ init last, ∀ y,
    cut depth (x ++ y) = init ++ (cut (depthBehind depth x) y).modifyHead (last ++ ·) := by
  induction depth, x using cut_induction with
  | nil depth =>
    refine ⟨[], [], fun y => ?_⟩
    cases h : cut depth y <;> simp [h]
  | semicolon x ih =>
    obtain ⟨init, last, hcut⟩ := ih
    refine ⟨[] :: init, last, fun y => ?_⟩
    rw [List.cons_append, cut_semicolon, hcut]
    rfl
  | char depth c x hc ih =>
    obtain ⟨init, last, hcut⟩ := ih
    obtain ⟨init', last', happ⟩ := exists_modifyHead_append [c] last init
    refine ⟨init', last', fun y => ?_⟩
    rw [List.cons_append, cut_char hc, hcut, depthBehind_cons, ← happ]
    rfl

theorem blocks_append_separator {l : List Char} (h : isSeparator l = true) (ls ms : List (List Char)) :
    blocks (ls ++ l :: ms) = blocks ls ++ blocks ms := by
  obtain ⟨init, last, hblocks⟩ := exists_blocks_append ls
  have hend := hblocks []
  rw [List.append_nil] at hend
  rw [hblocks, hend, blocks_separator h]
  simp [blocks]

theorem cut_blanks {u : List Char} (hu : ∀ c ∈ u, isBlank c = true) (depth : Nat) : cut depth u = [u] := by
  induction u with
  | nil => rfl
  | cons c u ih =>
    rw [List.forall_mem_cons] at hu
    have hc : c ≠ ';' := by rintro rfl; cases hu.1
    rw [cut_char (fun h => absurd h hc), depthAfter_of_isBlank hu.1, ih hu.2]
    rfl

/-- Blanks at the end of a block make no difference. -/
theorem blockStatements_append_blanks {u : List Char} (hu : ∀ c ∈ u, isBlank c = true) (x : List Char) :
    blockStatements (x ++ u) = blockStatements x := by
  obtain ⟨init, last, hcut⟩ := exists_cut_append 0 x
  have hend := hcut []
  rw [List.append_nil] at hend
  have htrim : (cut 0 (x ++ u)).map trim = (cut 0 x).map trim := by
    rw [hcut, hend, cut_blanks hu]
    simp [cut, trim_append_blanks hu]
  rw [blockStatements, htrim, blockStatements]

/-! ## Characters that count -/

def visible (cs : List Char) : List Char :=
  cs.filter fun c => !isBlank c

/-- The characters of a line apart from blanks and from semicolons outside all parentheses; `depth` is the depth in
front of the line. -/
def counted (depth : Nat) : List Char → List Char
  | [] => []
  | c :: cs =>
    if isBlank c = true ∨ (c = ';' ∧ depth = 0) then counted (depthAfter depth c) cs
    else c :: counted (depthAfter depth c) cs

/-- What counts of the lines of a script. A separator line does not count, and behind it no parenthesis is open. -/
def remainder (depth : Nat) : List (List Char) → List Char
  | [] => []
  | l :: ls =>
    if isSeparator l then remainder 0 ls else counted depth l ++ remainder (depthBehind depth l) ls

theorem visible_append (a b : List Char) : visible (a ++ b) = visible a ++ visible b :=
  List.filter_append a b

theorem visible_blanks {u : List Char} (hu : ∀ c ∈ u, isBlank c = true) : visible u = [] := by
  rw [visible, List.filter_eq_nil_iff]
  simpa using hu

theorem visible_trim (cs : List Char) : visible (trim cs) = visible cs := by
  obtain ⟨a, b, hcs, ha, hb⟩ := exists_trim cs
  conv_rhs => rw [hcs, visible_append, visible_append, visible_blanks ha, visible_blanks hb]
  simp

theorem counted_append (depth : Nat) (a b : List Char) :
    counted depth (a ++ b) = counted depth a ++ counted (depthBehind depth a) b := by
  induction a generalizing depth with
  | nil => rfl
  | cons c a ih =>
    simp only [List.cons_append, counted, depthBehind_cons, ih]
    split <;> simp

theorem counted_blanks {u : List Char} (hu : ∀ c ∈ u, isBlank c = true) (depth : Nat) : counted depth u = [] := by
  induction u generalizing depth with
  | nil => rfl
  | cons c u ih =>
    rw [List.forall_mem_cons] at hu
    rw [counted, if_pos (.inl hu.1), ih hu.2]

theorem flatMap_visible_modifyHead {ps : List (List Char)} (h : ps ≠ []) (k : List Char) :
    (ps.modifyHead (k ++ ·)).flatMap visible = visible k ++ ps.flatMap visible := by
  obtain ⟨p, ps, rfl⟩ := List.exists_cons_of_ne_nil h
  simp [visible_append]

theorem flatMap_visible_cut (depth : Nat) (cs : List Char) :
    (cut depth cs).flatMap visible = counted depth cs := by
  induction depth, cs using cut_induction with
  | nil depth => rfl
  | semicolon cs ih =>
    rw [cut_semicolon, counted, if_pos (.inr ⟨rfl, rfl⟩), List.flatMap_cons, ih]
    rfl
  | char depth c cs hc ih =>
    have hhead := flatMap_visible_modifyHead (cut_ne_nil (depthAfter depth c) cs) [c]
    have hkept : ¬ (c = ';' ∧ depth = 0) := fun h => hc h.1 h.2
    rw [cut_char hc, counted, ← ih]
    refine hhead.trans ?_
    cases hb : isBlank c <;> simp [visible, hb, hkept]

theorem flatMap_visible_blockStatements (block : List Char) :
    (blockStatements block).flatMap visible = counted 0 block := by
  rw [← flatMap_visible_cut, blockStatements]
  induction cut 0 block with
  | nil => rfl
  | cons p ps ih =>
    rw [List.flatMap_cons, ← visible_trim, ← ih, List.map_cons]
    cases trim p with
    | nil => rfl
    | cons c t => rfl

/-- The first block goes on with what is open in front of the lines; each of the others begins anew. -/
theorem exists_counted_blocks (ls : List (List Char)) : ∃ b bs, blocks ls = b :: bs ∧
    ∀ depth, counted depth b ++ bs.flatMap (counted 0) = remainder depth ls := by
  induction ls with
  | nil => exact ⟨[], [], rfl, fun _ => rfl⟩
  | cons l ls ih =>
    obtain ⟨b, bs, hblocks, hcounted⟩ := ih
    cases hl : isSeparator l with
    | true =>
      refine ⟨[], b :: bs, by rw [blocks_separator hl, hblocks], fun depth => ?_⟩
      rw [remainder, if_pos hl, ← hcounted]
      rfl
    | false =>
      refine ⟨l ++ '\n' :: b, bs, by rw [blocks_line hl, hblocks]; rfl, fun depth => ?_⟩
      have hnewline : counted (depthBehind depth l) ('\n' :: b) = counted (depthBehind depth l) b := by
        rw [counted, if_pos (.inl isBlank_newline), depthAfter_of_isBlank isBlank_newline]
      rw [remainder, hl, counted_append, hnewline, List.append_assoc, hcounted]
      rfl

/-! ## Lines and what stands between newlines -/

theorem isSeparator_withoutReturn (l : List Char) : isSeparator (withoutReturn l) = isSeparator l := by
  rw [isSeparator, isSeparator, trim_withoutReturn]

theorem counted_withoutReturn (depth : Nat) (l : List Char) :
    counted depth (withoutReturn l) = counted depth l ∧ depthBehind depth (withoutReturn l) = depthBehind depth l := by
  obtain ⟨u, hl, hu⟩ := exists_withoutReturn l
  have hcounted := counted_append depth (withoutReturn l) u
  have hdepth := depthBehind_append depth (withoutReturn l) u
  rw [← hl] at hcounted hdepth
  rw [hcounted, hdepth, counted_blanks hu, depthBehind_blanks hu, List.append_nil]
  exact ⟨rfl, rfl⟩

theorem remainder_lines (depth : Nat) (cs : List Char) :
    remainder depth (lines cs) = remainder depth (cs.splitOn '\n') := by
  obtain ⟨ls, last, hsplit, hlines⟩ := exists_lines_eq cs
  rw [hsplit, hlines]
  clear hsplit hlines
  induction ls generalizing depth with
  | nil =>
    by_cases hlast : last = []
    · subst hlast
      simp [remainder, counted]
    · rw [if_neg hlast]
      rfl
  | cons l ls ih =>
    obtain ⟨hcounted, hdepth⟩ := counted_withoutReturn depth l
    simp only [List.map_cons, List.cons_append, remainder, isSeparator_withoutReturn, hcounted, hdepth, ih]

/-! ## Semicolons that are kept -/

/-- No semicolon of the text stands outside all parentheses, where `depth` is the depth in front of the text. -/
def Uncut (depth : Nat) (cs : List Char) : Prop :=
  ∀ a b, cs = a ++ ';' :: b → 0 < depthBehind depth a

theorem uncut_nil (depth : Nat) : Uncut depth [] := by
  intro a b h
  simp at h

theorem Uncut.cons {depth : Nat} {c : Char} {cs : List Char} (hc : c = ';' → depth ≠ 0)
    (h : Uncut (depthAfter depth c) cs) : Uncut depth (c :: cs) := by
  intro a b hcs
  cases a with
  | nil => exact Nat.pos_of_ne_zero (hc (List.cons.inj hcs).1)
  | cons x a =>
    obtain ⟨rfl, rfl⟩ := List.cons.inj hcs
    exact h a b rfl

theorem Uncut.trim {cs : List Char} (h : Uncut 0 cs) : Uncut 0 (trim cs) := by
  obtain ⟨x, y, hcs, hx, -⟩ := exists_trim cs
  intro a b hab
  have hpos := h (x ++ a) (b ++ y) (by rw [hcs, hab]; simp)
  rwa [depthBehind_append, depthBehind_blanks hx] at hpos

theorem exists_uncut_cut (depth : Nat) (cs : List Char) : ∃ p ps, cut depth cs = p :: ps ∧
    Uncut depth p ∧ ∀ q ∈ ps, Uncut 0 q := by
  induction depth, cs using cut_induction with
  | nil depth => exact ⟨[], [], rfl, uncut_nil depth, by simp⟩
  | semicolon cs ih =>
    obtain ⟨p, ps, hcut, hp, hps⟩ := ih
    exact ⟨[], p :: ps, by rw [cut_semicolon, hcut], uncut_nil 0, List.forall_mem_cons.mpr ⟨hp, hps⟩⟩
  | char depth c cs hc ih =>
    obtain ⟨p, ps, hcut, hp, hps⟩ := ih
    exact ⟨c :: p, ps, by rw [cut_char hc, hcut]; rfl, hp.cons hc, hps⟩

theorem of_mem_blockStatements {block t : List Char} (h : t ∈ blockStatements block) :
    t ≠ [] ∧ trim t = t ∧ Uncut 0 t := by
  obtain ⟨hmem, hne⟩ := List.mem_filter.mp h
  obtain ⟨p, hp, rfl⟩ := List.mem_map.mp hmem
  have huncut : ∀ q ∈ cut 0 block, Uncut 0 q := by
    obtain ⟨q, qs, hcut, hfirst⟩ := exists_uncut_cut 0 block
    rw [hcut]
    exact List.forall_mem_cons.mpr hfirst
  exact ⟨by simpa using hne, trim_trim p, (huncut p hp).trim⟩

/-- The statements of a script hold its characters in order, apart from blanks, separator lines and semicolons outside
all parentheses. None is empty, begins or ends with a blank, or has such a semicolon left. -/
theorem statements_conserve (s : String) :
    (statements s).flatMap (fun t => visible t.toList) = remainder 0 (s.toList.splitOn '\n') ∧
      ∀ t ∈ statements s, t ≠ "" ∧ trimmed t = t ∧ Uncut 0 t.toList := by
  constructor
  · have hcounted : (blocks (lines s.toList)).flatMap (counted 0) = remainder 0 (lines s.toList) := by
      obtain ⟨b, bs, hblocks, hremainder⟩ := exists_counted_blocks (lines s.toList)
      rw [hblocks, List.flatMap_cons, hremainder]
    rw [← remainder_lines, ← hcounted, statements, List.flatMap_map, List.flatMap_assoc]
    simp only [String.toList_ofList]
    exact List.flatMap_congr fun block _ => flatMap_visible_blockStatements block
  · intro t ht
    obtain ⟨cs, hcs, rfl⟩ := List.mem_map.mp ht
    obtain ⟨block, -, hblock⟩ := List.mem_flatMap.mp hcs
    obtain ⟨hne, htrim, huncut⟩ := of_mem_blockStatements hblock
    refine ⟨?_, ?_, ?_⟩
    · simpa using hne
    · rw [trimmed, String.toList_ofList, htrim]
    · rwa [String.toList_ofList]

/-! ## Separator lines -/

/-- A newline behind a text makes no difference: the last line may lose a carriage return, and an empty one may come
in. -/
theorem flatMap_blocks_last (ls : List (List Char)) (last : List Char) :
    (blocks (ls ++ [withoutReturn last])).flatMap blockStatements =
      (blocks (ls ++ if last = [] then [] else [last])).flatMap blockStatements := by
  obtain ⟨init, first, hblocks⟩ := exists_blocks_append ls
  obtain ⟨u, hlast, hu⟩ := exists_withoutReturn last
  cases h : isSeparator last with
  | true =>
    have hne : last ≠ [] := by rintro rfl; exact absurd h (by decide)
    rw [if_neg hne, hblocks, hblocks, blocks_separator ((isSeparator_withoutReturn last).trans h), blocks_separator h]
  | false =>
    have hend : ∀ v : List Char, (∀ c ∈ v, isBlank c = true) →
        blockStatements (first ++ (withoutReturn last ++ v)) = blockStatements (first ++ withoutReturn last) := by
      intro v hv
      rw [← List.append_assoc]
      exact blockStatements_append_blanks hv _
    have hnewline : ∀ c ∈ ['\n'], isBlank c = true := by simp [isBlank_newline]
    -- with or without the newline, the last block ends in what is left of the line, apart from blanks
    obtain ⟨v, hv, hblock⟩ : ∃ v, (∀ c ∈ v, isBlank c = true) ∧
        blocks (ls ++ if last = [] then [] else [last]) = init ++ [first ++ (withoutReturn last ++ v)] := by
      by_cases hnil : last = []
      · subst hnil
        exact ⟨[], by simp, by rw [if_pos rfl, hblocks]; rfl⟩
      · refine ⟨u ++ ['\n'], List.forall_mem_append.mpr ⟨hu, hnewline⟩, ?_⟩
        rw [if_neg hnil, hblocks, blocks_line h, ← List.append_assoc (withoutReturn last), ← hlast]
        rfl
    rw [hblock, hblocks, blocks_line ((isSeparator_withoutReturn last).trans h)]
    simp [blocks, hend _ hnewline, hend v hv]

theorem flatMap_blocks_append_separator {l : List Char} (h : isSeparator l = true) (hl : '\n' ∉ l)
    (a b : List Char) : (blocks (lines (a ++ '\n' :: (l ++ '\n' :: b)))).flatMap blockStatements =
      (blocks (lines a)).flatMap blockStatements ++ (blocks (lines b)).flatMap blockStatements := by
  obtain ⟨ls, last, hlines, hbehind⟩ := exists_lines a
  have hsep := (isSeparator_withoutReturn l).trans h
  rw [hbehind, lines_append_newline hl, hlines, ← flatMap_blocks_last, ← List.flatMap_append,
    ← blocks_append_separator hsep]
  simp

/-- A separator line parts two scripts for good, whatever is left open in front of it. -/
theorem statements_append_go (a b : String) : statements (a ++ "\nGO\n" ++ b) = statements a ++ statements b := by
  have hgo : (a ++ "\nGO\n" ++ b).toList = a.toList ++ '\n' :: (['G', 'O'] ++ '\n' :: b.toList) := by
    simp [String.toList_append]
  rw [statements, hgo, flatMap_blocks_append_separator (by decide) (by decide), List.map_append]
  rfl

example : statements "f(a;\n go \n);b" = ["f(a;", ")", "b"] := by decide +kernel

end SqlLineage.Script
