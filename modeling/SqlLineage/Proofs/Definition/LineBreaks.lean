import Mathlib.Data.List.Chain
import Mathlib.Tactic.MkIffOfInductiveProp
import SqlLineage.Proofs.Definition.ColumnBlock
import SqlLineage.Proofs.Token.Balanced
import SqlLineage.Token.Scan

/-! # Line breaks in place of commas

Between two definitions of a column block there is a comma, or only the end of a line. Where every definition stands
on a line of its own it makes no difference which of the two it is.

* `ColumnBlock.OnOneLine`: definitions that a line break can separate from those in front of them.
* `ColumnBlock.Entry`: such a definition in a block, with or without a comma in front of it.
* `ColumnBlock.definitionsOf_entries`: a block of entries is cut into their definitions, wherever the commas are.
* `ColumnBlock.read_lineBreaks`: so the commas make no difference to what is read. -/

namespace SqlLineage
open SqlLineage.Token
set_option autoImplicit false

namespace Token

/-- Tokens without a comma between groups belong to the current group. -/
theorem spansFrom_append {j : Nat} {d : Int} {ts : List Token}
    (h : ∀ p ∈ placedFrom j d ts, p.isSeparator = false) (i start : Nat) (rest : List Token) :
    spansFrom i start d (ts ++ rest) = spansFrom (i + ts.length) start (depthBehind d ts) rest := by
  induction ts generalizing i j d with
  | nil => rfl
  | cons t ts ih =>
    rw [placedFrom, List.forall_mem_cons] at h
    have hsep : ¬ (t.kind = .comma ∧ d = 0) := by
      rintro ⟨hcomma, rfl⟩
      simp [Placed.isSeparator, hcomma] at h
    rw [List.cons_append, spansFrom, if_neg hsep, ih h.2, List.length_cons, depthBehind_cons]
    congr 1
    omega

theorem span_of_front {start : Nat} (front rest : List Token) (h : start ≤ front.length) :
    Span.of ⟨start, front.length⟩ (front ++ rest) = front.drop start := by
  rw [Span.of, List.drop_append_of_le_length h, ← List.length_drop, List.take_left]

end Token

namespace ColumnBlock

/-! ## Definitions on lines of their own -/

/-- A definition that ends on the line on which it begins, as deep in parentheses as it began, with a first token that
can begin a definition and no comma outside its parentheses. -/
@[mk_iff]
structure OnOneLine (definition : List Token) : Prop where
  closed : depthBehind 0 definition = 0
  whole : ∀ p ∈ placed definition, p.isSeparator = false
  line : ∀ t ∈ definition, ∀ u ∈ definition, t.line = u.line
  begins : definition.head?.any beginsDefinition = true

instance (definition : List Token) : Decidable (OnOneLine definition) :=
  decidable_of_iff' _ (onOneLine_iff definition)

/-- Nothing of the definition `y` stands on a line of the definition `x`. -/
def OnOtherLine (x y : List Token) : Prop :=
  ∀ t ∈ x, ∀ u ∈ y, u.line ≠ t.line

instance : DecidableRel OnOtherLine :=
  fun x y => inferInstanceAs (Decidable (∀ t ∈ x, ∀ u ∈ y, u.line ≠ t.line))

theorem OnOneLine.exists_cons {definition : List Token} (h : OnOneLine definition) :
    ∃ t ts, definition = t :: ts ∧ beginsDefinition t = true ∧ ∀ u ∈ ts, u.line = t.line := by
  cases definition with
  | nil => cases h.begins
  | cons t ts =>
    exact ⟨t, ts, rfl, h.begins, fun u hu => h.line u (List.mem_cons_of_mem _ hu) t (List.mem_cons_self ..)⟩

theorem pushAll_nil {groups : List (List Token)} (h : groups ≠ []) : pushAll [] groups = groups := by
  cases groups with
  | nil => exact absurd rfl h
  | cons g gs => rfl

theorem pushFirst_pushAll (t : Token) (ts : List Token) (groups : List (List Token)) :
    pushFirst t (pushAll ts groups) = pushAll (t :: ts) groups := by
  cases groups <;> rfl

theorem splitLines_ne_nil (d : Int) (last : Token) (ts : List Token) : splitLines d last ts ≠ [] := by
  cases ts with
  | nil => exact List.cons_ne_nil _ _
  | cons t ts =>
    rw [splitLines]
    split
    · exact List.cons_ne_nil _ _
    · cases splitLines (d + t.depthChange) t ts <;> exact List.cons_ne_nil _ _

/-- Of the token in front only the line counts. -/
theorem splitLines_congr {last last' : Token} (h : last.line = last'.line) (d : Int) (ts : List Token) :
    splitLines d last ts = splitLines d last' ts := by
  cases ts with
  | nil => rfl
  | cons t ts => rw [splitLines, splitLines, h]

theorem splitLines_append {last : Token} {ts : List Token} (h : ∀ t ∈ ts, t.line = last.line) (d : Int)
    (rest : List Token) :
    splitLines d last (ts ++ rest) = pushAll ts (splitLines (depthBehind d ts) last rest) := by
  induction ts generalizing d with
  | nil => exact (pushAll_nil (splitLines_ne_nil d last rest)).symm
  | cons t ts ih =>
    rw [List.forall_mem_cons] at h
    rw [List.cons_append, splitLines, splitLines_congr h.1, ih h.2, pushFirst_pushAll, depthBehind_cons, if_neg]
    exact fun hcut => hcut.2.1 h.1

theorem splitLines_flatten {xs : List (List Token)} (h : ∀ x ∈ xs, OnOneLine x) (hbreaks : xs.IsChain OnOtherLine)
    {last : Token} (hlast : ∀ x ∈ xs.head?, ∀ u ∈ x, u.line ≠ last.line) :
    splitLines 0 last xs.flatten = [] :: xs := by
  induction xs generalizing last with
  | nil => rfl
  | cons x xs ih =>
    rw [List.forall_mem_cons] at h
    rw [List.isChain_cons] at hbreaks
    have hclosed := h.1.closed
    obtain ⟨t, ts, rfl, hbegins, hline⟩ := h.1.exists_cons
    have hfirst : t.line ≠ last.line := hlast _ rfl t (List.mem_cons_self ..)
    have hrest := ih h.2 hbreaks.2 fun y hy u hu => hbreaks.1 y hy t (List.mem_cons_self ..) u hu
    rw [depthBehind_cons] at hclosed
    rw [List.flatten_cons, List.cons_append, splitLines, if_pos ⟨rfl, hfirst, hbegins⟩, splitLines_append hline,
      hclosed, hrest, pushFirst_pushAll]
    simp [pushAll]

/-- Definitions on different lines are told apart without commas. -/
theorem definitionLines_flatten {xs : List (List Token)} (h : ∀ x ∈ xs, OnOneLine x)
    (hbreaks : xs.IsChain OnOtherLine) : definitionLines xs.flatten = xs := by
  cases xs with
  | nil => rfl
  | cons x xs =>
    rw [List.forall_mem_cons] at h
    rw [List.isChain_cons] at hbreaks
    have hclosed := h.1.closed
    obtain ⟨t, ts, rfl, -, hline⟩ := h.1.exists_cons
    have hrest := splitLines_flatten h.2 hbreaks.2 fun y hy u hu => hbreaks.1 y hy t (List.mem_cons_self ..) u hu
    rw [depthBehind_cons, Int.zero_add] at hclosed
    rw [List.flatten_cons, List.cons_append, definitionLines, splitLines_append hline, hclosed, hrest,
      pushFirst_pushAll]
    simp [pushAll]

/-! ## Entries of a block -/

/-- A definition of a block, and the comma in front of it if there is one. -/
structure Entry where
  comma? : Option Token
  definition : List Token
  isComma : ∀ c ∈ comma?, c.kind = .comma

def Entry.tokens (e : Entry) : List Token :=
  e.comma?.toList ++ e.definition

theorem flatMap_nonempty (start stop : Nat) (ts : List Token) :
    ((Span.nonempty start stop).map (·.of ts)).flatMap definitionLines =
      definitionLines (Span.of ⟨start, stop⟩ ts) := by
  unfold Span.nonempty
  split
  · rw [List.map_singleton, List.flatMap_singleton]
  · next h =>
    rw [span_of_empty (Nat.le_of_not_lt h)]
    rfl

/-- The definitions of the group that begins at `start` and of everything behind it. The current group is at the end
of `front`; it holds the definitions `run` already. -/
theorem flatMap_spansFrom_entries (front : List Token) {start : Nat} (hstart : start ≤ front.length)
    {run : List (List Token)} (hrun : front.drop start = run.flatten) (entries : List Entry)
    (h : ∀ x ∈ run ++ entries.map Entry.definition, OnOneLine x)
    (hbreaks : (run ++ entries.map Entry.definition).IsChain OnOtherLine) :
    ((spansFrom front.length start 0 (entries.flatMap Entry.tokens)).map
        (·.of (front ++ entries.flatMap Entry.tokens))).flatMap definitionLines =
      run ++ entries.map Entry.definition := by
  induction entries generalizing front start run with
  | nil =>
    rw [List.map_nil, List.append_nil] at h hbreaks ⊢
    rw [List.flatMap_nil, spansFrom, flatMap_nonempty, span_of_front _ _ hstart, hrun,
      definitionLines_flatten h hbreaks]
  | cons e entries ih =>
    obtain ⟨comma?, x, hcomma⟩ := e
    rw [List.map_cons, List.append_cons] at h hbreaks
    rw [List.map_cons, List.flatMap_cons, Entry.tokens]
    dsimp only at h hbreaks ⊢
    have hx : OnOneLine x := h x (by simp)
    have hwhole : ∀ p ∈ placedFrom 0 0 x, p.isSeparator = false := by
      rw [← placed_eq]
      exact hx.whole
    cases comma? with
    | none =>
      -- the definition goes on with the group
      have hgroup : (front ++ x).drop start = (run ++ [x]).flatten := by
        rw [List.drop_append_of_le_length hstart, hrun, List.flatten_append, List.flatten_singleton]
      have hrest := ih (front ++ x) (by rw [List.length_append]; omega) hgroup h hbreaks
      rw [List.length_append] at hrest
      rw [Option.toList_none, List.nil_append, spansFrom_append hwhole, hx.closed, ← List.append_assoc, hrest,
        List.append_assoc, List.singleton_append]
    | some c =>
      -- the comma ends the group, and the definition begins the next one
      have hgroup : (front ++ c :: x).drop (front.length + 1) = [x].flatten := by
        rw [List.drop_append, List.drop_eq_nil_of_le (Nat.le_succ _), Nat.add_sub_cancel_left, List.flatten_singleton]
        rfl
      rw [List.append_assoc, List.singleton_append] at h hbreaks
      have hrest := ih (front ++ c :: x) (by simp) hgroup
        (fun y hy => h y (List.mem_append_right _ hy)) hbreaks.right_of_append
      have hlength : (front ++ c :: x).length = front.length + 1 + x.length := by
        rw [List.length_append, List.length_cons]
        omega
      have hrunlines := definitionLines_flatten (fun y hy => h y (List.mem_append_left _ hy)) hbreaks.left_of_append
      rw [hlength, List.append_assoc] at hrest
      rw [Option.toList_some, List.append_assoc, List.singleton_append, spansFrom, if_pos ⟨hcomma c rfl, rfl⟩,
        spansFrom_append hwhole, hx.closed, List.map_append, List.flatMap_append, flatMap_nonempty,
        span_of_front _ _ hstart, hrun, hrunlines]
      exact congrArg (run ++ ·) hrest

theorem definitionsOf_entries {entries : List Entry} (h : ∀ x ∈ entries.map Entry.definition, OnOneLine x)
    (hbreaks : (entries.map Entry.definition).IsChain OnOtherLine) :
    definitionsOf (entries.flatMap Entry.tokens) = entries.map Entry.definition := by
  have hrun : ([] : List Token).drop 0 = ([] : List (List Token)).flatten := rfl
  exact flatMap_spansFrom_entries [] (Nat.le_refl 0) hrun entries h hbreaks

/-- Where every definition stands on lines of its own, a block is cut into its definitions with any choice of commas
between them, and then two choices lead to the same table, the same uses of other tables and the same notices. -/
theorem read_lineBreaks (b : ColumnBlock) (table : String) {entries entries' : List Entry}
    (hsame : entries'.map Entry.definition = entries.map Entry.definition)
    (h : ∀ x ∈ entries.map Entry.definition, OnOneLine x)
    (hbreaks : (entries.map Entry.definition).IsChain OnOtherLine) :
    definitionsOf (entries.flatMap Entry.tokens) = entries.map Entry.definition ∧
      { b with definitions := entries'.flatMap Entry.tokens }.read table =
        { b with definitions := entries.flatMap Entry.tokens }.read table := by
  have hcut := definitionsOf_entries h hbreaks
  have hcut' : definitionsOf (entries'.flatMap Entry.tokens) = entries.map Entry.definition := by
    rw [← hsame] at h hbreaks ⊢
    exact definitionsOf_entries h hbreaks
  refine ⟨hcut, ?_⟩
  simp only [read, draft, hcut, hcut']
  rfl

/-- A comma in front of the second definition only, or in front of the third one only. -/
theorem read_lineBreaks_mixed :
    let x := scan "id INT PRIMARY KEY"
    let y := scan "\n\"total, net\" NUMERIC(10, 2)"
    let z := scan "\n\nFOREIGN KEY (id) REFERENCES u (id)"
    let c : Token := ⟨.comma, ",", 1, 1⟩
    let block := fun entries : List Entry => (⟨entries.flatMap Entry.tokens, [], [], true⟩ : ColumnBlock)
    let entries : List Entry := [⟨none, x, by simp⟩, ⟨some c, y, by simp [c]⟩, ⟨none, z, by simp⟩]
    let entries' : List Entry := [⟨none, x, by simp⟩, ⟨none, y, by simp⟩, ⟨some c, z, by simp [c]⟩]
    (∀ d ∈ entries.map Entry.definition, OnOneLine d) ∧ (entries.map Entry.definition).IsChain OnOtherLine ∧
      entries'.map Entry.definition = entries.map Entry.definition ∧
      (block entries').read "t" = (block entries).read "t" := by
  intro x y z c block entries entries'
  have h : ∀ d ∈ entries.map Entry.definition, OnOneLine d := by decide +kernel
  have hbreaks : (entries.map Entry.definition).IsChain OnOtherLine := by decide +kernel
  have hsame : entries'.map Entry.definition = entries.map Entry.definition := rfl
  exact ⟨h, hbreaks, hsame, (read_lineBreaks ⟨[], [], [], true⟩ "t" hsame h hbreaks).2⟩

end ColumnBlock
end SqlLineage
