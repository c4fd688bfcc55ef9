import SqlLineage.Proofs.Token.Piece

/-! # Quoted text, written and read again

A text can be written between quotes if the quotes in it are doubled, and between brackets if it has no closing one.

* `Quoted.doubled`, `Quoted.inQuotes`, `Quoted.inBrackets`: how a text is written.
* `Quoted.read_written`: what is written is read again, whatever follows.
* `Quoted.scan_written`: a script that is a single quoted text has a single token, which carries that text. -/

namespace SqlLineage
open SqlLineage.Text
set_option autoImplicit false

/-- The token that a script is if it is a single one. -/
def Token.whole (kind : Token.Kind) (s : String) : Token :=
  ⟨kind, s, (Position.start.after s.toList).line, (Position.start.after s.toList).col⟩

theorem Token.scan_of_piece {c : Char} {cs : List Char} {kind : Token.Kind}
    (h : Piece.read c cs = ⟨some kind, cs, []⟩) :
    scan (String.ofList (c :: cs)) = [whole kind (String.ofList (c :: cs))] := by
  rw [scan, String.toList_ofList, scanFrom, h]
  dsimp only
  rw [scanFrom, whole, String.toList_ofList]

namespace Quoted

/-- The text with every `d` in it written twice. -/
def doubled (d : Char) (v : List Char) : List Char :=
  v.flatMap fun c => if c = d then [d, d] else [c]

def inQuotes (q : Char) (v : String) : String :=
  String.ofList (q :: (doubled q v.toList ++ [q]))

def inBrackets (v : String) : String :=
  String.ofList ('[' :: (v.toList ++ [']']))

theorem doubled_cons_self (d : Char) (v : List Char) : doubled d (d :: v) = d :: d :: doubled d v := by
  rw [doubled, List.flatMap_cons, if_pos rfl]
  rfl

theorem doubled_cons_of_ne {c d : Char} (h : c ≠ d) (v : List Char) : doubled d (c :: v) = c :: doubled d v := by
  rw [doubled, List.flatMap_cons, if_neg h]
  rfl

theorem doubled_of_not_mem {d : Char} {v : List Char} (h : d ∉ v) : doubled d v = v := by
  induction v with
  | nil => rfl
  | cons c v ih =>
    rw [List.mem_cons, not_or] at h
    rw [doubled_cons_of_ne (Ne.symm h.1), ih h.2]

/-- A text up to its delimiter is read as it was written. Delimiters at its end are told from the closing one because
they come in pairs. -/
theorem read_written {d : Char} {v rest : List Char} (hd : d = ']' → d ∉ v)
    (hrest : d = ']' ∨ rest.head?.any (· == d) = false) :
    read d (doubled d v ++ d :: rest) = ⟨v, doubled d v ++ [d], rest⟩ := by
  induction v with
  | nil => exact read_stop hrest
  | cons c v ih =>
    have hread := ih fun hb hv => hd hb (List.mem_cons_of_mem c hv)
    by_cases hc : c = d
    · subst hc
      have hb : c ≠ ']' := fun hb => hd hb List.mem_cons_self
      rw [doubled_cons_self, List.cons_append, List.cons_append, read_doubled hb, hread]
      rfl
    · rw [doubled_cons_of_ne hc, List.cons_append, read_of_ne hc, hread]
      rfl

theorem delimited_written {d : Char} {v : List Char} (hd : d = ']' → d ∉ v) (kind : String → Token.Kind) :
    Piece.delimited d kind (doubled d v ++ [d]) = ⟨some (kind (String.ofList v)), doubled d v ++ [d], []⟩ := by
  rw [Piece.delimited, read_written hd (.inr rfl)]

/-- A quote that is the whole of a script is read again, whatever text it was made from. -/
theorem scan_inQuotes (q : Char) {kind : String → Token.Kind} (hq : q ≠ ']')
    (hread : ∀ cs, Piece.read q cs = Piece.delimited q kind cs) (v : String) :
    Token.scan (inQuotes q v) = [Token.whole (kind v) (inQuotes q v)] := by
  have hpiece := hread (doubled q v.toList ++ [q])
  rw [delimited_written (fun hb => absurd hb hq), String.ofList_toList] at hpiece
  exact Token.scan_of_piece hpiece

theorem scan_inBrackets {v : String} (hv : ']' ∉ v.toList) :
    Token.scan (inBrackets v) = [Token.whole (.quoted (trimmed v)) (inBrackets v)] := by
  have hpiece := delimited_written (fun _ => hv) Piece.identifier
  rw [doubled_of_not_mem hv, String.ofList_toList] at hpiece
  exact Token.scan_of_piece hpiece

/-- Every text can be written as a literal or between quotes, and every text without a closing bracket between brackets,
so that a script made of it alone is read as the one token that carries the text; a name loses the blanks at its
ends. -/
theorem scan_written (v : String) :
    Token.scan (inQuotes '\'' v) = [Token.whole (.literal v) (inQuotes '\'' v)] ∧
    Token.scan (inQuotes '"' v) = [Token.whole (.quoted (trimmed v)) (inQuotes '"' v)] ∧
    Token.scan (inQuotes '\x60' v) = [Token.whole (.quoted (trimmed v)) (inQuotes '\x60' v)] ∧
    (']' ∉ v.toList → Token.scan (inBrackets v) = [Token.whole (.quoted (trimmed v)) (inBrackets v)]) :=
  ⟨scan_inQuotes '\'' (by decide) (fun _ => rfl) v, scan_inQuotes '"' (by decide) (fun _ => rfl) v,
    scan_inQuotes '\x60' (by decide) (fun _ => rfl) v, scan_inBrackets⟩

theorem scan_written_markers :
    ']' ∉ " '' \"--a\n/* [b\x60".toList ∧
    Token.scan (inQuotes '\'' " '' \"--a\n/* [b\x60") =
      [⟨.literal " '' \"--a\n/* [b\x60", "' '''' \"--a\n/* [b\x60'", 2, 8⟩] ∧
    Token.scan (inBrackets " '' \"--a\n/* [b\x60") =
      [⟨.quoted "'' \"--a\n/* [b\x60", "[ '' \"--a\n/* [b\x60]", 2, 8⟩] := by
  have hv : ']' ∉ " '' \"--a\n/* [b\x60".toList := by decide
  obtain ⟨hliteral, -, -, hbrackets⟩ := scan_written " '' \"--a\n/* [b\x60"
  refine ⟨hv, hliteral.trans ?_, (hbrackets hv).trans ?_⟩ <;> decide +kernel

end Quoted
end SqlLineage
