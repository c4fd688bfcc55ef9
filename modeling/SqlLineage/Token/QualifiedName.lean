import SqlLineage.Token

/-!
# Qualified names

A name is an identifier, or several with a dot between neighbours: `sales.public.orders`. The parts are
kept apart while a name is read; everywhere else a name is its text, the parts joined by dots.
-/

namespace SqlLineage
set_option autoImplicit false

/-- A name that was read from tokens, and the index of the token behind it. -/
structure QualifiedName where
  parts : List String
  next : Nat
deriving DecidableEq

namespace QualifiedName

def text (n : QualifiedName) : String :=
  ".".intercalate n.parts

/-- The further parts of a name: dots that are each followed by an identifier. -/
def furtherParts : List Token → List String
  | d :: t :: ts =>
    if d.kind = .dot then
      match t.identifier? with
      | some part => part :: furtherParts ts
      | none => []
    else []
  | _ => []

/-- The name at the head of a token list, with `next` counted from `start`. -/
def ofTokens? (start : Nat) : List Token → Option QualifiedName
  | [] => none
  | t :: ts => t.identifier?.map fun first =>
    ⟨first :: furtherParts ts, start + 1 + 2 * (furtherParts ts).length⟩

def read? (ts : List Token) (start : Nat) : Option QualifiedName :=
  ofTokens? start (ts.drop start)

theorem start_lt_next {ts : List Token} {start : Nat} {n : QualifiedName}
    (h : read? ts start = some n) : start < n.next := by
  unfold read? ofTokens? at h
  split at h
  · cases h
  · next t rest _ =>
    cases ht : t.identifier? with
    | none => simp [ht] at h
    | some first =>
      simp only [ht, Option.map_some, Option.some.injEq] at h
      subst h
      simp only
      omega

theorem furtherParts_length_le (ts : List Token) : 2 * (furtherParts ts).length ≤ ts.length := by
  fun_induction furtherParts ts with
  | case1 d t ts hdot part hpart ih =>
    simp only [List.length_cons]
    omega
  | case2 => simp
  | case3 => simp
  | case4 => simp

theorem next_le {ts : List Token} {start : Nat} {n : QualifiedName}
    (h : read? ts start = some n) : n.next ≤ ts.length := by
  unfold read? ofTokens? at h
  split at h
  · cases h
  · next t rest heq =>
    have hl : rest.length + 1 = ts.length - start := by
      rw [← List.length_drop, heq, List.length_cons]
    have hf := furtherParts_length_le rest
    cases ht : t.identifier? with
    | none => simp [ht] at h
    | some first =>
      simp only [ht, Option.map_some, Option.some.injEq] at h
      subst h
      simp only
      omega

end QualifiedName
end SqlLineage
