import SqlLineage.Token.Bracket

/-! # Accesses that are checked

Where the definitions of this library take a part of a list they never fail: an index that is out of range gives
nothing, a span that is out of range is cut short, and no number goes below zero. Here such an access is an error.
A depth is an integer and leads to no access, so it may go below zero here as well.

* `Fault`: what goes wrong. `Checked` is a result, or the first fault.
* `Checked.get`, `Checked.slice`, `Checked.sub`: the accesses, and when they give what the unchecked ones give.
* `Checked.iterate`: a loop over the indices of a list. A step that does not get on is a fault as well, so a loop
  without faults comes to an end.
* `Checked.mapM_eq`, `Checked.findM?_eq`, `Checked.foldlM_invariant`: passes over lists whose single steps have no fault. -/

namespace SqlLineage
set_option autoImplicit false

inductive Fault where
  | index (i length : Nat)
  | slice (start stop length : Nat)
  | subtraction (a b : Nat)
  | stuck (i : Nat)

abbrev Checked (α : Type) := Except Fault α

namespace Checked
variable {α β γ : Type}

@[simp] theorem ok_bind (a : α) (f : α → Checked β) : ((Except.ok a : Checked α) >>= f) = f a := rfl

@[simp] theorem map_ok (f : α → β) (a : α) : f <$> (Except.ok a : Checked α) = .ok (f a) := rfl

/-! ## Single accesses -/

def get (xs : List α) (i : Nat) : Checked α :=
  match xs[i]? with
  | some x => .ok x
  | none => .error (.index i xs.length)

/-- The elements from the index `start` up to the index `stop`. -/
def slice (xs : List α) (start stop : Nat) : Checked (List α) :=
  if start ≤ stop ∧ stop ≤ xs.length then .ok (Token.Span.of ⟨start, stop⟩ xs)
  else .error (.slice start stop xs.length)

/-- The elements from the index `start` on. -/
def suffix (xs : List α) (start : Nat) : Checked (List α) :=
  slice xs start xs.length

def sub (a b : Nat) : Checked Nat :=
  if b ≤ a then .ok (a - b) else .error (.subtraction a b)

theorem get_eq {xs : List α} {i : Nat} {x : α} (h : xs[i]? = some x) : get xs i = .ok x := by
  rw [get, h]

theorem get_eq_iff {xs : List α} {i : Nat} {x : α} : get xs i = .ok x ↔ xs[i]? = some x := by
  unfold get
  cases xs[i]? with
  | none => simp
  | some y => simp

theorem slice_eq {xs : List α} {start stop : Nat} (h : start ≤ stop) (h' : stop ≤ xs.length) :
    slice xs start stop = .ok (Token.Span.of ⟨start, stop⟩ xs) :=
  if_pos ⟨h, h'⟩

theorem suffix_eq {xs : List α} {start : Nat} (h : start ≤ xs.length) : suffix xs start = .ok (xs.drop start) := by
  rw [suffix, slice_eq h (Nat.le_refl _), Token.Span.of, ← List.length_drop, List.take_length]

theorem drop_min (xs : List α) (i : Nat) : xs.drop (min i xs.length) = xs.drop i := by
  rcases Nat.le_total i xs.length with h | h
  · rw [Nat.min_eq_left h]
  · rw [Nat.min_eq_right h, List.drop_length, List.drop_eq_nil_of_le h]

theorem prefix_eq {xs : List α} {stop : Nat} (h : stop ≤ xs.length) : slice xs 0 stop = .ok (xs.take stop) :=
  slice_eq (Nat.zero_le _) h

theorem sub_eq {a b : Nat} (h : b ≤ a) : sub a b = .ok (a - b) :=
  if_pos h

/-! ## Passes over lists -/

theorem mapM_eq {f : α → Checked β} {g : α → β} {l : List α} (h : ∀ x ∈ l, f x = .ok (g x)) :
    l.mapM f = .ok (l.map g) := by
  induction l with
  | nil => rfl
  | cons x l ih =>
    obtain ⟨hx, hl⟩ := List.forall_mem_cons.mp h
    rw [List.mapM_cons, hx, ok_bind, ih hl]
    rfl

theorem filterMapM_map_eq {k : γ → α} {f : α → Checked (Option β)} {g : γ → Option β} {l : List γ}
    (h : ∀ x ∈ l, f (k x) = .ok (g x)) : (l.map k).filterMapM f = .ok (l.filterMap g) := by
  induction l with
  | nil => rfl
  | cons x l ih =>
    obtain ⟨hx, hl⟩ := List.forall_mem_cons.mp h
    rw [List.map_cons, List.filterMapM_cons, hx, ok_bind, ih hl]
    cases hg : g x with
    | none => simp [hg]
    | some y => simp [hg]

theorem filterMapM_eq {f : α → Checked (Option β)} {g : α → Option β} {l : List α} (h : ∀ x ∈ l, f x = .ok (g x)) :
    l.filterMapM f = .ok (l.filterMap g) := by
  rw [← filterMapM_map_eq h, List.map_id']

theorem findM?_map_eq {k : γ → α} {p : α → Checked Bool} {q : γ → Bool} {l : List γ}
    (h : ∀ x ∈ l, p (k x) = .ok (q x)) : (l.map k).findM? p = .ok ((l.find? q).map k) := by
  induction l with
  | nil => rfl
  | cons x l ih =>
    obtain ⟨hx, hl⟩ := List.forall_mem_cons.mp h
    rw [List.map_cons, List.findM?, hx, ok_bind, List.find?_cons]
    cases q x with
    | true => rfl
    | false => exact ih hl

theorem findM?_eq {p : α → Checked Bool} {q : α → Bool} {l : List α} (h : ∀ x ∈ l, p x = .ok (q x)) :
    l.findM? p = .ok (l.find? q) := by
  have hmap := findM?_map_eq (k := id) h
  rwa [List.map_id, Option.map_id] at hmap

/-- A fold over a list, with an invariant of what it carries. -/
theorem foldlM_invariant {P : β → Prop} {f : β → α → Checked β} {g : β → α → β} {l : List α}
    (h : ∀ b, P b → ∀ x ∈ l, f b x = .ok (g b x) ∧ P (g b x)) {b : β} (hb : P b) :
    l.foldlM f b = .ok (l.foldl g b) ∧ P (l.foldl g b) := by
  induction l generalizing b with
  | nil => exact ⟨rfl, hb⟩
  | cons x l ih =>
    obtain ⟨hstep, hnext⟩ := h b hb x (List.mem_cons_self ..)
    rw [List.foldlM_cons, hstep, ok_bind, List.foldl_cons]
    exact ih (fun b hb y hy => h b hb y (List.mem_cons_of_mem _ hy)) hnext

theorem foldlM_eq {f : β → α → Checked β} {g : β → α → β} {l : List α} (h : ∀ b, ∀ x ∈ l, f b x = .ok (g b x))
    (b : β) : l.foldlM f b = .ok (l.foldl g b) :=
  (foldlM_invariant (P := fun _ => True) (fun b _ x hx => ⟨h b x hx, trivial⟩) trivial).1

/-! ## Loops -/

/-- Collects what the steps put out, from the index `i` up to the length of a list. A step says at which index the
next one begins. -/
def iterate (length : Nat) (step : Nat → Checked (List β × Nat)) (i : Nat) : Checked (List β) :=
  if i < length then
    match step i with
    | .error e => .error e
    | .ok (out, next) =>
      if i < next then (out ++ ·) <$> iterate length step next else .error (.stuck i)
  else .ok []
termination_by length - i

theorem iterate_eq {length : Nat} {step : Nat → Checked (List β × Nat)} {f : Nat → List β}
    (hend : ∀ i, length ≤ i → f i = [])
    (hstep : ∀ i, i < length → ∃ out next, step i = .ok (out, next) ∧ i < next ∧ f i = out ++ f next) (i : Nat) :
    iterate length step i = .ok (f i) := by
  fun_induction iterate length step i with
  | case1 i hi e he =>
    obtain ⟨out, next, hok, -⟩ := hstep i hi
    rw [he] at hok
    cases hok
  | case2 i hi out next hout hlt ih =>
    obtain ⟨out', next', hok, -, hf⟩ := hstep i hi
    rw [hout] at hok
    obtain ⟨rfl, rfl⟩ := Prod.mk.inj (Except.ok.inj hok)
    rw [ih, map_ok, hf]
  | case3 i hi out next hout hge =>
    obtain ⟨out', next', hok, hlt, -⟩ := hstep i hi
    rw [hout] at hok
    obtain ⟨rfl, rfl⟩ := Prod.mk.inj (Except.ok.inj hok)
    exact absurd hlt hge
  | case4 i hi => rw [hend i (Nat.le_of_not_lt hi)]

end Checked
end SqlLineage
