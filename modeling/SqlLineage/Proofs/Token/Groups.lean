import Mathlib.Data.List.Pairwise
import SqlLineage.Proofs.Checked.ColumnBlock
import SqlLineage.Proofs.Token.Balanced
import SqlLineage.Token.Scan

/-! # Groups between commas

A list is cut at the commas that stand outside all parentheses.

* `Token.SeparatesAt`: where such a comma stands, by counting the parentheses in front of it.
* `Token.withoutSeparators`, `Token.flatten_topLevel`: nothing but these commas is lost.
* `Token.Partition`: spans in order that hold every index but those of these commas.
* `Token.PartitionFrom`: what a scan finds that begins inside a group. Each branch of the scan keeps it.
* `Token.Partition.balanced_of`: a group of balanced tokens is balanced.
* `Token.topLevelSpans_partition`: the spans of the groups are such a partition. -/

namespace SqlLineage.Token
set_option autoImplicit false

/-! ## Nothing but separators is lost -/

/-- Whether a token is a comma at depth zero. -/
def Placed.isSeparator (p : Placed) : Bool :=
  p.token.kind == .comma && p.depth == 0

/-- The tokens apart from the commas at depth zero. -/
def withoutSeparators (ts : List Token) : List Token :=
  ((placed ts).filter fun p => !p.isSeparator).map Placed.token

theorem span_of_empty {α : Type} {start stop : Nat} (h : stop ≤ start) (xs : List α) :
    Span.of ⟨start, stop⟩ xs = [] := by
  rw [Span.of]
  dsimp only
  rw [Nat.sub_eq_zero_of_le h, List.take_zero]

theorem flatten_nonempty {α : Type} (start stop : Nat) (xs : List α) :
    ((Span.nonempty start stop).map (·.of xs)).flatten = Span.of ⟨start, stop⟩ xs := by
  unfold Span.nonempty
  split
  · rw [List.map_singleton, List.flatten_singleton]
  · next h =>
    rw [span_of_empty (Nat.le_of_not_lt h)]
    rfl

/-- The groups that begin in the tokens `ts`, which follow `front`, where the current group began at `start`. -/
theorem flatten_spansFrom (front ts : List Token) {start : Nat} (h : start ≤ front.length) (d : Int) :
    ((spansFrom front.length start d ts).map (·.of (front ++ ts))).flatten =
      Span.of ⟨start, front.length⟩ (front ++ ts) ++
        ((placedFrom front.length d ts).filter fun p => !p.isSeparator).map Placed.token := by
  induction ts generalizing front start d with
  | nil =>
    rw [spansFrom, flatten_nonempty]
    exact (List.append_nil _).symm
  | cons t ts ih =>
    have hall : front ++ t :: ts = (front ++ [t]) ++ ts := List.append_cons ..
    have hlength : (front ++ [t]).length = front.length + 1 := List.length_append
    rw [spansFrom]
    split
    · next hsep =>
      obtain ⟨hcomma, rfl⟩ := hsep
      have hparen : t.isParen = false := by simp [isParen, hcomma]
      have hrest := ih (front ++ [t]) (Nat.le_refl _) 0
      rw [hlength, ← hall, span_of_empty (Nat.le_refl _), List.nil_append] at hrest
      have hout : (Placed.mk t 0 front.length).isSeparator = true := by simp [Placed.isSeparator, hcomma]
      rw [List.map_append, List.flatten_append, flatten_nonempty, hrest, placedFrom_of_not_paren hparen,
        List.filter_cons_of_neg (by simp [hout])]
    · next hsep =>
      have hrest := ih (front ++ [t]) (by omega : start ≤ (front ++ [t]).length) (d + t.depthChange)
      have hlt : front.length < (front ++ t :: ts).length := by simp
      have hget : (front ++ t :: ts)[front.length] = t := by simp
      rw [hlength, ← hall, Span.of_succ h hlt, hget, List.append_assoc] at hrest
      have hin : (Placed.mk t (if t.kind = .rightParen then d - 1 else d) front.length).isSeparator = false := by
        by_cases hcomma : t.kind = .comma
        · have hd : d ≠ 0 := fun hd => hsep ⟨hcomma, hd⟩
          simp [Placed.isSeparator, hcomma, hd]
        · simp [Placed.isSeparator, hcomma]
      rw [hrest, placedFrom, List.filter_cons_of_pos (by simp [hin])]
      rfl

theorem flatten_topLevel (ts : List Token) : (topLevel ts).flatten = withoutSeparators ts := by
  have h := flatten_spansFrom [] ts (Nat.le_refl 0) 0
  rw [List.nil_append] at h
  rw [topLevel, topLevelSpans, withoutSeparators, placed_eq]
  exact h

/-! ## Separators by counting -/

/-- At `i` stands a comma with as many opening as closing parentheses in front of it. -/
structure SeparatesAt (ts : List Token) (i : Nat) : Prop where
  comma : ∃ t, ts[i]? = some t ∧ t.kind = .comma
  level : (ts.take i).countP (·.kind == .leftParen) = (ts.take i).countP (·.kind == .rightParen)

/-- Depths are opening parentheses less closing ones. -/
theorem depthBehind_eq_count (d : Int) (ts : List Token) : depthBehind d ts =
    d + ts.countP (·.kind == .leftParen) - ts.countP (·.kind == .rightParen) := by
  induction ts generalizing d with
  | nil => simp [depthBehind]
  | cons t ts ih =>
    rw [depthBehind_cons, ih, List.countP_cons, List.countP_cons]
    unfold depthChange
    cases t.kind <;> simp <;> omega

theorem separatesAt_iff {ts : List Token} {i : Nat} {t : Token} (h : ts[i]? = some t) :
    SeparatesAt ts i ↔ t.kind = .comma ∧ depthBefore ts i = 0 := by
  have hlevel : depthBefore ts i = 0 ↔
      (ts.take i).countP (·.kind == .leftParen) = (ts.take i).countP (·.kind == .rightParen) := by
    rw [depthBefore, depthBehind_eq_count]
    omega
  rw [hlevel]
  constructor
  · rintro ⟨⟨u, hu, hcomma⟩, hcount⟩
    rw [h] at hu
    exact ⟨Option.some.inj hu ▸ hcomma, hcount⟩
  · rintro ⟨hcomma, hcount⟩
    exact ⟨⟨t, h, hcomma⟩, hcount⟩

theorem SeparatesAt.depthBefore_eq {ts : List Token} {i : Nat} (h : SeparatesAt ts i) :
    depthBefore ts i = 0 ∧ depthBefore ts (i + 1) = 0 := by
  obtain ⟨t, ht, hcomma⟩ := h.comma
  have hzero := ((separatesAt_iff ht).mp h).2
  refine ⟨hzero, ?_⟩
  rw [depthBefore_succ ht, hzero, depthChange_of_not_paren (by simp [isParen, hcomma])]
  rfl

theorem isSeparator_iff {ts : List Token} {i : Nat} {t : Token} (h : ts[i]? = some t) :
    (Placed.mk t (depthAt ts i) i).isSeparator = true ↔ SeparatesAt ts i := by
  rw [separatesAt_iff h, Placed.isSeparator, Bool.and_eq_true, beq_iff_eq, beq_iff_eq]
  dsimp only
  refine and_congr_right fun hcomma => ?_
  rw [depthAt_eq h, if_neg (by simp [hcomma])]

/-! ## Spans that hold everything else -/

/-- The index stands in the span. -/
def Span.Contains (s : Span) (i : Nat) : Prop :=
  s.start ≤ i ∧ i < s.stop

/-- Spans from left to right, none of them empty and each one behind the end of those in front of it, that hold the
indices of all tokens but the separators. -/
structure Partition (ts : List Token) (spans : List Span) : Prop where
  nonempty : ∀ s ∈ spans, s.start < s.stop
  bounds : ∀ s ∈ spans, s.stop ≤ ts.length
  ordered : spans.Pairwise fun s u => s.stop < u.start
  outside : ∀ i < ts.length, (∀ s ∈ spans, ¬ s.Contains i) ↔ SeparatesAt ts i

/-- What a scan finds that is at the index `i` and the depth `d` and in a group that began at `start`. The tokens `ts`
are those that it has not seen; of those that it has seen, the ones in the current group are in the first span. -/
structure PartitionFrom (i start : Nat) (d : Int) (ts : List Token) (spans : List Span) : Prop where
  behind : ∀ s ∈ spans, start ≤ s.start
  ordered : spans.Pairwise fun s u => s.stop < u.start
  current : ∀ k, start ≤ k → k < i → ∃ s ∈ spans, s.Contains k
  outside : ∀ p ∈ placedFrom i d ts, (∀ s ∈ spans, ¬ s.Contains p.index) ↔ p.isSeparator = true

section Scan
variable {i start : Nat} {d : Int} {t : Token} {ts : List Token} {spans : List Span}

theorem partitionFrom_nil (i start : Nat) (d : Int) : PartitionFrom i start d [] (Span.nonempty start i) where
  behind := by
    intro s hs
    obtain ⟨-, rfl⟩ := Span.mem_nonempty.mp hs
    exact Nat.le_refl start
  ordered := by
    unfold Span.nonempty
    split <;> simp
  current := by
    intro k hk hki
    exact ⟨⟨start, i⟩, Span.mem_nonempty.mpr ⟨Nat.lt_of_le_of_lt hk hki, rfl⟩, hk, hki⟩
  outside := by
    intro p hp
    cases hp

/-- A separator ends the current group, and the next one begins right behind it. -/
theorem PartitionFrom.separator (h : PartitionFrom (i + 1) (i + 1) 0 ts spans) (hstart : start ≤ i)
    (ht : t.kind = .comma) : PartitionFrom i start 0 (t :: ts) (Span.nonempty start i ++ spans) where
  behind := by
    intro s hs
    rcases List.mem_append.mp hs with hs | hs
    · exact (partitionFrom_nil i start 0).behind s hs
    · have hbehind := h.behind s hs
      omega
  ordered := by
    refine List.pairwise_append.mpr ⟨(partitionFrom_nil i start 0).ordered, h.ordered, fun s hs u hu => ?_⟩
    obtain ⟨-, rfl⟩ := Span.mem_nonempty.mp hs
    exact h.behind u hu
  current := by
    intro k hk hki
    obtain ⟨s, hs, hcontains⟩ := (partitionFrom_nil i start 0).current k hk hki
    exact ⟨s, List.mem_append_left _ hs, hcontains⟩
  outside := by
    have hfront : ∀ k, i ≤ k → ∀ s ∈ Span.nonempty start i, ¬ s.Contains k := by
      intro k hk s hs hcontains
      obtain ⟨-, rfl⟩ := Span.mem_nonempty.mp hs
      exact absurd hcontains.2 (Nat.not_lt.mpr hk)
    rw [placedFrom_of_not_paren (by simp [isParen, ht]), List.forall_mem_cons]
    constructor
    · have hsep : (Placed.mk t 0 i).isSeparator = true := by simp [Placed.isSeparator, ht]
      refine iff_of_true (List.forall_mem_append.mpr ⟨hfront i (Nat.le_refl i), fun s hs hcontains => ?_⟩) hsep
      have hbehind := h.behind s hs
      have hle : s.start ≤ i := hcontains.1
      omega
    · intro p hp
      have hindex : i ≤ p.index := Nat.le_of_succ_le (mem_placedFrom hp).2.1
      rw [← h.outside p hp, List.forall_mem_append]
      exact and_iff_right (hfront p.index hindex)

/-- Every other token belongs to the current group. -/
theorem PartitionFrom.token (h : PartitionFrom (i + 1) start (d + t.depthChange) ts spans) (hstart : start ≤ i)
    (ht : ¬ (t.kind = .comma ∧ d = 0)) : PartitionFrom i start d (t :: ts) spans where
  behind := h.behind
  ordered := h.ordered
  current := fun k hk hki => h.current k hk (Nat.lt_succ_of_lt hki)
  outside := by
    rw [placedFrom, List.forall_mem_cons]
    refine ⟨iff_of_false ?_ ?_, h.outside⟩
    · intro hnone
      obtain ⟨s, hs, hcontains⟩ := h.current i hstart (Nat.lt_succ_self i)
      exact hnone s hs hcontains
    · intro hsep
      obtain ⟨hcomma, hd⟩ : t.kind = .comma ∧ _ = (0 : Int) := by simpa [Placed.isSeparator] using hsep
      rw [if_neg (by simp [hcomma])] at hd
      exact ht ⟨hcomma, hd⟩

theorem partitionFrom_spansFrom (h : start ≤ i) (d : Int) (ts : List Token) :
    PartitionFrom i start d ts (spansFrom i start d ts) := by
  induction ts generalizing i start d with
  | nil => exact partitionFrom_nil i start d
  | cons t ts ih =>
    rw [spansFrom]
    split
    · next hsep =>
      obtain ⟨hcomma, rfl⟩ := hsep
      exact (ih (Nat.le_refl (i + 1)) 0).separator h hcomma
    · next hsep => exact (ih (Nat.le_succ_of_le h) _).token h hsep

end Scan

theorem partition_spansFrom (ts : List Token) : Partition ts (topLevelSpans ts) where
  nonempty := fun s hs => (topLevelSpans_bounds s hs).1
  bounds := fun s hs => (topLevelSpans_bounds s hs).2
  ordered := (partitionFrom_spansFrom (Nat.le_refl 0) 0 ts).ordered
  outside := by
    intro i hi
    have hget := List.getElem?_eq_getElem hi
    have hplace : (placed ts)[i]? = some ⟨ts[i], depthAt ts i, i⟩ := by rw [getElem?_placed, hget, Option.map_some]
    have hp := List.mem_of_getElem? hplace
    rw [placed_eq] at hp
    rw [← isSeparator_iff hget]
    exact (partitionFrom_spansFrom (Nat.le_refl 0) 0 ts).outside _ hp

/-! ## Groups of balanced tokens -/

section Groups
variable {ts : List Token} {spans : List Span} {s : Span}

theorem Partition.apart (h : Partition ts spans) {u : Span} (hs : s ∈ spans) (hu : u ∈ spans) (hne : s ≠ u) :
    s.stop < u.start ∨ u.stop < s.start := by
  have hall : spans.Pairwise fun s u => s.stop < u.start ∨ u.stop < s.start := h.ordered.imp Or.inl
  have hsymm : Std.Symm fun s u : Span => s.stop < u.start ∨ u.stop < s.start := ⟨fun _ _ => Or.symm⟩
  exact hall.forall hs hu hne

/-- Right behind the end of a span is a separator. -/
theorem Partition.separatesAt_stop (h : Partition ts spans) (hs : s ∈ spans) (hlt : s.stop < ts.length) :
    SeparatesAt ts s.stop := by
  rw [← h.outside _ hlt]
  intro u hu hcontains
  have hne : s ≠ u := by
    rintro rfl
    exact absurd hcontains.2 (Nat.lt_irrefl _)
  have hstop : s.start < s.stop := h.nonempty s hs
  have hcontains' : u.start ≤ s.stop ∧ s.stop < u.stop := hcontains
  have hapart := h.apart hs hu hne
  omega

/-- Right in front of a span is a separator. -/
theorem Partition.separatesAt_start (h : Partition ts spans) (hs : s ∈ spans) {k : Nat} (hk : s.start = k + 1) :
    SeparatesAt ts k := by
  have hstop : s.start < s.stop := h.nonempty s hs
  have hbound := h.bounds s hs
  rw [← h.outside k (by omega)]
  intro u hu hcontains
  have hcontains' : u.start ≤ k ∧ k < u.stop := hcontains
  have hne : s ≠ u := by
    rintro rfl
    omega
  have hapart := h.apart hs hu hne
  omega

theorem Partition.depthBefore_start (h : Partition ts spans) (hs : s ∈ spans) : depthBefore ts s.start = 0 := by
  cases hstart : s.start with
  | zero => rfl
  | succ k => exact (h.separatesAt_start hs hstart).depthBefore_eq.2

theorem Partition.depthBefore_stop (h : Partition ts spans) (hs : s ∈ spans) (hclosed : depthBehind 0 ts = 0) :
    depthBefore ts s.stop = 0 := by
  rcases Nat.lt_or_eq_of_le (h.bounds s hs) with hlt | heq
  · exact (h.separatesAt_stop hs hlt).depthBefore_eq.1
  · rw [heq, depthBefore, List.take_length, hclosed]

/-- Depths inside a span that begins at depth zero are those of all tokens. -/
theorem depthBefore_span (hstart : depthBefore ts s.start = 0) (k : Nat) :
    depthBefore (s.of ts) k = depthBefore ts (s.start + min k (s.stop - s.start)) := by
  rw [depthBefore, Span.of, List.take_take, depthBefore, List.take_add, depthBehind_append]
  congr 1
  exact hstart.symm

theorem Partition.balanced_of (h : Partition ts spans) (hs : s ∈ spans) (hts : Balanced ts) : Balanced (s.of ts) where
  nonneg := by
    intro k
    rw [depthBefore_span (h.depthBefore_start hs)]
    exact hts.nonneg _
  closed := by
    have hstop : s.start < s.stop := h.nonempty s hs
    have hlength : (s.of ts).length ≤ s.stop - s.start := List.length_take_le ..
    have hall := depthBefore_span (h.depthBefore_start hs) (s.stop - s.start)
    rwa [Nat.min_self, Nat.add_sub_cancel' (Nat.le_of_lt hstop), h.depthBefore_stop hs hts.closed, depthBefore,
      List.take_of_length_le hlength] at hall

end Groups

/-- The spans of the groups are in order and not empty, and the indices outside of them are exactly those of the
separators. If parentheses match in all the tokens, then they match in every group. -/
theorem topLevelSpans_partition (ts : List Token) :
    Partition ts (topLevelSpans ts) ∧ (Balanced ts → ∀ group ∈ topLevel ts, Balanced group) := by
  refine ⟨partition_spansFrom ts, fun hts group hgroup => ?_⟩
  obtain ⟨s, hs, rfl⟩ := List.mem_map.mp hgroup
  exact (partition_spansFrom ts).balanced_of hs hts

/-- Empty groups have no span, and commas in parentheses separate nothing. -/
theorem topLevelSpans_partition_call :
    let ts := scan "a, , f(b, (c)), "
    Balanced ts ∧ topLevelSpans ts = [⟨0, 1⟩, ⟨3, 11⟩] ∧ ∀ group ∈ topLevel ts, Balanced group := by
  have hbalanced : Balanced (scan "a, , f(b, (c)), ") := by decide +kernel
  exact ⟨hbalanced, by decide +kernel, (topLevelSpans_partition _).2 hbalanced⟩

end SqlLineage.Token
