import Retouch.Pattern.Basic
import Retouch.Proofs.Trees

/-!
# Spans of siblings

What a pattern takes depends on the trees that it takes and on the siblings that come after them, which
a negated pattern looks at.  A `Span` says of taken trees and later siblings whether the first are taken
before the second.  Spans are put one after the other and repeated; repetitions of repetitions are
repetitions, with the bounds multiplied, if the inner lower bound is at most one
(`Span.between_between`).
-/

namespace Retouch

open List

abbrev Span (α : Type) := List (Tree α) → List (Tree α) → Prop

namespace Span

variable {α : Type} {A B C D : Span α} {u v : List (Tree α)}

/-! ## Making spans -/

def one (fits : Tree α → Prop) : Span α := fun taken _ => ∃ t, taken = [t] ∧ fits t

def nothing : Span α := fun taken _ => taken = []

def seq (A B : Span α) : Span α := fun taken rest =>
  ∃ u v, taken = u ++ v ∧ A u (v ++ rest) ∧ B v rest

def times (A : Span α) : Nat → Span α
  | 0 => nothing
  | k + 1 => seq A (times A k)

/-- A span at least `min` and at most `max` times. -/
def between (A : Span α) (min max : Nat) : Span α := fun taken rest =>
  ∃ k, min ≤ k ∧ k ≤ max ∧ times A k taken rest

def absent (A : Span α) : Span α := fun taken rest =>
  taken = [] ∧ ∀ u v, rest = u ++ v → ¬ A u v

/-! ## One after the other -/

theorem seq_nothing (A : Span α) : seq A nothing = A := by
  funext taken rest
  refine propext ⟨?_, fun h => ⟨taken, [], (append_nil _).symm, h, rfl⟩⟩
  rintro ⟨u, _, rfl, h, rfl⟩
  rwa [append_nil]

theorem nothing_seq (A : Span α) : seq nothing A = A := by
  funext taken rest
  refine propext ⟨?_, fun h => ⟨[], taken, rfl, rfl, h⟩⟩
  rintro ⟨_, v, rfl, rfl, h⟩
  exact h

theorem seq_assoc (A B C : Span α) : seq (seq A B) C = seq A (seq B C) := by
  funext taken rest
  refine propext ⟨?_, ?_⟩
  · rintro ⟨_, w, rfl, ⟨u, v, rfl, hu, hv⟩, hw⟩
    exact ⟨u, v ++ w, append_assoc u v w, by rwa [append_assoc], v, w, rfl, hv, hw⟩
  · rintro ⟨u, _, rfl, hu, v, w, rfl, hv, hw⟩
    rw [append_assoc] at hu
    exact ⟨u ++ v, w, (append_assoc u v w).symm, ⟨u, v, rfl, hu, hv⟩, hw⟩

theorem times_one (A : Span α) : times A 1 = A := seq_nothing A

theorem times_add (A : Span α) (j k : Nat) : times A (j + k) = seq (times A j) (times A k) := by
  induction j with
  | zero => rw [Nat.zero_add, times, nothing_seq]
  | succ j ih => rw [Nat.succ_add, times, ih, times, seq_assoc]

/-! ## Repetitions -/

theorem between_one (A : Span α) : between A 1 1 = A := by
  funext taken rest
  refine propext ⟨?_, fun h => ⟨1, Nat.le_refl 1, Nat.le_refl 1, by rwa [times_one]⟩⟩
  rintro ⟨k, low, high, h⟩
  rwa [Nat.le_antisymm high low, times_one] at h

theorem between_zero_one : between A 0 1 u v ↔ u = [] ∨ A u v := by
  constructor
  · rintro ⟨k, -, high, h⟩
    obtain rfl | rfl := Nat.le_one_iff_eq_zero_or_eq_one.1 high
    · exact .inl h
    · exact .inr (times_one A ▸ h)
  · rintro (h | h)
    · exact ⟨0, Nat.le_refl 0, Nat.zero_le 1, h⟩
    · exact ⟨1, Nat.zero_le 1, Nat.le_refl 1, by rwa [times_one]⟩

theorem seq_between {a b c d : Nat} (ab : a ≤ b) (cd : c ≤ d) :
    seq (between A a b) (between A c d) = between A (a + c) (b + d) := by
  funext taken rest
  refine propext ⟨?_, ?_⟩
  · rintro ⟨u, v, rfl, ⟨j, aj, jb, hj⟩, k, ck, kd, hk⟩
    refine ⟨j + k, Nat.add_le_add aj ck, Nat.add_le_add jb kd, ?_⟩
    rw [times_add]
    exact ⟨u, v, rfl, hj, hk⟩
  · rintro ⟨n, _, _, h⟩
    -- the first part takes what the second one cannot
    obtain ⟨j, k, rfl, aj, jb, ck, kd⟩ : ∃ j k, n = j + k ∧ a ≤ j ∧ j ≤ b ∧ c ≤ k ∧ k ≤ d :=
      ⟨max a (n - d), n - max a (n - d), by omega, by omega, by omega, by omega, by omega⟩
    rw [times_add] at h
    obtain ⟨u, v, rfl, hu, hv⟩ := h
    exact ⟨u, v, rfl, ⟨j, aj, jb, hu⟩, k, ck, kd, hv⟩

theorem times_between {a b : Nat} (ab : a ≤ b) (k : Nat) :
    times (between A a b) k = between A (k * a) (k * b) := by
  induction k with
  | zero =>
    funext taken rest
    refine propext ⟨fun h => ⟨0, by omega, by omega, h⟩, ?_⟩
    rintro ⟨k, -, high, h⟩
    rw [Nat.zero_mul, Nat.le_zero] at high
    rwa [high] at h
  | succ k ih =>
    rw [times, ih, seq_between ab (Nat.mul_le_mul_left k ab), Nat.succ_mul, Nat.succ_mul,
      Nat.add_comm a, Nat.add_comm b]

theorem exists_groups {lo hi min max n : Nat} (one : lo ≤ 1) (inner : lo ≤ hi) (outer : min ≤ max)
    (below : min * lo ≤ n) (above : n ≤ max * hi) :
    ∃ k, min ≤ k ∧ k ≤ max ∧ k * lo ≤ n ∧ n ≤ k * hi := by
  -- as many turns as there are repetitions to give one to each, or as many as there may be
  obtain rfl | rfl := Nat.le_one_iff_eq_zero_or_eq_one.1 one
  · exact ⟨max, outer, Nat.le_refl max, by omega, above⟩
  · rw [Nat.mul_one] at below
    rcases Nat.le_total n max with small | _
    · exact ⟨n, below, small, by omega, Nat.le_mul_of_pos_right n inner⟩
    · exact ⟨max, outer, Nat.le_refl max, by omega, above⟩

/-- Repetitions of repetitions are repetitions. -/
theorem between_between {lo hi min max : Nat} (one : lo ≤ 1) (inner : lo ≤ hi) (outer : min ≤ max) :
    between (between A lo hi) min max = between A (min * lo) (max * hi) := by
  funext taken rest
  refine propext ⟨?_, ?_⟩
  · rintro ⟨k, low, high, h⟩
    rw [times_between inner] at h
    obtain ⟨n, below, above, h⟩ := h
    exact ⟨n, Nat.le_trans (Nat.mul_le_mul_right lo low) below,
      Nat.le_trans above (Nat.mul_le_mul_right hi high), h⟩
  · rintro ⟨n, below, above, h⟩
    obtain ⟨k, low, high, kn, nk⟩ := exists_groups one inner outer below above
    refine ⟨k, low, high, ?_⟩
    rw [times_between inner]
    exact ⟨n, kn, nk, h⟩

end Span

/-! ## Narrow trees -/

namespace Tree

variable {α : Type}

variable {t : Tree α}

theorem mem_nodes_of_mem_children {n c : Tree α} (hc : c ∈ t.children) (hn : n ∈ c.nodes) :
    n ∈ t.nodes := by
  cases t with
  | leaf => cases hc
  | node tag k cs => exact mem_cons_of_mem _ (mem_nodesAll.2 ⟨c, hc, hn⟩)

/-- Every node of the tree has fewer children than the greatest bound of a repetition. -/
def Narrow (t : Tree α) : Prop := ∀ n ∈ t.nodes, n.children.length < unbounded

/-- There are fewer trees than the greatest bound of a repetition, and they are narrow. -/
def NarrowAll (ts : List (Tree α)) : Prop := ts.length < unbounded ∧ ∀ t ∈ ts, t.Narrow

theorem Narrow.children (h : t.Narrow) : NarrowAll t.children :=
  ⟨h t t.self_mem_nodes, fun _ hc _ hn => h _ (mem_nodes_of_mem_children hc hn)⟩

theorem NarrowAll.mono {ts us : List (Tree α)} (h : NarrowAll ts) (sub : us.Sublist ts) :
    NarrowAll us :=
  ⟨Nat.lt_of_le_of_lt sub.length_le h.1, fun t ht => h.2 t (sub.subset ht)⟩

theorem NarrowAll.right {us vs : List (Tree α)} (h : NarrowAll (us ++ vs)) : NarrowAll vs :=
  h.mono (sublist_append_right us vs)

theorem narrowAll_nil : NarrowAll ([] : List (Tree α)) :=
  ⟨show 0 < unbounded by decide, nofun⟩

theorem Narrow.singleton (h : t.Narrow) : NarrowAll [t] :=
  ⟨show 1 < unbounded by decide, fun _ ht => mem_singleton.1 ht ▸ h⟩

end Tree

/-! ## Spans that agree -/

namespace Span

open Tree (NarrowAll)

variable {α : Type} {A A' B B' : Span α}

def Agree (A B : Span α) : Prop := ∀ u v, NarrowAll (u ++ v) → (A u v ↔ B u v)

theorem Agree.refl (A : Span α) : Agree A A := fun _ _ _ => .rfl

theorem Agree.seq (hA : Agree A A') (hB : Agree B B') : Agree (seq A B) (seq A' B') := by
  intro _ rest narrow
  refine exists_congr fun u => exists_congr fun v => and_congr_right ?_
  rintro rfl
  rw [append_assoc] at narrow
  exact and_congr (hA u (v ++ rest) narrow) (hB v rest narrow.right)

theorem Agree.times (h : Agree A B) (k : Nat) : Agree (times A k) (times B k) := by
  induction k with
  | zero => exact .refl nothing
  | succ k ih => exact h.seq ih

theorem Agree.between (h : Agree A B) (min max : Nat) :
    Agree (between A min max) (between B min max) := fun u v narrow =>
  exists_congr fun k => and_congr_right fun _ => and_congr_right fun _ => h.times k u v narrow

theorem Agree.absent (h : Agree A B) : Agree (absent A) (absent B) := by
  intro _ _ narrow
  refine and_congr_right fun _ => forall_congr' fun u => forall_congr' fun v => ?_
  refine forall_congr' fun eq => not_congr (h u v ?_)
  rw [← eq]
  exact narrow.right

/-- Where a span is never empty, it cannot be repeated more often than there are trees. -/
theorem le_length_of_times (never : ∀ v, NarrowAll v → ¬ A [] v) {k : Nat} {u v : List (Tree α)}
    (narrow : NarrowAll (u ++ v)) (h : times A k u v) : k ≤ u.length := by
  induction k generalizing u with
  | zero => exact Nat.zero_le _
  | succ k ih =>
    obtain ⟨first, _, rfl, hf, hl⟩ := h
    rw [append_assoc] at narrow
    have some : first ≠ [] := by
      rintro rfl
      exact never _ narrow hf
    have pos := length_pos_iff.2 some
    have le := ih narrow.right hl
    rw [length_append]
    omega

end Span

end Retouch
