import Retouch.Pattern.Match
import Retouch.Proofs.Searches
import Retouch.Proofs.Spans

/-!
# What patterns take

`Pattern.Takes` says what a pattern takes, as a span of siblings, and `Pattern.Splits` says so together
with the names that are bound: what one part binds is merged with what the parts after it bind.  The
ways of a pattern find what it splits off (`Pattern.ways_finds`), so a match that does not break off
says yes exactly if the pattern takes the tree (`Pattern.matchTree_tells`).  The turns of a wild
pattern may be repeated only if none of them takes nothing, or up to a bound, as otherwise the search
can go round in circles (`Pattern.Settled`, `Pattern.Steady`).
-/

namespace Retouch

open List

variable {α : Type}

/-! ## Spans with names -/

/-- Of which trees, before which later siblings, with which names bound, something is true. -/
abbrev NamedSpan (α : Type) := List (Tree α) → List (Tree α) → Bindings α → Prop

namespace NamedSpan

variable {A B : NamedSpan α} {ts : List (Tree α)} {n : Nat} {names : Bindings α}

def one (fits : Tree α → Bindings α → Prop) : NamedSpan α := fun taken _ names =>
  ∃ t, taken = [t] ∧ fits t names

def nothing : NamedSpan α := fun taken _ names => taken = [] ∧ names = []

/-- One span and then another, with the names of the first and then those of the second. -/
def seq (A B : NamedSpan α) : NamedSpan α := fun taken rest names =>
  ∃ u v r s, taken = u ++ v ∧ A u (v ++ rest) r ∧ B v rest s ∧ names = OrderedMap.update r s

def times (A : NamedSpan α) : Nat → NamedSpan α
  | 0 => nothing
  | k + 1 => seq A (times A k)

/-- The span takes the first `n` trees and binds the names. -/
def At (A : NamedSpan α) (ts : List (Tree α)) (n : Nat) (names : Bindings α) : Prop :=
  ∃ u v, ts = u ++ v ∧ u.length = n ∧ A u v names

def unnamed (A : NamedSpan α) : Span α := fun u v => ∃ names, A u v names

theorem seq_nothing (A : NamedSpan α) : seq A nothing = A := by
  funext taken rest names
  refine propext ⟨?_, fun h => ⟨taken, [], names, [], (append_nil _).symm, h, ⟨rfl, rfl⟩, rfl⟩⟩
  rintro ⟨u, _, r, _, rfl, h, ⟨rfl, rfl⟩, rfl⟩
  rwa [append_nil]

theorem at_zero : A.At ts 0 names ↔ A [] ts names := by
  refine ⟨?_, fun h => ⟨[], ts, rfl, rfl, h⟩⟩
  rintro ⟨u, v, rfl, len, h⟩
  rw [length_eq_zero_iff] at len
  subst len
  exact h

variable {fits : Tree α → Bindings α → Prop}

theorem at_one : (one fits).At ts n names ↔ n = 1 ∧ ∃ t rest, ts = t :: rest ∧ fits t names := by
  constructor
  · rintro ⟨_, v, rfl, rfl, t, rfl, fit⟩
    exact ⟨rfl, t, v, rfl, fit⟩
  · rintro ⟨rfl, t, rest, rfl, fit⟩
    exact ⟨[t], rest, rfl, rfl, t, rfl, fit⟩

theorem not_at_one_nil : ¬ (one fits).At [] n names := by
  intro h
  obtain ⟨-, t, _, eq, -⟩ := at_one.1 h
  cases eq

theorem at_seq : (seq A B).At ts n names ↔ ∃ c r, A.At ts c r ∧
    ∃ m s, B.At (ts.drop c) m s ∧ n = c + m ∧ names = OrderedMap.update r s := by
  constructor
  · rintro ⟨_, w, rfl, rfl, u, v, r, s, rfl, hu, hv, rfl⟩
    refine ⟨u.length, r, ⟨u, v ++ w, append_assoc u v w, rfl, hu⟩, v.length, s, ?_,
      length_append, rfl⟩
    rw [append_assoc, drop_left]
    exact ⟨v, w, rfl, rfl, hv⟩
  · rintro ⟨_, r, ⟨u, _, rfl, rfl, hu⟩, _, s, ⟨v, w, eq, rfl, hv⟩, rfl, rfl⟩
    rw [drop_left] at eq
    subst eq
    exact ⟨u ++ v, w, (append_assoc u v w).symm, length_append, u, v, r, s, rfl, hu, hv, rfl⟩

theorem at_or : At (fun u v r => A u v r ∨ B u v r) ts n names ↔ A.At ts n names ∨ B.At ts n names := by
  simp only [At, and_or_left, exists_or]

theorem at_length : A.At ts ts.length names ↔ A ts [] names := by
  constructor
  · rintro ⟨u, v, rfl, len, h⟩
    rw [length_append, Nat.left_eq_add, length_eq_zero_iff] at len
    subst len
    rwa [append_nil]
  · exact fun h => ⟨ts, [], (append_nil ts).symm, rfl, h⟩

theorem at_iff : A.At ts n names ↔ n ≤ ts.length ∧ A (ts.take n) (ts.drop n) names := by
  constructor
  · rintro ⟨u, v, rfl, rfl, h⟩
    rw [take_left, drop_left, length_append]
    exact ⟨Nat.le_add_right _ _, h⟩
  · rintro ⟨le, h⟩
    exact ⟨_, _, (take_append_drop n ts).symm, length_take_of_le le, h⟩

/-! ### Without the names -/

theorem unnamed_nothing : (nothing : NamedSpan α).unnamed = Span.nothing := by
  funext u v
  exact propext ⟨fun ⟨_, h, _⟩ => h, fun h => ⟨[], h, rfl⟩⟩

theorem unnamed_seq (A B : NamedSpan α) : (seq A B).unnamed = Span.seq A.unnamed B.unnamed := by
  funext taken rest
  refine propext ⟨?_, ?_⟩
  · rintro ⟨_, u, v, r, s, eq, hu, hv, -⟩
    exact ⟨u, v, eq, ⟨r, hu⟩, s, hv⟩
  · rintro ⟨u, v, eq, ⟨r, hu⟩, s, hv⟩
    exact ⟨_, u, v, r, s, eq, hu, hv, rfl⟩

theorem unnamed_times (A : NamedSpan α) (k : Nat) : (times A k).unnamed = Span.times A.unnamed k := by
  induction k with
  | zero => exact unnamed_nothing
  | succ k ih => rw [times, unnamed_seq, ih, Span.times]

theorem unnamed_one (fits : Tree α → Bindings α → Prop) :
    (one fits).unnamed = Span.one fun t => ∃ names, fits t names := by
  funext taken rest
  exact propext ⟨fun ⟨r, t, eq, h⟩ => ⟨t, eq, r, h⟩, fun ⟨t, eq, r, h⟩ => ⟨r, t, eq, h⟩⟩

end NamedSpan

/-! ## What patterns take -/

namespace Pattern

open Matches
open Tree (NarrowAll)

section

open Span

mutual
def Takes : Pattern → Span α
  | leaf k v _ => one fun t => leafFits k v t = true
  | tree k _ => one fun t => kindFits k t = true
  | within k ps _ => one fun t => kindFits k t = true ∧
      (ps.any isWild = true ∨ ∀ p ∈ ps, p.isNegated = false) ∧ TakesAll ps t.children []
  | anything min max _ => fun taken _ => min ≤ taken.length ∧ taken.length ≤ max
  | choice os min max _ => between (TakesAny os) min max
  | finish _ => fun taken rest => taken = [] ∧ rest = []
  | without p _ => absent (Takes p)

def TakesAll : List Pattern → Span α
  | [] => nothing
  | p :: ps => seq (Takes p) (TakesAll ps)

def TakesAny : List (List Pattern) → Span α
  | [] => fun _ _ => False
  | o :: os => fun taken rest => TakesAll o taken rest ∨ TakesAny os taken rest
end

mutual
/-- No wild pattern is greedy, bounds are in order, and turns that may be repeated take something. -/
def Steady (α : Type) : Pattern → Prop
  | within _ ps _ => SteadyAll α ps
  | choice os min max n => n ≠ some greedyName ∧ SteadyAny α os ∧ min ≤ max ∧
      (max ≤ 1 ∨ ∀ rest : List (Tree α), NarrowAll rest → ¬ TakesAny os [] rest)
  | anything min max _ => min ≤ max
  | without p _ => Steady α p
  | leaf _ _ _ | tree _ _ | finish _ => True

def SteadyAll (α : Type) : List Pattern → Prop
  | [] => True
  | p :: ps => Steady α p ∧ SteadyAll α ps

def SteadyAny (α : Type) : List (List Pattern) → Prop
  | [] => True
  | o :: os => SteadyAll α o ∧ SteadyAny α os
end

theorem takesAll_singleton (p : Pattern) : TakesAll [p] = (Takes p : Span α) := by
  rw [TakesAll, TakesAll, seq_nothing]

end

open NamedSpan

mutual
def Splits : Pattern → NamedSpan α
  | leaf k v n => one fun t names => leafFits k v t = true ∧ names = Bindings.bind n (.one t) []
  | tree k n => one fun t names => kindFits k t = true ∧ names = Bindings.bind n (.one t) []
  | within k ps n => one fun t names => kindFits k t = true ∧
      (ps.any isWild = true ∨ ∀ p ∈ ps, p.isNegated = false) ∧
      ∃ inner, SplitsAll ps t.children [] inner ∧ names = Bindings.bind n (.one t) inner
  | anything min max n => fun taken _ names =>
      min ≤ taken.length ∧ taken.length ≤ max ∧ names = Bindings.bind n (.many taken) []
  | choice os min max n => fun taken rest names => ∃ k inner, min ≤ k ∧ k ≤ max ∧
      times (SplitsAny os) k taken rest inner ∧ names = Bindings.bind n (.many taken) inner
  | finish _ => fun taken rest names => taken = [] ∧ rest = [] ∧ names = []
  | without p _ => fun taken rest names => taken = [] ∧ names = [] ∧
      ∀ u v r, rest = u ++ v → ¬ Splits p u v r

def SplitsAll : List Pattern → NamedSpan α
  | [] => nothing
  | p :: ps => seq (Splits p) (SplitsAll ps)

def SplitsAny : List (List Pattern) → NamedSpan α
  | [] => fun _ _ _ => False
  | o :: os => fun taken rest names => SplitsAll o taken rest names ∨ SplitsAny os taken rest names
end

theorem splitsAll_singleton (p : Pattern) : SplitsAll [p] = (Splits p : NamedSpan α) := by
  rw [SplitsAll, SplitsAll, seq_nothing]

mutual
theorem unnamed_splits (p : Pattern) : (Splits p).unnamed = (Takes p : Span α) := by
  cases p with
  | leaf k v n | tree k n =>
    rw [Splits, Takes, unnamed_one]
    simp
  | within k ps n =>
    rw [Splits, Takes, unnamed_one, ← unnamed_splitsAll ps]
    congr 1
    funext t
    refine propext ⟨?_, ?_⟩
    · rintro ⟨_, fit, form, inner, h, -⟩
      exact ⟨fit, form, inner, h⟩
    · rintro ⟨fit, form, inner, h⟩
      exact ⟨_, fit, form, inner, h, rfl⟩
  | anything min max n =>
    funext taken rest
    exact propext ⟨fun ⟨_, low, high, _⟩ => ⟨low, high⟩, fun ⟨low, high⟩ => ⟨_, low, high, rfl⟩⟩
  | choice os min max n =>
    rw [Takes, ← unnamed_splitsAny os]
    funext taken rest
    refine propext ⟨?_, ?_⟩
    · rintro ⟨_, k, inner, low, high, h, -⟩
      exact ⟨k, low, high, unnamed_times _ k ▸ ⟨inner, h⟩⟩
    · rintro ⟨k, low, high, h⟩
      rw [← unnamed_times] at h
      obtain ⟨inner, h⟩ := h
      exact ⟨_, k, inner, low, high, h, rfl⟩
  | finish n =>
    funext taken rest
    exact propext ⟨fun ⟨_, empty, last, _⟩ => ⟨empty, last⟩, fun ⟨empty, last⟩ => ⟨[], empty, last, rfl⟩⟩
  | without p n =>
    rw [Takes, ← unnamed_splits p]
    funext taken rest
    refine propext ⟨?_, ?_⟩
    · rintro ⟨_, empty, -, none⟩
      exact ⟨empty, fun u v eq ⟨r, h⟩ => none u v r eq h⟩
    · rintro ⟨empty, none⟩
      exact ⟨[], empty, rfl, fun u v r eq h => none u v eq ⟨r, h⟩⟩

theorem unnamed_splitsAll (ps : List Pattern) : (SplitsAll ps).unnamed = (TakesAll ps : Span α) := by
  cases ps with
  | nil => rw [SplitsAll, TakesAll, unnamed_nothing]
  | cons p ps => rw [SplitsAll, TakesAll, unnamed_seq, unnamed_splits p, unnamed_splitsAll ps]

theorem unnamed_splitsAny (os : List (List Pattern)) :
    (SplitsAny os).unnamed = (TakesAny os : Span α) := by
  cases os with
  | nil =>
    funext taken rest
    exact propext ⟨fun ⟨_, h⟩ => h, False.elim⟩
  | cons o os =>
    rw [TakesAny, ← unnamed_splitsAll o, ← unnamed_splitsAny os]
    funext taken rest
    exact propext exists_or
end

/-! ## Patterns whose search ends -/

/-- Sequences of siblings that can come up in a search: rests of a sequence, children and single trees
of it. -/
structure Scope (D : List (Tree α) → Prop) : Prop where
  drop : ∀ ts n, D ts → D (ts.drop n)
  children : ∀ ts t, D ts → t ∈ ts → D t.children
  single : ∀ ts t, D ts → t ∈ ts → D [t]

theorem scope_true : Scope fun _ : List (Tree α) => True :=
  ⟨fun _ _ _ => trivial, fun _ _ _ _ => trivial, fun _ _ _ _ => trivial⟩

theorem scope_narrow : Scope (NarrowAll (α := α)) where
  drop ts n h := h.mono (drop_sublist n ts)
  children _ t h mem := (h.2 t mem).children
  single _ t h mem := (h.2 t mem).singleton

mutual
/-- No wild pattern is greedy, bounds are in order, and turns can only take nothing, before siblings in
scope, where they are not repeated beyond patience. -/
def Settled (D : List (Tree α) → Prop) : Pattern → Prop
  | within _ ps _ => SettledAll D ps
  | choice os min max n => n ≠ some greedyName ∧ SettledAny D os ∧ min ≤ max ∧
      (max ≤ patience ∨ ∀ rest, D rest → ∀ names, ¬ SplitsAny os [] rest names)
  | without p _ => Settled D p
  | leaf _ _ _ | tree _ _ | anything _ _ _ | finish _ => True

def SettledAll (D : List (Tree α) → Prop) : List Pattern → Prop
  | [] => True
  | p :: ps => Settled D p ∧ SettledAll D ps

def SettledAny (D : List (Tree α) → Prop) : List (List Pattern) → Prop
  | [] => True
  | o :: os => SettledAll D o ∧ SettledAny D os
end

mutual
theorem Steady.settled {p : Pattern} (h : Steady α p) : Settled (NarrowAll (α := α)) p := by
  cases p with
  | leaf | tree | anything | finish => trivial
  | within k ps n =>
    have below : SteadyAll α ps := h
    exact below.settled
  | without p n => exact Steady.settled (p := p) h
  | choice os min max n =>
    obtain ⟨greedy, options, order, repeats⟩ := h
    refine ⟨greedy, options.settled, order, repeats.imp (fun once => ?_) fun never rest narrow r h => ?_⟩
    · exact Nat.le_trans once (by decide)
    · exact never rest narrow (unnamed_splitsAny os ▸ ⟨r, h⟩)

theorem SteadyAll.settled {ps : List Pattern} (h : SteadyAll α ps) :
    SettledAll (NarrowAll (α := α)) ps := by
  cases ps with
  | nil => trivial
  | cons p ps => exact ⟨h.1.settled, h.2.settled⟩

theorem SteadyAny.settled {os : List (List Pattern)} (h : SteadyAny α os) :
    SettledAny (NarrowAll (α := α)) os := by
  cases os with
  | nil => trivial
  | cons o os => exact ⟨h.1.settled, h.2.settled⟩
end

/-! ## Single trees -/

variable {D : List (Tree α) → Prop}

theorem firstTree_finds (fits : Tree α → Bool) (n : Option Text) (ts : List (Tree α)) :
    Finds (firstTree fits n ts)
      ((one fun t names => fits t = true ∧ names = Bindings.bind n (.one t) []).At ts) := by
  cases ts with
  | nil => exact finds_done fun c r => not_at_one_nil
  | cons t ts =>
    rw [firstTree]
    split
    · rename_i fit
      exact finds_only (at_one.2 ⟨rfl, t, ts, rfl, fit, rfl⟩) fun c r h => (at_one.1 h).1
    · rename_i unfit
      refine finds_done fun c r h => ?_
      obtain ⟨-, _, _, eq, fit, -⟩ := at_one.1 h
      cases eq
      exact unfit fit

theorem takeFrom_finds (n : Option Text) (ts : List (Tree α)) (count extra : Nat) :
    Finds (takeFrom n ts count extra) fun c names => count ≤ c ∧ c ≤ count + extra ∧
      names = Bindings.bind n (.many (ts.take c)) [] := by
  induction extra generalizing count with
  | zero => exact finds_only ⟨Nat.le_refl _, Nat.le_refl _, rfl⟩ fun c r h => by omega
  | succ extra ih =>
    have first : Finds (only count (.bind n (.many (ts.take count)) []))
        fun c names => c = count ∧ names = .bind n (.many (ts.take c)) [] :=
      finds_only ⟨rfl, rfl⟩ fun c r h => h.1
    refine (@Lists.append _ _ _ _ _ _ _ (fun _ => _) first (ih (count + 1))).finds.congr .rfl fun c names => ?_
    rw [← and_assoc, ← and_assoc, ← or_and_right]
    exact and_congr_left' (by omega)

/-! ## Turns -/

/-- What turns take after `count` turns. -/
def turnsFrom (A : NamedSpan α) (min max count : Nat) : NamedSpan α := fun taken rest names =>
  ∃ k, min ≤ count + k ∧ count + k ≤ max ∧ times A k taken rest names

variable {A : NamedSpan α} {count max min : Nat} {calm : List (Tree α) → Prop} {ts : List (Tree α)}

variable {names : Bindings α}

/-- Either there are enough turns, or there is one more. -/
theorem turnsFrom_iff (start : count ≤ max) {taken rest : List (Tree α)} :
    turnsFrom A min max count taken rest names ↔ (min ≤ count ∧ nothing taken rest names) ∨
      (count < max ∧ seq A (turnsFrom A min max (count + 1)) taken rest names) := by
  constructor
  · rintro ⟨k, low, high, h⟩
    cases k with
    | zero => exact .inl ⟨low, h⟩
    | succ k =>
      obtain ⟨u, v, r, s, eq, hu, hv, merged⟩ := h
      exact .inr ⟨by omega, u, v, r, s, eq, hu, ⟨k, by omega, by omega, hv⟩, merged⟩
  · rintro (⟨low, h⟩ | ⟨high, u, v, r, s, eq, hu, ⟨k, low, _, hv⟩, merged⟩)
    · exact ⟨0, low, start, h⟩
    · exact ⟨k + 1, by omega, by omega, u, v, r, s, eq, hu, hv, merged⟩

/-- Turns are not repeated beyond patience, or each of them takes something; and there is fuel for
them. -/
def Bounded (D : List (Tree α) → Prop) (A : NamedSpan α) (max count fuel : Nat) (ts : List (Tree α)) :
    Prop :=
  max ≤ patience ∧ max < fuel + count ∨
    (∀ rest, D rest → ∀ names, ¬ A [] rest names) ∧ ts.length < fuel

theorem canIdle_of_le (order : min ≤ max) (patient : max ≤ patience) :
    canIdle min max count = false := by
  unfold canIdle
  split <;> exact decide_eq_false (by omega)

/-- After fewer than `k` turns, what comes next is calm. -/
def CalmFor (calm : List (Tree α) → Prop) (A : NamedSpan α) (k : Nat) (ts : List (Tree α)) : Prop :=
  ∀ j < k, ∀ c r, (times A j).At ts c r → calm (ts.drop c)

theorem calmFor_succ {k : Nat} :
    CalmFor calm A (k + 1) ts ↔ calm ts ∧ ∀ c r, A.At ts c r → CalmFor calm A k (ts.drop c) := by
  constructor
  · intro all
    refine ⟨all 0 (Nat.succ_pos k) 0 [] (at_zero.2 ⟨rfl, rfl⟩), fun c r taken j less d s others => ?_⟩
    rw [drop_drop]
    exact all (j + 1) (Nat.succ_lt_succ less) _ _ (at_seq.2 ⟨c, r, taken, d, s, others, rfl, rfl⟩)
  · rintro ⟨first, later⟩ j less c r taken
    cases j with
    | zero =>
      obtain ⟨_, v, rfl, rfl, rfl, -⟩ := taken
      exact first
    | succ j =>
      obtain ⟨d, s, turned, e, s', others, rfl, -⟩ := at_seq.1 taken
      rw [← drop_drop]
      exact later d s turned j (Nat.lt_of_succ_lt_succ less) e s' others

theorem turns_lists {E : Bindings α → Bindings α → Prop} (merging : Merging E) (scope : Scope D)
    {turn : List (Tree α) → Matches α} (hturn : ∀ ts, D ts → Lists E (turn ts) (calm ts) (A.At ts))
    (order : min ≤ max) {fuel : Nat} (inside : D ts) (start : count ≤ max)
    (bounded : Bounded D A max count fuel ts) :
    Lists E (turns turn min max fuel count ts) (CalmFor calm A (max - count) ts)
      ((turnsFrom A min max count).At ts) := by
  induction fuel generalizing count ts with
  | zero => rcases bounded with ⟨-, less⟩ | ⟨-, less⟩ <;> omega
  | succ fuel ih =>
    have stop : Lists E (if min ≤ count then only 0 [] else done : Matches α) True
        fun n names => min ≤ count ∧ nothing.At ts n names := by
      split
      · rename_i low
        refine lists_only ⟨low, at_zero.2 ⟨rfl, rfl⟩⟩ ?_
        rintro c r ⟨-, u, v, rfl, rfl, rfl, rfl⟩
        exact ⟨rfl, merging.refl []⟩
      · rename_i low
        exact lists_done fun c r h => low h.1
    have more : count < max → Lists E ((turn ts).bind fun c r =>
        if c = 0 ∧ canIdle min max count then .endless
        else (turns turn min max fuel (count + 1) (ts.drop c)).after c r) (CalmFor calm A (max - count) ts)
        ((seq A (turnsFrom A min max (count + 1))).At ts) := by
      intro less
      -- a turn that takes nothing is not followed by others beyond patience
      have noIdle : ∀ c r, A.At ts c r → ¬ (c = 0 ∧ canIdle min max count = true) := by
        rintro c r taken ⟨rfl, idle⟩
        rcases bounded with ⟨patient, -⟩ | ⟨never, -⟩
        · rw [canIdle_of_le order patient] at idle
          cases idle
        · exact never ts inside r (at_zero.1 taken)
      rw [show max - count = max - (count + 1) + 1 by omega, calmFor_succ]
      refine ((hturn ts inside).bind merging (fun c r taken => if_neg (noIdle c r taken)) ?_).congr
        .rfl fun n names => at_seq.symm
      intro c r taken
      have within := (at_iff.1 taken).1
      refine ih (scope.drop ts c inside) less ?_
      rcases bounded with ⟨patient, fuel⟩ | ⟨never, fuel⟩
      · exact .inl ⟨patient, by omega⟩
      · refine .inr ⟨never, ?_⟩
        have some : c ≠ 0 := by
          rintro rfl
          exact never ts inside r (at_zero.1 taken)
        rw [length_drop]
        omega
    have next : Lists E (if count < max then (turn ts).bind fun c r =>
        if c = 0 ∧ canIdle min max count then .endless
        else (turns turn min max fuel (count + 1) (ts.drop c)).after c r else done)
        (CalmFor calm A (max - count) ts)
        fun n names => count < max ∧ (seq A (turnsFrom A min max (count + 1))).At ts n names := by
      split
      · rename_i less
        exact (more less).congr .rfl fun n names => (and_iff_right less).symm
      · rename_i less
        refine (lists_done fun n names h => less h.1).congr (iff_of_true trivial ?_) fun _ _ => .rfl
        rw [Nat.sub_eq_zero_of_le (Nat.le_of_not_lt less)]
        nofun
    refine (stop.append next).congr (and_iff_right trivial) fun n names => ?_
    rw [at_iff, at_iff, at_iff, turnsFrom_iff start, and_or_left]
    exact or_congr and_left_comm and_left_comm

theorem addTurn_eq (turn : List (Tree α) → Matches α) (max : Nat) (ts : List (Tree α))
    (ways : List (Nat × Bindings α)) : addTurn turn max ts ways = (ofWays ways).bind fun c r =>
      (if c < ts.length ∧ c ≤ max then (turn (ts.drop c)).nonempty else .done).after c r := by
  induction ways with
  | nil => rfl
  | cons w ways ih =>
    rw [addTurn, ih, ofWays, Matches.bind]
    split <;> rfl

section All

/- What holds of no turns, and of a turn and others after it if it holds of these, holds of every way
to take turns, however they are found. -/
variable {P : List (Tree α) → Nat → Bindings α → Prop} (none : ∀ ts, P ts 0 [])
  (more : ∀ ts c d r s, P ts c r → P (ts.drop c) d s → P ts (c + d) (OrderedMap.update r s))
  {turn : List (Tree α) → Matches α} (hturn : ∀ ts, (turn ts).All (P ts))

include none more hturn

theorem turns_all (min max fuel count : Nat) (ts : List (Tree α)) :
    (turns turn min max fuel count ts).All (P ts) := by
  induction fuel generalizing count ts with
  | zero => exact all_done
  | succ fuel ih =>
    refine .append ?_ ?_
    · split
      · exact all_only (none ts)
      · exact all_done
    · split
      · refine (hturn ts).bind fun c r hc => ?_
        split
        · exact all_endless
        · exact (ih (count + 1) (ts.drop c)).map fun d s hd => more ts c d r s hc hd
      · exact all_done

omit none in
theorem addTurn_all (max : Nat) (ts : List (Tree α)) (ways : List (Nat × Bindings α))
    (before : ∀ c r, (c, r) ∈ ways → P ts c r) : (addTurn turn max ts ways).All (P ts) := by
  have before : (ofWays ways).All (P ts) := fun c r hc => before c r (ways_ofWays ways ▸ hc)
  rw [addTurn_eq]
  refine before.bind fun c r hc => All.map ?_ fun d s hd => more ts c d r s hc hd
  split
  · exact (hturn (ts.drop c)).nonempty
  · exact all_done

omit none in
theorem moreTurns_all (max fuel : Nat) (ts : List (Tree α)) (ways : List (Nat × Bindings α))
    (before : ∀ c r, (c, r) ∈ ways → P ts c r) : (moreTurns turn max ts fuel ways).All (P ts) := by
  induction fuel generalizing ways with
  | zero => exact all_done
  | succ fuel ih =>
    cases ways with
    | nil => exact all_done
    | cons w ways => exact (addTurn_all more hturn max ts _ before).collecting nofun ih

theorem gradualTurns_all (min max : Nat) (ts : List (Tree α)) :
    (gradualTurns turn min max ts).All (P ts) := by
  refine .append ?_ ((hturn ts).collecting nofun (moreTurns_all more hturn max _ ts))
  split
  · exact all_only (none ts)
  · exact all_done

end All

/-! ## Ways -/

theorem finds_ofVerdict {v : Verdict α} {P : Bindings α → Prop} (h : v.Reports P) (n : Option Text)
    (t : Tree α) : Finds (ofVerdict 1 (nameTree n t v)) fun c names =>
      c = 1 ∧ ∃ inner, P inner ∧ names = Bindings.bind n (.one t) inner := by
  cases v with
  | no => exact finds_done fun c r ⟨_, inner, hr, _⟩ => h.2 rfl inner hr
  | yes r => exact finds_only ⟨rfl, r, h.1 r rfl, rfl⟩ fun c r h => h.1
  | fail => exact finds_fail _

variable {p : Pattern}

theorem exists_splits_eq_one (wild : p.isWild = false) (negated : p.isNegated = false) :
    ∃ fits : Tree α → Bindings α → Prop, Splits p = one fits := by
  cases p with
  | leaf | tree | within => exact ⟨_, by rw [Splits]⟩
  | anything | choice => cases wild
  | finish | without => cases negated

theorem length_eq_of_splitsAll {ps : List Pattern} (wild : ∀ p ∈ ps, p.isWild = false)
    (negated : ∀ p ∈ ps, p.isNegated = false) {taken rest : List (Tree α)}
    (h : SplitsAll ps taken rest names) : ps.length = taken.length := by
  induction ps generalizing taken names with
  | nil =>
    rw [h.1]
    rfl
  | cons p ps ih =>
    obtain ⟨wild, wilds⟩ := forall_mem_cons.1 wild
    obtain ⟨negated, negateds⟩ := forall_mem_cons.1 negated
    obtain ⟨_, eq⟩ := @exists_splits_eq_one α p wild negated
    rw [SplitsAll, eq] at h
    obtain ⟨_, v, _, _, rfl, ⟨t, rfl, -⟩, later, -⟩ := h
    rw [length_cons, ih wilds negateds later]
    rfl

theorem splitsAll_cons_iff {ps : List Pattern} {t : Tree α} (wild : p.isWild = false)
    (negated : p.isNegated = false) :
    (∀ q ∈ p :: ps, q.isNegated = false) ∧ SplitsAll (p :: ps) (t :: ts) [] names ↔
      ∃ r s, (Splits p).At [t] 1 r ∧ ((∀ q ∈ ps, q.isNegated = false) ∧ SplitsAll ps ts [] s) ∧
        names = OrderedMap.update r s := by
  obtain ⟨_, eq⟩ := @exists_splits_eq_one α p wild negated
  rw [forall_mem_cons, and_iff_right negated, SplitsAll, eq]
  simp only [at_one, true_and]
  constructor
  · rintro ⟨negateds, _, v, r, s, split, ⟨t', rfl, fit⟩, h, merged⟩
    cases split
    exact ⟨r, s, ⟨t, [], rfl, fit⟩, ⟨negateds, h⟩, merged⟩
  · rintro ⟨r, s, ⟨_, _, split, fit⟩, ⟨negateds, h⟩, merged⟩
    cases split
    exact ⟨negateds, [t], ts, r, s, rfl, ⟨t, rfl, fit⟩, h, merged⟩

mutual
/-- **The ways of a pattern find what it splits off.** -/
theorem ways_finds (scope : Scope D) (p : Pattern) (settled : Settled D p) (ts : List (Tree α))
    (inside : D ts) : Finds (ways p ts) ((Splits p).At ts) := by
  cases p with
  | leaf k v n | tree k n =>
    exact firstTree_finds _ n ts
  | within k ps n =>
    rw [Splits]
    cases ts with
    | nil =>
      exact finds_done fun c r => not_at_one_nil
    | cons t ts =>
      have inner := scope.children _ t inside mem_cons_self
      rw [ways]
      split
      · rename_i fit
        have reports : Verdict.Reports (if ps.any isWild then
            (seqWays ps t.children).exactly t.children.length else eachTakesOne ps t.children)
            fun r => (ps.any isWild = true ∨ ∀ p ∈ ps, p.isNegated = false) ∧
              SplitsAll ps t.children [] r := by
          split
          · rename_i wild
            refine ((seqWays_finds scope ps settled t.children inner).exactly _).congr fun r => ?_
            rw [at_length, and_iff_right (.inl wild)]
          · rename_i wild
            have wilds : ∀ p ∈ ps, p.isWild = false := by simpa using wild
            refine (eachTakesOne_reports scope ps settled wilds t.children inner).congr fun r => ?_
            rw [or_iff_right wild]
        refine (finds_ofVerdict reports n t).congr .rfl fun c names => ?_
        rw [at_one]
        refine and_congr_right fun _ => ⟨?_, ?_⟩
        · rintro ⟨r, ⟨form, h⟩, bound⟩
          exact ⟨t, ts, rfl, fit, form, r, h, bound⟩
        · rintro ⟨_, _, eq, -, form, r, h, bound⟩
          cases eq
          exact ⟨r, ⟨form, h⟩, bound⟩
      · rename_i unfit
        refine finds_done fun c r h => ?_
        obtain ⟨-, _, _, eq, fit, -⟩ := at_one.1 h
        cases eq
        exact unfit fit
  | anything min max n =>
    rw [ways, Splits]
    have counts : ∀ c names, At (fun taken _ names => min ≤ taken.length ∧
        taken.length ≤ max ∧ names = .bind n (.many taken) []) ts c names ↔
        min ≤ c ∧ c ≤ .min ts.length max ∧ names = .bind n (.many (ts.take c)) [] := by
      intro c names
      rw [at_iff]
      constructor
      · rintro ⟨len, low, high, bound⟩
        rw [length_take_of_le len] at low high
        exact ⟨low, Nat.le_min.2 ⟨len, high⟩, bound⟩
      · rintro ⟨low, high, bound⟩
        obtain ⟨len, high⟩ := Nat.le_min.1 high
        rw [length_take_of_le len]
        exact ⟨len, low, high, bound⟩
    split
    · rename_i low
      refine (takeFrom_finds n ts min _).congr .rfl fun c names => ?_
      rw [counts, Nat.add_sub_cancel' low]
    · rename_i low
      exact finds_done fun c r h =>
        low (Nat.le_trans ((counts c r).1 h).1 ((counts c r).1 h).2.1)
  | choice os min max n =>
    obtain ⟨greedy, options, order, repeats⟩ := settled
    rw [ways, if_neg greedy]
    have found : Finds (turns (optionWays os) min max (turnBound min max ts.length) 0 ts)
        ((turnsFrom (SplitsAny os) min max 0).At ts) := by
      refine (turns_lists merging_true scope (optionWays_finds scope os options) order inside
        (Nat.zero_le _) ?_).finds
      refine repeats.imp (fun patient => ⟨patient, ?_⟩) fun never => ⟨never, ?_⟩
      · have enough : max ≤ .min max (min + 2 * patience) :=
          Nat.le_min.2 ⟨Nat.le_refl max, by omega⟩
        unfold turnBound
        omega
      · unfold turnBound
        omega
    refine (found.recover.map fun _ _ _ _ => ⟨rfl, trivial⟩).finds.congr .rfl fun c names => ?_
    simp only [at_iff, Prod.mk.injEq, turnsFrom, Nat.zero_add]
    constructor
    · rintro ⟨_, r, ⟨len, k, low, high, h⟩, rfl, bound⟩
      exact ⟨len, k, r, low, high, h, bound.symm⟩
    · rintro ⟨len, k, r, low, high, h, bound⟩
      exact ⟨c, r, ⟨len, k, low, high, h⟩, rfl, bound.symm⟩
  | finish n =>
    rw [ways]
    split
    · rename_i empty
      refine finds_only (at_zero.2 ⟨rfl, isEmpty_iff.1 empty, rfl⟩) ?_
      rintro c r ⟨_, v, eq, rfl, rfl, -⟩
      rfl
    · rename_i some
      refine finds_done ?_
      rintro c r ⟨_, _, rfl, -, rfl, rfl, -⟩
      exact some rfl
  | without p n =>
    have found := ways_finds scope p settled ts inside
    rw [ways]
    split
    · rename_i c r more eq
      rw [eq] at found
      refine finds_done ?_
      rintro _ _ ⟨_, v, rfl, -, rfl, -, none⟩
      obtain ⟨u, w, eq, -, h⟩ := found.sound c r mem_cons_self
      exact none u w r eq h
    · exact finds_fail _
    · rename_i notFound notFail
      refine finds_only (at_zero.2 ⟨rfl, rfl, fun u v r eq h => ?_⟩) ?_
      · cases search : ways p ts with
        | done =>
          rw [search] at found
          obtain ⟨r', -, hr⟩ := found.complete rfl u.length r ⟨u, v, eq, rfl, h⟩
          cases hr
        | endless =>
          rw [search] at found
          exact found.ends rfl
        | fail => exact notFail search
        | found c r more => exact notFound c r more search
      · rintro c r ⟨_, v, -, rfl, rfl, -⟩
        rfl

theorem seqWays_finds (scope : Scope D) (ps : List Pattern) (settled : SettledAll D ps)
    (ts : List (Tree α)) (inside : D ts) : Finds (seqWays ps ts) ((SplitsAll ps).At ts) := by
  cases ps with
  | nil =>
    refine finds_only (at_zero.2 ⟨rfl, rfl⟩) ?_
    rintro c r ⟨_, v, -, rfl, rfl, -⟩
    rfl
  | cons p ps =>
    obtain ⟨first, later⟩ := settled
    rw [seqWays]
    split
    · rename_i empty
      rw [isEmpty_iff.1 empty, splitsAll_singleton]
      exact ways_finds scope p first ts inside
    · exact ((ways_finds scope p first ts inside).bind merging_true (fun _ _ _ => rfl) fun c r _ =>
        seqWays_finds scope ps later (ts.drop c) (scope.drop ts c inside)).finds.congr .rfl
          fun n _ => at_seq.symm

theorem optionWays_finds (scope : Scope D) (os : List (List Pattern)) (settled : SettledAny D os)
    (ts : List (Tree α)) (inside : D ts) : Finds (optionWays os ts) ((SplitsAny os).At ts) := by
  cases os with
  | nil =>
    exact finds_done fun c r ⟨_, _, _, _, h⟩ => h
  | cons o os =>
    exact ((seqWays_finds scope o settled.1 ts inside).append
      (optionWays_finds scope os settled.2 ts inside)).finds.congr .rfl fun n _ => at_or.symm

theorem eachTakesOne_reports (scope : Scope D) (ps : List Pattern) (settled : SettledAll D ps)
    (wild : ∀ p ∈ ps, p.isWild = false) (ts : List (Tree α)) (inside : D ts) :
    Verdict.Reports (eachTakesOne ps ts)
      fun r => (∀ p ∈ ps, p.isNegated = false) ∧ SplitsAll ps ts [] r := by
  cases ps with
  | nil =>
    cases ts with
    | nil =>
      refine ⟨fun r hr => ⟨nofun, rfl, ?_⟩, nofun⟩
      cases hr
      rfl
    | cons t ts =>
      exact ⟨nofun, fun _ r h => absurd (@length_eq_of_splitsAll α _ [] nofun nofun _ _ h.2) nofun⟩
  | cons p ps =>
    obtain ⟨first, later⟩ := settled
    have lengths : ∀ (us : List (Tree α)) r, ((∀ q ∈ p :: ps, q.isNegated = false) ∧
        SplitsAll (p :: ps) us [] r) → ps.length + 1 = us.length := fun us r h =>
      length_eq_of_splitsAll wild h.1 h.2
    cases ts with
    | nil =>
      exact ⟨nofun, fun _ r h => absurd (lengths [] r h) nofun⟩
    | cons t ts =>
      rw [eachTakesOne]
      split
      · rename_i ne
        exact ⟨nofun, fun _ r h => ne (Nat.succ.inj (lengths _ r h))⟩
      · split
        · exact ⟨nofun, nofun⟩
        · rename_i positive
          obtain ⟨wild, wilds⟩ := forall_mem_cons.1 wild
          have negated := Bool.eq_false_iff.2 positive
          have tree := (ways_finds scope p first [t] (scope.single _ t inside mem_cons_self)).exactly 1
          have trees := eachTakesOne_reports scope ps later wilds ts (scope.drop (t :: ts) 1 inside)
          refine .congr ?_ fun r => (splitsAll_cons_iff wild negated).symm
          cases verdict : (ways p [t]).exactly 1 with
          | no => exact ⟨nofun, fun _ r ⟨r₁, _, h, _⟩ => tree.2 verdict r₁ h⟩
          | fail => exact ⟨nofun, nofun⟩
          | yes r =>
            have takes := tree.1 r verdict
            cases verdicts : eachTakesOne ps ts with
            | no => exact ⟨nofun, fun _ r ⟨_, s, _, h, _⟩ => trees.2 verdicts s h⟩
            | fail => exact ⟨nofun, nofun⟩
            | yes s =>
              refine ⟨fun _ hn => ⟨r, s, takes, trees.1 s verdicts, ?_⟩, nofun⟩
              cases hn
              rfl
end

/-- **A match that does not break off says whether the pattern takes the tree.** -/
theorem matchTree_tells (steady : Steady α p) {t : Tree α} (narrow : t.Narrow)
    (wanted : Bool) : (p.matchTree t wanted).Tells (Takes p [t] []) := by
  unfold matchTree
  split
  · rename_i negated
    cases wanted with
    | true => exact ⟨nofun, nofun⟩
    | false =>
      refine ⟨nofun, fun _ => ?_⟩
      cases p with
      | finish | without =>
        exact fun h => absurd h.1 nofun
      | _ => cases negated
  · have search := ways_finds scope_narrow p steady.settled [t] narrow.singleton
    refine (search.exactly 1).tells.congr ?_
    rw [← unnamed_splits p]
    exact exists_congr fun r => at_length

end Pattern

end Retouch
