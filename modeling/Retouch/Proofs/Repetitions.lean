import Mathlib.Logic.Function.Iterate
import Retouch.Proofs.SearchEnds
import Retouch.Proofs.PassedNames

/-!
# Two searches for repetitions

The turns of a wild pattern are found by depth, each turn before those after it (`Pattern.turns`), or
gradually, by adding turns to the ways found before (`Pattern.gradualTurns`).  Both find the same ways
where at most one turn is called for, each turn takes something and the trees do not outnumber the turns
allowed (`Pattern.gradualWays_sameWays`).  Elsewhere the gradual search does not keep to the bounds: it
counts trees and not turns, takes one turn where more are called for, and one turn more than allowed
(`Pattern.gradualWays_bounds`).
-/

namespace Retouch

open List OrderedMap

variable {α : Type}

/-! ## One span after the other -/

namespace NamedSpan

open Pattern (Once once_nil)

variable {A B C : NamedSpan α} {ts : List (Tree α)} {c k : Nat} {r : Bindings α}

def Single (A : NamedSpan α) : Prop := ∀ u v r, A u v r → Once r

theorem Single.times (h : Single A) (k : Nat) : Single (times A k) := by
  cases k with
  | zero =>
    rintro u v r ⟨-, rfl⟩
    exact once_nil
  | succ k =>
    rintro _ w _ ⟨u, v, r, s, -, hu, -, rfl⟩
    exact nodup_keys_update (h u _ r hu) s

theorem nothing_seq (h : Single A) : seq nothing A = A := by
  funext taken rest names
  refine propext ⟨?_, fun taken => ⟨[], _, [], names, rfl, ⟨rfl, rfl⟩, taken, ?_⟩⟩
  · rintro ⟨_, v, _, s, rfl, ⟨rfl, rfl⟩, taken, rfl⟩
    rwa [nil_update (h v rest s taken)]
  · exact (nil_update (h _ rest names taken)).symm

theorem seq_assoc (h : Single B) (A C : NamedSpan α) : seq (seq A B) C = seq A (seq B C) := by
  funext taken rest names
  refine propext ⟨?_, ?_⟩
  · rintro ⟨_, w, _, t, rfl, ⟨u, v, r, s, rfl, hu, hv, rfl⟩, hw, rfl⟩
    exact ⟨u, v ++ w, r, _, append_assoc u v w, by rwa [append_assoc],
      ⟨v, w, s, t, rfl, hv, hw, rfl⟩, update_update (h _ _ s hv) t⟩
  · rintro ⟨u, _, r, _, rfl, hu, ⟨v, w, s, t, rfl, hv, hw, rfl⟩, rfl⟩
    rw [append_assoc] at hu
    exact ⟨u ++ v, w, _, t, (append_assoc u v w).symm, ⟨u, v, r, s, rfl, hu, hv, rfl⟩, hw,
      (update_update (h _ _ s hv) t).symm⟩

theorem times_one (A : NamedSpan α) : times A 1 = A := seq_nothing A

theorem times_add (h : Single A) (j k : Nat) : times A (j + k) = seq (times A j) (times A k) := by
  induction j with
  | zero => rw [Nat.zero_add, times, nothing_seq (h.times k)]
  | succ j ih => rw [Nat.succ_add, times, ih, times, seq_assoc (h.times j)]

theorem at_times_succ (h : Single A) : (times A (k + 1)).At ts c r ↔ ∃ d s, (times A k).At ts d s ∧
    ∃ e s', A.At (ts.drop d) e s' ∧ c = d + e ∧ r = update s s' := by
  rw [times_add h, times_one, at_seq]

theorem le_of_at_times (taking : ∀ us s, ¬ A.At us 0 s) (h : (times A k).At ts c r) : k ≤ c := by
  induction k generalizing ts c r with
  | zero => exact Nat.zero_le c
  | succ k ih =>
    obtain ⟨d, s, taken, e, s', later, rfl, -⟩ := at_seq.1 h
    have some : d ≠ 0 := fun zero => taking ts s (zero ▸ taken)
    have := ih later
    omega

theorem at_turnsFrom_zero {min max : Nat} : (Pattern.turnsFrom A min max 0).At ts c r ↔
    ∃ k, min ≤ k ∧ k ≤ max ∧ (times A k).At ts c r := by
  constructor
  · rintro ⟨u, v, rfl, rfl, k, low, high, taken⟩
    rw [Nat.zero_add] at low high
    exact ⟨k, low, high, u, v, rfl, rfl, taken⟩
  · rintro ⟨k, low, high, u, v, rfl, rfl, taken⟩
    rw [← Nat.zero_add k] at low high
    exact ⟨u, v, rfl, rfl, k, low, high, taken⟩

end NamedSpan

namespace Matches

/-! ## Searches that find all -/

variable {m m' : Matches α} {calm calm' : Prop} {S T : Nat → Bindings α → Prop}

/-- Both searches end in the same manner, and if they do not break off they find the same ways. -/
def SameWays (m m' : Matches α) : Prop :=
  m.last = m'.last ∧ (m.last = .done → ∀ c r, (c, r) ∈ m.ways ↔ (c, r) ∈ m'.ways)

theorem Lists.mem_iff (h : Lists Eq m calm S) (done : m.last = .done) (c : Nat) (r : Bindings α) :
    (c, r) ∈ m.ways ↔ S c r := by
  refine ⟨h.sound c r, fun hs => ?_⟩
  obtain ⟨_, rfl, mem⟩ := h.complete done c r hs
  exact mem

theorem Lists.sameWays (h : Lists Eq m calm S) (h' : Lists Eq m' calm' S) (calms : calm ↔ calm') :
    m.SameWays m' := by
  have both : m.last = .done ↔ m'.last = .done := by rw [h.done_iff, h'.done_iff, calms]
  refine ⟨?_, fun first c r => by rw [h.mem_iff first, h'.mem_iff (both.1 first)]⟩
  have ends := h.ends
  have ends' := h'.ends
  cases last : m.last <;> cases last' : m'.last <;> simp_all

theorem lists_ofWays (ws : List (Nat × Bindings α)) : Lists Eq (ofWays ws) True fun c r => (c, r) ∈ ws := by
  refine ⟨fun c r mem => ways_ofWays ws ▸ mem, by rw [last_ofWays]; nofun,
    iff_of_true (last_ofWays ws) trivial, fun _ c r mem => ⟨r, rfl, ?_⟩⟩
  rwa [ways_ofWays]

theorem Lists.nonempty (h : Lists Eq m calm S) : Lists Eq m.nonempty calm fun c r => S c r ∧ c ≠ 0 := by
  refine ⟨fun c r mem => ?_, (last_nonempty m).symm ▸ h.ends, (last_nonempty m).symm ▸ h.done_iff, ?_⟩
  · rw [ways_nonempty, mem_filter] at mem
    exact ⟨h.sound c r mem.1, of_decide_eq_true mem.2⟩
  · rintro done c r ⟨hs, some⟩
    refine ⟨r, rfl, ?_⟩
    rw [ways_nonempty, mem_filter, h.mem_iff (last_nonempty m ▸ done)]
    exact ⟨hs, decide_eq_true some⟩

theorem Lists.collecting {next : List (Nat × Bindings α) → Matches α} (h : Lists Eq m calm S)
    (h' : ∀ ways, (∀ c r, (c, r) ∈ ways ↔ S c r) → Lists Eq (next ways) calm' T) :
    Lists Eq (m.collecting [] next) (calm ∧ calm') fun c r => S c r ∨ T c r := by
  rw [collecting_eq]
  exact h.append_of fun done => h' _ (h.mem_iff done)

end Matches

namespace Pattern

open Matches NamedSpan

/-! ## Turns -/

section

variable (os : List (List Pattern)) (min max : Nat) (ts : List (Tree α))

def turnSpan : NamedSpan α := fun u v r => (u.length, r) ∈ (optionWays os (u ++ v)).ways

def Calm : Prop := (optionWays os ts).last = .done

variable {os ts} in
theorem at_turnSpan {c : Nat} {r : Bindings α} :
    (turnSpan os).At ts c r ↔ (c, r) ∈ (optionWays os ts).ways := by
  rw [at_iff, turnSpan, take_append_drop]
  constructor
  · rintro ⟨le, mem⟩
    rwa [length_take_of_le le] at mem
  · intro mem
    have le := (optionWays_fits os ts c r mem).1
    rw [length_take_of_le le]
    exact ⟨le, mem⟩

theorem single_turnSpan : Single (turnSpan os : NamedSpan α) := fun _ _ r mem =>
  (optionWays_fits os _ _ r mem).2

theorem optionWays_lists : Lists Eq (optionWays os ts) (Calm os ts) ((turnSpan os).At ts) :=
  ⟨fun _ _ => at_turnSpan.2, optionWays_ends (E := (· ≠ .endless)) nofun (.inl nofun), .rfl,
    fun _ _ r taken => ⟨r, rfl, at_turnSpan.1 taken⟩⟩

theorem calm_nil : Calm os ([] : List (Tree α)) :=
  optionWays_ends (E := (· = .done)) rfl (.inr (.inr rfl))

theorem turns_sound (fuel : Nat) {count : Nat} (start : count ≤ max) :
    (turns (optionWays os) min max fuel count ts).All
      ((turnsFrom (turnSpan os) min max count).At ts) := by
  have split : ∀ {count : Nat} (us : List (Tree α)) (n : Nat) (names : Bindings α), count ≤ max →
      (min ≤ count ∧ nothing.At us n names ∨
        count < max ∧ (seq (turnSpan os) (turnsFrom (turnSpan os) min max (count + 1))).At us n names) →
      (turnsFrom (turnSpan os) min max count).At us n names := by
    rintro count us n names start (⟨low, u, v, eq, len, h⟩ | ⟨less, u, v, eq, len, h⟩)
    · exact ⟨u, v, eq, len, (turnsFrom_iff start).2 (.inl ⟨low, h⟩)⟩
    · exact ⟨u, v, eq, len, (turnsFrom_iff start).2 (.inr ⟨less, h⟩)⟩
  induction fuel generalizing count ts with
  | zero => exact all_done
  | succ fuel ih =>
    refine .append ?_ ?_
    · split
      · rename_i low
        exact all_only (split ts 0 [] start (.inl ⟨low, at_zero.2 ⟨rfl, rfl⟩⟩))
      · exact all_done
    · split
      · rename_i less
        refine .bind (P := (turnSpan os).At ts) (fun _ _ => at_turnSpan.2) fun c r turned => ?_
        split
        · exact all_endless
        · refine (ih (ts.drop c) less).map fun d s taken => split ts (c + d) _ start ?_
          exact .inr ⟨less, at_seq.2 ⟨c, r, turned, d, s, taken, rfl, rfl⟩⟩
      · exact all_done

end

/-! ## Gradual turns -/

section

variable (os : List (List Pattern)) {A : NamedSpan α} {max : Nat} {ts : List (Tree α)} {c k : Nat}
  {r : Bindings α}

/-- The ways with a turn more: one that takes something is added to ways that take at most `max`
trees. -/
def grow (A : NamedSpan α) (max : Nat) (ts : List (Tree α)) (S : Nat → Bindings α → Prop) (n : Nat)
    (names : Bindings α) : Prop :=
  ∃ c r, S c r ∧ ∃ d s, (c ≤ max ∧ A.At (ts.drop c) d s ∧ d ≠ 0) ∧ n = c + d ∧
    names = update r s

variable (max ts) in
theorem addTurn_lists (ways : List (Nat × Bindings α)) : Lists Eq (addTurn (optionWays os) max ts ways)
    (∀ c r, (c, r) ∈ ways → c < ts.length → c ≤ max → Calm os (ts.drop c))
    (grow (turnSpan os) max ts fun c r => (c, r) ∈ ways) := by
  rw [addTurn_eq]
  refine ((lists_ofWays ways).bind merging_eq (fun _ _ _ => rfl) fun c r _ => ?_).congr
    (and_iff_right trivial) fun _ _ => Iff.rfl
  split
  · rename_i room
    refine (optionWays_lists os (ts.drop c)).nonempty.congr ?_ fun d s => (and_iff_right room.2).symm
    exact ⟨fun calm _ _ => calm, fun calm => calm room.1 room.2⟩
  · rename_i room
    refine (lists_done ?_).congr (iff_of_true trivial fun less le => absurd ⟨less, le⟩ room)
      fun _ _ => Iff.rfl
    rintro d s ⟨le, taken, _⟩
    have inside := (at_iff.1 taken).1
    rw [length_drop] at inside
    exact room ⟨by omega, le⟩

variable {S : Nat → Bindings α → Prop}

theorem not_iterate_grow (none : ∀ c r, ¬ S c r) (k c : Nat) (r : Bindings α) :
    ¬ (grow A max ts)^[k] S c r := by
  induction k generalizing c r with
  | zero => exact none c r
  | succ k ih =>
    rw [Function.iterate_succ_apply']
    rintro ⟨c', r', grown, -⟩
    exact ih c' r' grown

/-- The search for a turn after the given ways and those with more turns does not break off. -/
def CalmFrom (os : List (List Pattern)) (max : Nat) (ts : List (Tree α)) (S : Nat → Bindings α → Prop) :
    Prop :=
  ∀ k c r, (grow (turnSpan os) max ts)^[k] S c r → c < ts.length → c ≤ max → Calm os (ts.drop c)

theorem lists_of_none (none : ∀ c r, ¬ S c r) :
    Lists Eq (done : Matches α) (CalmFrom os max ts S)
      fun c r => ∃ k, (grow (turnSpan os) max ts)^[k + 1] S c r := by
  refine (lists_done fun c r h => ?_).congr (iff_of_true trivial fun k c r h => ?_) fun _ _ => .rfl
  · exact h.elim fun k grown => not_iterate_grow none _ c r grown
  · exact absurd h (not_iterate_grow none k c r)

theorem moreTurns_lists {fuel : Nat} {ways : List (Nat × Bindings α)}
    (given : ∀ c r, (c, r) ∈ ways ↔ S c r)
    (inside : ∀ c r, S c r → c ≤ ts.length ∧ ts.length < fuel + c) :
    Lists Eq (moreTurns (optionWays os) max ts fuel ways) (CalmFrom os max ts S)
      fun c r => ∃ k, (grow (turnSpan os) max ts)^[k + 1] S c r := by
  induction fuel generalizing ways S with
  | zero =>
    refine lists_of_none os fun c r hs => ?_
    have := inside c r hs
    omega
  | succ fuel ih =>
    cases ways with
    | nil => exact lists_of_none os fun c r hs => nomatch (given c r).2 hs
    | cons w ways =>
      have added := addTurn_lists os max ts (w :: ways)
      simp only [given] at added
      rw [moreTurns]
      · refine (added.collecting fun ways given => ih given ?_).congr ?_ fun c r => ?_
        · rintro _ _ ⟨c, r, hs, d, s, ⟨-, taken, _⟩, rfl, -⟩
          have := inside c r hs
          have := (at_iff.1 taken).1
          rw [length_drop] at this
          omega
        · exact @Nat.and_forall_add_one fun k => ∀ c r, (grow (turnSpan os) max ts)^[k] S c r →
            c < ts.length → c ≤ max → Calm os (ts.drop c)
        · exact @Nat.or_exists_add_one fun k => (grow (turnSpan os) max ts)^[k + 1] S c r
      · nofun

theorem gradualTurns_lists (min max : Nat) (ts : List (Tree α)) :
    Lists Eq (gradualTurns (optionWays os) min max ts)
      (Calm os ts ∧ CalmFrom os max ts ((turnSpan os).At ts))
      fun c r => (min = 0 ∧ c = 0 ∧ r = []) ∨
        ∃ k, (grow (turnSpan os) max ts)^[k] ((turnSpan os).At ts) c r := by
  have stop : Lists Eq (if min = 0 then only 0 [] else done : Matches α) True
      fun c r => min = 0 ∧ c = 0 ∧ r = [] := by
    split
    · rename_i zero
      exact lists_only ⟨zero, rfl, rfl⟩ fun c r h => h.2
    · rename_i some
      exact lists_done fun c r h => some h.1
  have rest := (optionWays_lists os ts).collecting fun ways given =>
    @moreTurns_lists α os max ts _ (ts.length + 1) ways given fun c r taken =>
      ⟨(at_iff.1 taken).1, by omega⟩
  exact (stop.append rest).congr (and_iff_right trivial) fun c r => or_congr_right Nat.or_exists_add_one

/-! ## Gradual turns beside turns -/

theorem exists_times_of_grown (single : Single A) (h : (grow A max ts)^[k] (A.At ts) c r) :
    ∃ n names, (times A n).At ts c names ∧ 1 ≤ n ∧ (n = 1 ∨ n ≤ c) ∧ n ≤ max + 1 := by
  induction k generalizing c r with
  | zero => exact ⟨1, r, (times_one A).symm ▸ h, Nat.le_refl 1, .inl rfl, Nat.le_add_left 1 max⟩
  | succ k ih =>
    rw [Function.iterate_succ_apply'] at h
    obtain ⟨d, s, grown, e, s', ⟨le, taken, _⟩, rfl, -⟩ := h
    rcases Nat.eq_zero_or_pos d with rfl | _
    · refine ⟨1, s', ?_, Nat.le_refl 1, .inl rfl, Nat.le_add_left 1 max⟩
      rwa [times_one, Nat.zero_add]
    · obtain ⟨n, names, turned, -, _, -⟩ := ih grown
      exact ⟨n + 1, _, (at_times_succ single).2 ⟨d, names, turned, e, s', taken, rfl, rfl⟩, by omega,
        .inr (by omega), by omega⟩

theorem grown_iff (single : Single A) (taking : ∀ us s, ¬ A.At us 0 s) (short : ts.length ≤ max) :
    (grow A max ts)^[k] (A.At ts) c r ↔ (times A (k + 1)).At ts c r := by
  induction k generalizing c r with
  | zero => rw [times_one, Function.iterate_zero_apply]
  | succ k ih =>
    rw [Function.iterate_succ_apply', at_times_succ single]
    refine exists_congr fun d => exists_congr fun s => (and_congr_left' ih).trans ?_
    refine and_congr_right fun before => exists_congr fun e => exists_congr fun s' => ?_
    refine and_congr_left' ⟨fun grown => grown.2.1, fun taken => ⟨?_, taken, ?_⟩⟩
    · exact Nat.le_trans (at_iff.1 before).1 short
    · rintro rfl
      exact taking _ s' taken

end

/-- **Both searches for repetitions without bound find the same ways**, if each option takes
something. -/
theorem gradualWays_sameWays {os : List (List Pattern)}
    (taking : ∀ (us : List (Tree α)) names, (0, names) ∉ (optionWays os us).ways) {min : Nat}
    (low : min ≤ 1) (n : Option Text) {ts : List (Tree α)} (short : ts.length < unbounded) :
    ∃ m, gradualWays (choice os min unbounded n) ts = some m ∧ m.last ≠ .endless ∧
      m.SameWays (turns (fun us => optionWays os us) min unbounded
        (turnBound min unbounded ts.length) 0 ts) := by
  have order : min ≤ unbounded := Nat.le_trans low (by decide)
  have taking : ∀ us s, ¬ (turnSpan os : NamedSpan α).At us 0 s := fun us s taken =>
    taking us s (at_turnSpan.1 taken)
  have gradual := gradualTurns_lists os min unbounded ts
  have depth := turns_lists merging_eq scope_true (fun us _ => optionWays_lists os us) order trivial
    (Nat.zero_le unbounded) (.inr ⟨fun us _ s taken => taking us s (at_zero.2 taken),
      show ts.length < turnBound min unbounded ts.length by unfold turnBound; omega⟩)
  have same : ∀ c r, (turnsFrom (turnSpan os) min unbounded 0).At ts c r ↔
      (min = 0 ∧ c = 0 ∧ r = []) ∨
        ∃ k, (grow (turnSpan os) unbounded ts)^[k] ((turnSpan os).At ts) c r := by
    intro c r
    simp only [at_turnsFrom_zero, grown_iff (single_turnSpan os) taking (Nat.le_of_lt short)]
    constructor
    · rintro ⟨k, enough, -, taken⟩
      cases k with
      | zero =>
        obtain ⟨_, v, rfl, rfl, rfl, rfl⟩ := taken
        exact .inl ⟨Nat.le_zero.1 enough, rfl, rfl⟩
      | succ k => exact .inr ⟨k, taken⟩
    · rintro (⟨rfl, rfl, rfl⟩ | ⟨k, taken⟩)
      · exact ⟨0, Nat.le_refl 0, Nat.zero_le _, at_zero.2 ⟨rfl, rfl⟩⟩
      · have few := le_of_at_times taking taken
        have inside := (at_iff.1 taken).1
        exact ⟨k + 1, by omega, by omega, taken⟩
  refine ⟨_, rfl, gradual.ends, gradual.sameWays (depth.congr Iff.rfl same) ⟨?_, fun calm => ⟨?_, ?_⟩⟩⟩
  · rintro ⟨first, later⟩ k - c r taken
    have inside := (at_iff.1 taken).1
    rcases Nat.eq_or_lt_of_le inside with rfl | before
    · rw [drop_length]
      exact calm_nil os
    · cases k with
      | zero =>
        obtain ⟨_, v, rfl, rfl, rfl, -⟩ := taken
        exact first
      | succ k =>
        rw [← grown_iff (single_turnSpan os) taking (Nat.le_of_lt short)] at taken
        exact later k c r taken before (by omega)
  · exact calm 0 (by decide) 0 [] (at_zero.2 ⟨rfl, rfl⟩)
  · intro k c r grown before le
    rw [grown_iff (single_turnSpan os) taking (Nat.le_of_lt short)] at grown
    have few := le_of_at_times taking grown
    exact calm (k + 1) (by omega) c r grown

theorem optionWays_leaf_all (k : Option Kind) (v n : Option Text) (ts : List (Tree α)) :
    (optionWays [[leaf k v n]] ts).All fun c _ => c = 1 := by
  rw [optionWays, seqWays, if_pos isEmpty_nil, ways]
  cases ts with
  | nil => exact all_done
  | cons t ts =>
    rw [firstTree]
    split
    · exact all_only rfl
    · exact all_done

def nameLeaves (count : Nat) : List SyntaxTree :=
  List.replicate count (valueLeaf Kind.name "x")

theorem gradualWays_sameWays_names :
    let names : List (List Pattern) := [[leaf (some Kind.name) none (some "last")]]
    ∃ m, gradualWays (choice names 1 unbounded none) (nameLeaves 5) = some m ∧ m.last ≠ .endless ∧
      m.SameWays (turns (fun us => optionWays names us) 1 unbounded (turnBound 1 unbounded 5) 0
        (nameLeaves 5)) :=
  gradualWays_sameWays (fun us names mem => nomatch optionWays_leaf_all _ _ _ us 0 names mem)
    (Nat.le_refl 1) none (by decide)

/-- **The bounds that the gradual search keeps to.**  What it finds is made of one turn where any are
called for, and of one turn too many at most; not of too many if it takes no more trees than turns are
allowed.  The search by depth keeps to both bounds. -/
theorem gradualWays_bounds (os : List (List Pattern)) {min max : Nat} (order : min ≤ max)
    (n : Option Text) (ts : List (Tree α)) :
    ∃ m, gradualWays (choice os min max n) ts = some m ∧
      (∀ c r, (c, r) ∈ m.ways → ∃ k names, (times (turnSpan os) k).At ts c names ∧
        (1 ≤ min → 1 ≤ k) ∧ k ≤ max + 1 ∧ (c ≤ max → k ≤ max)) ∧
      (m.last = .done → ∀ c r, (c, r) ∈ m.ways ↔ (min = 0 ∧ c = 0 ∧ r = []) ∨
        ∃ k, (grow (turnSpan os) max ts)^[k] ((turnSpan os).At ts) c r) ∧
      ∀ c r, (c, r) ∈ (turns (optionWays os) min max (turnBound min max ts.length) 0 ts).ways →
        ∃ k, min ≤ k ∧ k ≤ max ∧ (times (turnSpan os) k).At ts c r := by
  have gradual := gradualTurns_lists os min max ts
  refine ⟨_, rfl, fun c r mem => ?_, gradual.mem_iff, fun c r mem => ?_⟩
  · have idle : (times (turnSpan os : NamedSpan α) 0).At ts 0 [] := at_zero.2 ⟨rfl, rfl⟩
    rcases gradual.sound c r mem with ⟨rfl, rfl, rfl⟩ | ⟨k, grown⟩
    · exact ⟨0, [], idle, id, Nat.zero_le _, fun _ => Nat.zero_le _⟩
    · obtain ⟨j, names, taken, some, few, most⟩ := exists_times_of_grown (single_turnSpan os) grown
      by_cases fits : c ≤ max → j ≤ max
      · exact ⟨j, names, taken, fun _ => some, most, fits⟩
      · -- a turn that takes nothing, where none is allowed
        obtain ⟨rfl, rfl⟩ : c = 0 ∧ min = 0 := by omega
        exact ⟨0, [], idle, id, Nat.zero_le _, fun _ => Nat.zero_le _⟩
  · exact at_turnsFrom_zero.1 (turns_sound os min max ts _ (Nat.zero_le max) c r mem)

theorem gradualWays_bounds_names :
    let names : List (List Pattern) := [[leaf (some Kind.name) none (some "last")]]
    ∃ m, gradualWays (choice names 1 2 none) (nameLeaves 3) = some m ∧ ∀ c r, (c, r) ∈ m.ways →
      ∃ k names', (times (turnSpan names) k).At (nameLeaves 3) c names' ∧ 1 ≤ k ∧ k ≤ 3 ∧
        (c ≤ 2 → k ≤ 2) := by
  intro names
  obtain ⟨m, eq, bounds, -⟩ := gradualWays_bounds names (show 1 ≤ 2 by decide) none (nameLeaves 3)
  refine ⟨m, eq, fun c r mem => ?_⟩
  obtain ⟨k, names, taken, low, high, exact⟩ := bounds c r mem
  exact ⟨k, names, taken, low (Nat.le_refl 1), high, exact⟩

theorem eq_of_times_leaf {k : Option Kind} {v n : Option Text} {j c : Nat} {ts : List (Tree α)}
    {r : Bindings α} (h : (times (turnSpan [[leaf k v n]]) j).At ts c r) : c = j := by
  induction j generalizing c ts r with
  | zero =>
    obtain ⟨_, v, -, rfl, rfl, -⟩ := h
    rfl
  | succ j ih =>
    obtain ⟨d, s, taken, e, s', later, rfl, -⟩ := at_seq.1 h
    rw [ih later, optionWays_leaf_all k v n ts d s (at_turnSpan.1 taken), Nat.add_comm]

/-- A single name is found where two or three are called for, and two names are found where there may
be one. -/
theorem gradualWays_out_of_bounds :
    let name : List (List Pattern) := [[leaf (some Kind.name) none none]]
    (∃ m, gradualWays (choice name 2 3 none) (nameLeaves 1) = some m ∧ (1, []) ∈ m.ways ∧
      ∀ k names, (times (turnSpan name) k).At (nameLeaves 1) 1 names → ¬ 2 ≤ k) ∧
    ∃ m, gradualWays (choice name 0 1 none) (nameLeaves 2) = some m ∧ (2, []) ∈ m.ways ∧
      ∀ k names, (times (turnSpan name) k).At (nameLeaves 2) 2 names → ¬ k ≤ 1 := by
  refine ⟨⟨_, rfl, .head _, fun k names taken low => ?_⟩, _, rfl, .tail _ (.tail _ (.head _)),
    fun k names taken high => ?_⟩
  · cases eq_of_times_leaf taken
    exact absurd low (by decide)
  · cases eq_of_times_leaf taken
    exact absurd high (by decide)

end Pattern

end Retouch
