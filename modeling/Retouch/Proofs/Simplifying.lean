import Retouch.Proofs.Determinising

/-!
# Unifying states keeps the words that are accepted

Two states are the same if they have the same finality and their arcs lead to the same states
(`DfaState.same_iff`).  Removing one of them and redirecting its arcs renames the states: every
state has a successor in the new automaton that accepts the same words (`Merged.acceptsFrom_iff`).
Each such step makes the automaton shorter, so going through the places again and again ends
(`unifyAll_spec`), and when it ends no two places have the same state.
-/

namespace Retouch.Grammar

open List OrderedMap

/-! ## States that are the same -/

theorem get?_arcs_eq_of_subset {a b : OrderedMap Label Nat} (ha : (OrderedMap.keys a).Nodup)
    (length : a.length = b.length)
    (sub : ∀ arc ∈ a, get? b arc.1 = some arc.2) (l : Label) :
    get? a l = get? b l := by
  have keys : OrderedMap.keys a ⊆ OrderedMap.keys b := by
    intro k hk
    obtain ⟨arc, harc, rfl⟩ := mem_map.1 hk
    exact mem_map.2 ⟨arc, mem_of_get? (sub arc harc), rfl⟩
  -- A list of keys without repetitions inside one of the same length is all of it.
  have perm : (OrderedMap.keys a).Perm (OrderedMap.keys b) := by
    refine (subperm_of_subset ha keys).perm_of_length_le ?_
    simp [OrderedMap.keys, length]
  cases found : get? a l with
  | some t => exact (sub _ (mem_of_get? found)).symm
  | none =>
    cases found' : get? b l with
    | none => rfl
    | some t =>
      have hl := perm.mem_iff.2 (mem_map.2 ⟨_, mem_of_get? found', rfl⟩)
      obtain ⟨arc, harc, rfl⟩ := mem_map.1 hl
      rw [get?_of_mem ha harc] at found
      cases found

/-- Two states are the same if they agree on being final and on where each label leads. -/
theorem DfaState.same_iff {a b : DfaState} (ha : (OrderedMap.keys a.arcs).Nodup)
    (hb : (OrderedMap.keys b.arcs).Nodup) :
    a.same b = true ↔
      a.final = b.final ∧ ∀ l, get? a.arcs l = get? b.arcs l := by
  rw [same, Bool.and_eq_true, Bool.and_eq_true, beq_iff_eq, beq_iff_eq, all_eq_true]
  constructor
  · rintro ⟨⟨final, length⟩, sub⟩
    exact ⟨final, get?_arcs_eq_of_subset ha length fun arc harc => beq_iff_eq.1 (sub arc harc)⟩
  · rintro ⟨final, arcs⟩
    have length : ∀ {a b : OrderedMap Label Nat}, (OrderedMap.keys a).Nodup →
        (∀ l, get? a l = get? b l) → a.length ≤ b.length := by
      intro a b ha agree
      have sub : OrderedMap.keys a ⊆ OrderedMap.keys b := by
        intro k hk
        obtain ⟨arc, harc, rfl⟩ := mem_map.1 hk
        have found := (agree arc.1).symm.trans (get?_of_mem ha harc)
        exact mem_map.2 ⟨arc, mem_of_get? found, rfl⟩
      simpa [OrderedMap.keys] using (subperm_of_subset ha sub).length_le
    refine ⟨⟨final, ?_⟩, fun arc harc => ?_⟩
    · exact le_antisymm (length ha arcs) (length hb fun l => (arcs l).symm)
    · rw [← arcs, get?_of_mem ha harc]
      exact beq_self_eq_true _

namespace Dfa

variable {d d' : Dfa} {i j : Nat} {e e' : Nat × DfaState}

theorem WellFormed.state?_iff (h : d.WellFormed) {k : Nat} {s : DfaState} :
    d.state? k = some s ↔ (k, s) ∈ d :=
  ⟨mem_of_get?, get?_of_mem h.numbers⟩

theorem WellFormed.eq_of_number (h : d.WellFormed) (hi : d[i]? = some e) (hj : d[j]? = some e')
    (number : e.1 = e'.1) : i = j := by
  have hi' : (OrderedMap.keys d)[i]? = some e.1 := by
    rw [OrderedMap.keys, getElem?_map, hi, Option.map_some]
  have hj' : (OrderedMap.keys d)[j]? = some e.1 := by
    rw [OrderedMap.keys, getElem?_map, hj, Option.map_some, number]
  have lt := (List.getElem?_eq_some_iff.1 hi').1
  exact getElem?_inj lt h.numbers |>.1 (hi'.trans hj'.symm)

theorem WellFormed.same_iff (h : d.WellFormed) (he : e ∈ d) (he' : e' ∈ d) :
    e.2.same e'.2 = true ↔ e.2.final = e'.2.final ∧
      ∀ l, get? e.2.arcs l = get? e'.2.arcs l :=
  DfaState.same_iff (h.labels e he) (h.labels e' he')

theorem WellFormed.same_comm (h : d.WellFormed) (he : e ∈ d) (he' : e' ∈ d) :
    e.2.same e'.2 = true ↔ e'.2.same e.2 = true := by
  rw [h.same_iff he he', h.same_iff he' he]
  exact ⟨fun ⟨final, arcs⟩ => ⟨final.symm, fun l => (arcs l).symm⟩,
    fun ⟨final, arcs⟩ => ⟨final.symm, fun l => (arcs l).symm⟩⟩

end Dfa

/-! ## Removing one state -/

/-- The automaton `d'` is `d` without the state at a later place `j`, whose arcs now lead to the
same state at place `i`. -/
structure Merged (d : Dfa) (i j : Nat) (kept removed : Nat × DfaState) (d' : Dfa) : Prop where
  lt : i < j
  atKept : d[i]? = some kept
  atRemoved : d[j]? = some removed
  same : kept.2.same removed.2 = true
  eq : d' = (d.eraseIdx j).map fun e => (e.1, e.2.redirect removed.1 kept.1)

def standIn (removed kept number : Nat) : Nat := if number = removed then kept else number

theorem keys_redirect (old new : Nat) (s : DfaState) :
    OrderedMap.keys (s.redirect old new).arcs = OrderedMap.keys s.arcs := by
  simp [OrderedMap.keys, DfaState.redirect]

theorem get?_redirect (old new : Nat) (s : DfaState) (l : Label) :
    get? (s.redirect old new).arcs l =
      (get? s.arcs l).map (standIn old new) :=
  get?_map s.arcs (standIn old new) l

namespace Merged

variable {d d' : Dfa} {i j : Nat} {kept removed : Nat × DfaState}

section

variable (h : Merged d i j kept removed d')
include h

theorem length : d'.length + 1 = d.length := by
  have lt := (List.getElem?_eq_some_iff.1 h.atRemoved).1
  rw [h.eq, length_map, length_eraseIdx, if_pos lt]
  omega

variable {k : Nat} (wf : d.WellFormed)
include wf

theorem number_ne : kept.1 ≠ removed.1 :=
  fun number => absurd (wf.eq_of_number h.atKept h.atRemoved number) (ne_of_lt h.lt)

theorem mem_iff {s : DfaState} :
    (k, s) ∈ d' ↔ k ≠ removed.1 ∧ ∃ s', (k, s') ∈ d ∧ s = s'.redirect removed.1 kept.1 := by
  rw [h.eq, mem_map]
  constructor
  · rintro ⟨e, he, found⟩
    cases found
    obtain ⟨p, hp, found⟩ := mem_eraseIdx_iff_getElem?.1 he
    refine ⟨fun number => hp (wf.eq_of_number found h.atRemoved number), e.2, ?_, rfl⟩
    exact mem_of_getElem? found
  · rintro ⟨number, s', hs', rfl⟩
    obtain ⟨p, found⟩ := mem_iff_getElem?.1 hs'
    refine ⟨(k, s'), mem_eraseIdx_iff_getElem?.2 ⟨p, ?_, found⟩, rfl⟩
    rintro rfl
    cases found.symm.trans h.atRemoved
    exact number rfl

theorem mem_keys_iff : k ∈ keys d' ↔ k ≠ removed.1 ∧ k ∈ keys d := by
  constructor
  · intro hk
    obtain ⟨⟨k, s⟩, he, rfl⟩ := mem_map.1 hk
    obtain ⟨number, s', hs', -⟩ := (h.mem_iff wf).1 he
    exact ⟨number, mem_map.2 ⟨_, hs', rfl⟩⟩
  · rintro ⟨number, hk⟩
    obtain ⟨⟨k, s⟩, he, rfl⟩ := mem_map.1 hk
    exact mem_map.2 ⟨_, (h.mem_iff wf).2 ⟨number, s, he, rfl⟩, rfl⟩

theorem standIn_mem_keys (hk : k ∈ keys d) :
    standIn removed.1 kept.1 k ∈ keys d' := by
  rw [h.mem_keys_iff wf, standIn]
  split
  · exact ⟨h.number_ne wf, mem_map.2 ⟨kept, mem_of_getElem? h.atKept, rfl⟩⟩
  · exact ⟨‹_›, hk⟩

theorem wellFormed : d'.WellFormed := by
  have keys : OrderedMap.keys d' = (OrderedMap.keys d).eraseIdx j := by
    rw [h.eq, OrderedMap.keys, map_map, ← eraseIdx_map]
    rfl
  refine ⟨keys ▸ wf.numbers.sublist (eraseIdx_sublist _ _), fun e he => ?_,
    fun e he _ harc => ?_⟩ <;> obtain ⟨k, s⟩ := e
  · obtain ⟨-, s', hs', rfl⟩ := (h.mem_iff wf).1 he
    rw [keys_redirect]
    exact wf.labels _ hs'
  · obtain ⟨-, s', hs', rfl⟩ := (h.mem_iff wf).1 he
    obtain ⟨arc', harc', rfl⟩ := mem_map.1 harc
    exact h.standIn_mem_keys wf (wf.targets _ hs' arc' harc')

theorem state?_standIn (k : Nat) :
    (d.state? k = none ∧ d'.state? (standIn removed.1 kept.1 k) = none) ∨
      ∃ s s' : DfaState, d.state? k = some s ∧
        d'.state? (standIn removed.1 kept.1 k) = some (s'.redirect removed.1 kept.1) ∧
        s'.final = s.final ∧ ∀ l, get? s'.arcs l = get? s.arcs l := by
  have wf' := h.wellFormed wf
  have memKept := mem_of_getElem? h.atKept
  have memRemoved := mem_of_getElem? h.atRemoved
  by_cases hk : k = removed.1
  · subst hk
    obtain ⟨final, arcs⟩ := (wf.same_iff memKept memRemoved).1 h.same
    refine .inr ⟨removed.2, kept.2, wf.state?_iff.2 memRemoved, ?_, final, arcs⟩
    rw [standIn, if_pos rfl, wf'.state?_iff]
    exact (h.mem_iff wf).2 ⟨h.number_ne wf, kept.2, memKept, rfl⟩
  · rw [standIn, if_neg hk]
    cases found : d.state? k with
    | some s =>
      refine .inr ⟨s, s, rfl, wf'.state?_iff.2 ?_, rfl, fun _ => rfl⟩
      exact (h.mem_iff wf).2 ⟨hk, s, wf.state?_iff.1 found, rfl⟩
    | none =>
      refine .inl ⟨rfl, Option.eq_none_iff_forall_ne_some.2 fun s hs => ?_⟩
      obtain ⟨-, s', hs', -⟩ := (h.mem_iff wf).1 (wf'.state?_iff.1 hs)
      rw [wf.state?_iff.2 hs'] at found
      cases found

/-- A state and its stand-in accept the same words. -/
theorem acceptsFrom_iff (k : Nat) (w : List Label) :
    d'.AcceptsFrom (standIn removed.1 kept.1 k) w ↔ d.AcceptsFrom k w := by
  induction w generalizing k with
  | nil =>
    rw [Dfa.AcceptsFrom, Dfa.AcceptsFrom]
    obtain ⟨none, none'⟩ | ⟨s, s', found, found', final, -⟩ := h.state?_standIn wf k
    · simp [none, none']
    · simp [found, found', DfaState.redirect, final]
  | cons l w ih =>
    rw [Dfa.AcceptsFrom, Dfa.AcceptsFrom]
    obtain ⟨none, none'⟩ | ⟨s, s', found, found', -, arcs⟩ := h.state?_standIn wf k
    · simp [none, none']
    · simp only [found, found', Option.some.injEq, exists_and_left, exists_eq_left',
        get?_redirect, arcs, Option.map_eq_some_iff]
      constructor
      · rintro ⟨t, ⟨t', arc, rfl⟩, rest⟩
        exact ⟨t', arc, (ih t').1 rest⟩
      · rintro ⟨t, arc, rest⟩
        exact ⟨_, ⟨t, arc, rfl⟩, (ih t).2 rest⟩

/-- The first state stays the first, since only later ones are removed. -/
theorem accepts_iff (w : List Label) : d'.Accepts w ↔ d.Accepts w := by
  have head : d'.head? = d.head?.map fun e => (e.1, e.2.redirect removed.1 kept.1) := by
    have pos := Nat.zero_lt_of_lt h.lt
    rw [h.eq, head?_map, head?_eq_getElem?, getElem?_eraseIdx_of_lt pos, ← head?_eq_getElem?]
  cases first : d.head? with
  | none => simp [Dfa.Accepts, head, first]
  | some e =>
    have number : standIn removed.1 kept.1 e.1 = e.1 := by
      refine if_neg fun number => ?_
      rw [head?_eq_getElem?] at first
      have zero := wf.eq_of_number first h.atRemoved number
      have lt := h.lt
      omega
    simp only [Dfa.Accepts, head, first, Option.map_some, Option.some.injEq, exists_eq_left']
    rw [← h.acceptsFrom_iff wf e.1 w, number]

end

end Merged

/-! ## Going through the places -/

theorem unifyAt_cases (d : Dfa) (i : Nat) :
    (∃ j kept removed d', unifyAt d i = some d' ∧ Merged d i j kept removed d') ∨
      unifyAt d i = none ∧ ∀ (j : Nat) e e', i < j → d[i]? = some e → d[j]? = some e' →
        e.2.same e'.2 = false := by
  unfold unifyAt
  cases first : d[i]? with
  | none => exact .inr ⟨rfl, fun _ _ _ _ h => by cases h⟩
  | some kept =>
    cases found : (d.drop (i + 1)).findIdx? fun e => kept.2.same e.2 with
    | none =>
      refine .inr ⟨by simp [found], fun j e e' _ he he' => ?_⟩
      cases he
      have mem : e' ∈ d.drop (i + 1) := by
        refine mem_of_getElem? (i := j - (i + 1)) ?_
        rw [getElem?_drop, ← he']
        congr 1
        omega
      exact findIdx?_eq_none_iff.1 found e' mem
    | some k =>
      obtain ⟨lt, same, -⟩ := findIdx?_eq_some_iff_getElem.1 found
      rw [length_drop] at lt
      rw [getElem_drop] at same
      have hj : d[i + 1 + k]? = some d[i + 1 + k] := getElem?_eq_getElem (by omega)
      refine .inl ⟨i + 1 + k, kept, d[i + 1 + k], _, ?_, by omega, first, hj, same, rfl⟩
      simp [found, hj]

/-- What unifying keeps: the form of the automaton and the words that it accepts. -/
structure Unified (d d' : Dfa) : Prop where
  wellFormed : d'.WellFormed
  accepts_iff : ∀ w, d'.Accepts w ↔ d.Accepts w
  length_le : d'.length ≤ d.length

variable {d : Dfa} {i : Nat} {e : Nat × DfaState}

theorem Unified.trans {d' d'' : Dfa} (h : Unified d d') (h' : Unified d' d'') : Unified d d'' :=
  ⟨h'.wellFormed, fun w => (h'.accepts_iff w).trans (h.accepts_iff w),
    h'.length_le.trans h.length_le⟩

theorem Merged.unified {d' : Dfa} {j : Nat} {kept removed : Nat × DfaState}
    (h : Merged d i j kept removed d') (wf : d.WellFormed) : Unified d d' :=
  ⟨h.wellFormed wf, h.accepts_iff wf, by have := h.length; omega⟩

theorem unifyFrom_spec (wf : d.WellFormed) (fuel i : Nat) :
    Unified d (unifyFrom fuel i d).2 ∧
      ((unifyFrom fuel i d).1 = true ∧ (unifyFrom fuel i d).2.length < d.length ∨
        unifyFrom fuel i d = (false, d) ∧ ∀ p, i ≤ p → p < i + fuel → unifyAt d p = none) := by
  have self : Unified d d := ⟨wf, fun _ => .rfl, le_refl _⟩
  induction fuel generalizing i d with
  | zero => exact ⟨self, .inr ⟨rfl, fun p low high => by omega⟩⟩
  | succ fuel ih =>
    obtain ⟨j, _, _, d', found, merged⟩ | ⟨none, -⟩ := unifyAt_cases d i
    · have wf' := merged.wellFormed wf
      have later := (ih (i := i + 1) wf' ⟨wf', fun _ => .rfl, le_refl _⟩).1
      rw [unifyFrom, found]
      refine ⟨(merged.unified wf).trans later, .inl ⟨rfl, ?_⟩⟩
      have shorter := merged.length
      have le := later.length_le
      exact lt_of_le_of_lt le (by omega)
    · obtain ⟨unified, ended⟩ := ih (i := i + 1) wf self
      rw [unifyFrom, none]
      refine ⟨unified, ended.imp_right fun ⟨eq, rest⟩ => ⟨eq, fun p low high => ?_⟩⟩
      rcases eq_or_lt_of_le low with rfl | low
      · exact none
      · exact rest p low (by omega)

/-- With more rounds than there are states, the last round finds nothing to remove. -/
theorem unifyAll_spec {fuel : Nat} (wf : d.WellFormed) (enough : d.length < fuel) :
    Unified d (unifyAll fuel d) ∧ ∀ p, unifyAt (unifyAll fuel d) p = none := by
  induction fuel generalizing d with
  | zero => omega
  | succ fuel ih =>
    obtain ⟨unified, ⟨more, _⟩ | ⟨eq, none⟩⟩ := unifyFrom_spec wf d.length 0
    · have round : unifyAll (fuel + 1) d = unifyAll fuel (unifyFrom d.length 0 d).2 := by
        rw [unifyAll]
        generalize unifyFrom d.length 0 d = r at more
        obtain ⟨_, d'⟩ := r
        cases more
        rfl
      obtain ⟨unified', none⟩ := ih unified.wellFormed (by omega)
      rw [round]
      exact ⟨unified.trans unified', none⟩
    · have round : unifyAll (fuel + 1) d = d := by rw [unifyAll, eq]
      rw [round]
      refine ⟨⟨wf, fun _ => .rfl, le_refl _⟩, fun p => ?_⟩
      by_cases hp : p < d.length
      · exact none p (Nat.zero_le _) (by omega)
      · rw [unifyAt, getElem?_eq_none (by omega)]

theorem unifyAll_eq {fuel fuel' : Nat} (wf : d.WellFormed) (enough : d.length < fuel)
    (enough' : d.length < fuel') : unifyAll fuel d = unifyAll fuel' d := by
  induction fuel generalizing fuel' d with
  | zero => omega
  | succ fuel ih =>
    obtain ⟨fuel', rfl⟩ := Nat.exists_eq_add_of_lt (Nat.zero_lt_of_lt enough')
    rw [unifyAll, unifyAll]
    obtain ⟨unified, ⟨more, shorter⟩ | ⟨eq, -⟩⟩ := unifyFrom_spec wf d.length 0
    · generalize unifyFrom d.length 0 d = r at more shorter unified
      obtain ⟨_, d'⟩ := r
      cases more
      exact ih unified.wellFormed (by dsimp only at shorter; omega) (by dsimp only at shorter; omega)
    · rw [eq]

theorem unifyFrom_of_none (none : ∀ p, unifyAt d p = none) (fuel i : Nat) :
    unifyFrom fuel i d = (false, d) := by
  induction fuel generalizing i with
  | zero => rfl
  | succ fuel ih => rw [unifyFrom, none i, ih]

theorem eq_of_same (wf : d.WellFormed) (none : ∀ p, unifyAt d p = none) {j : Nat} {e' : Nat × DfaState}
    (hi : d[i]? = some e) (hj : d[j]? = some e') (same : e.2.same e'.2 = true) : i = j := by
  have distinct : ∀ {i j : Nat} {e e' : Nat × DfaState}, d[i]? = some e → d[j]? = some e' →
      e.2.same e'.2 = true → ¬ i < j := by
    intro i j e e' hi hj same lt
    obtain ⟨_, _, _, _, found, -⟩ | ⟨-, differ⟩ := unifyAt_cases d i
    · rw [none i] at found
      cases found
    · rw [differ j e e' lt hi hj] at same
      cases same
  have same' := (wf.same_comm (mem_of_getElem? hi) (mem_of_getElem? hj)).1 same
  exact le_antisymm (Nat.le_of_not_lt (distinct hj hi same')) (Nat.le_of_not_lt (distinct hi hj same))

theorem placeOf_eq (wf : d.WellFormed) (none : ∀ p, unifyAt d p = none) (hi : d[i]? = some e) :
    d.placeOf e.1 = i := by
  have mem := mem_of_getElem? hi
  rw [Dfa.placeOf, wf.state?_iff.2 mem]
  obtain ⟨lt, rfl⟩ := List.getElem?_eq_some_iff.1 hi
  have self := (wf.same_iff mem mem).2 ⟨rfl, fun _ => rfl⟩
  refine (findIdx_eq lt).2 ⟨self, fun j hj => Bool.eq_false_iff.2 fun same => ?_⟩
  have hj' : d[j]? = some d[j] := getElem?_eq_getElem (by omega)
  exact absurd (eq_of_same wf none hi hj' same) (by omega)

/-! ## The automaton of a rule -/

/-- The deterministic automaton `d` does the work of the paths of `n` from `start` to `finish`, and
its states can be told apart. -/
structure Recognises (n : Nfa) (start finish : Nat) (d : Dfa) : Prop where
  accepts_iff : ∀ w, d.Accepts w ↔ n.Path start w finish
  targets : ∀ e ∈ d, ∀ arc ∈ e.2.arcs, ∃ s, (arc.2, s) ∈ d ∧ d.state? arc.2 = some s
  distinct : ∀ (i j : Nat) e e', d[i]? = some e → d[j]? = some e' → e.2.same e'.2 = true → i = j
  placeOf_eq : ∀ (i : Nat) e, d[i]? = some e → d.placeOf e.1 = i

/-- **Making an automaton deterministic and unifying its states keeps its words.**  The search for
sets ends with all of them expanded, and the rounds of unifying end with one that removes nothing,
however many more steps either is given. -/
theorem recognises_simplify_determinise {n : Nfa} {start finish : Nat} (hn : n.Closed)
    (hs : start < n.size) :
    Recognises n start finish (simplify (determinise n start finish)) ∧
      (explored n start).1.length = (explored n start).2.length ∧
      (∀ fuel, Nat.pow 2 n.size ≤ fuel →
        explore n fuel 0 [n.close start []] [] = explored n start) ∧
      unifyFrom (simplify (determinise n start finish)).length 0
          (simplify (determinise n start finish)) =
        (false, simplify (determinise n start finish)) ∧
      ∀ fuel, (determinise n start finish).length < fuel →
        unifyAll fuel (determinise n start finish) = simplify (determinise n start finish) := by
  have wf : (determinise n start finish).WellFormed := wellFormed_determinise hn hs
  have ended : (explored n start).1.length = (explored n start).2.length :=
    (explored_spec hn hs).2.length.symm
  have enough := Nat.lt_succ_self (determinise n start finish).length
  obtain ⟨unified, none⟩ := unifyAll_spec wf enough
  have wf' : (simplify (determinise n start finish)).WellFormed := unified.wellFormed
  refine ⟨⟨fun w => ?_, fun e he arc harc => ?_, fun i j e e' => eq_of_same wf' none,
    fun i e => placeOf_eq wf' none⟩, ended, fun fuel => explore_of_le rfl ended, ?_,
    fun fuel more => unifyAll_eq wf more enough⟩
  · exact (unified.accepts_iff w).trans (accepts_determinise_iff hn hs w)
  · obtain ⟨⟨k, s⟩, target, number⟩ := mem_map.1 (wf'.targets e he arc harc)
    dsimp only at number
    exact ⟨s, number ▸ target, wf'.state?_iff.2 (number ▸ target)⟩
  · exact unifyFrom_of_none none _ 0

def fork : Nfa :=
  ⟨[[(some "a".toList, 1), (some "b".toList, 2)], [(none, 3)], [(none, 3)], []]⟩

/-- The two sets that the labels of a fork lead to are unified. -/
theorem recognises_fork : fork.Closed ∧ 0 < fork.size ∧
    Recognises fork 0 3
      [(0, ⟨false, [("a".toList, 1), ("b".toList, 1)]⟩), (1, ⟨true, []⟩)] := by
  have closed : fork.Closed := by decide
  exact ⟨closed, by decide, (recognises_simplify_determinise closed (by decide)).1⟩

end Retouch.Grammar
