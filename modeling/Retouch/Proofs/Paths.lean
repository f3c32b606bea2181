import Mathlib.Computability.Language
import Mathlib.Order.CompletePartialOrder
import Retouch.Grammar.Automaton

/-!
# Paths through an automaton with silent arcs

A path spells the labels on its arcs, and silent arcs spell nothing.  What is spelled between two
states is a language, and adding a silent arc changes all of these languages by one equation of
Kleene algebra (`Nfa.between_addArc`): a path goes on as before, or it comes to the start of the new
arc, takes it, comes back to its start any number of times, and goes on from its end.

An automaton that is built into a larger one keeps its languages, as long as the new states have arcs
among themselves only (`Nfa.Grown`).
-/

namespace Retouch.Grammar.Nfa

open Computability

/-- A path from one state to another, with the labels on its arcs. -/
inductive Path (n : Nfa) : Nat → List Label → Nat → Prop
  | nil (p : Nat) : Path n p [] p
  | silent {p q r : Nat} {w : List Label} (arc : (none, q) ∈ n.arcsOf p) (rest : Path n q w r) :
      Path n p w r
  | label {p q r : Nat} {l : Label} {w : List Label} (arc : (some l, q) ∈ n.arcsOf p)
      (rest : Path n q w r) : Path n p (l :: w) r

def between (n : Nfa) (p q : Nat) : Language Label := {w | n.Path p w q}

variable {n n' : Nfa} {p q r s t : Nat} {w : List Label}

theorem Path.append {v : List Label} (h : n.Path p v q) (h' : n.Path q w r) :
    n.Path p (v ++ w) r := by
  induction h with
  | nil p => exact h'
  | silent arc _ ih => exact .silent arc (ih h')
  | label arc _ ih => exact .label arc (ih h')

theorem Path.mono (h : n.Path p w q) (arcs : ∀ s, ∀ arc ∈ n.arcsOf s, arc ∈ n'.arcsOf s) :
    n'.Path p w q := by
  induction h with
  | nil p => exact .nil p
  | silent arc _ ih => exact .silent (arcs _ _ arc) ih
  | label arc _ ih => exact .label (arcs _ _ arc) ih

theorem one_le_between (n : Nfa) (p : Nat) : 1 ≤ n.between p p := by
  rintro w rfl
  exact .nil p

theorem between_mul_between (n : Nfa) (p q r : Nat) :
    n.between p q * n.between q r ≤ n.between p r := by
  rintro _ ⟨v, hv, w, hw, rfl⟩
  exact .append hv hw

/-! ## Sizes and arcs -/

@[simp] theorem size_grow (n : Nfa) : n.grow.size = n.size + 1 := by simp [size, grow]

@[simp] theorem size_addArc (n : Nfa) (s : Nat) (l : Option Label) (t : Nat) :
    (n.addArc s l t).size = n.size := by simp [size, addArc]

theorem arcsOf_eq_nil (h : n.size ≤ p) : n.arcsOf p = [] := by
  rw [arcsOf, List.getD_eq_getElem?_getD, List.getElem?_eq_none h, Option.getD_none]

@[simp] theorem arcsOf_grow (n : Nfa) (p : Nat) : n.grow.arcsOf p = n.arcsOf p := by
  rcases lt_or_ge p n.size with h | h
  · simp [arcsOf, grow, List.getElem?_append_left h]
  · rw [arcsOf_eq_nil h, arcsOf, grow, List.getD_eq_getElem?_getD, List.getElem?_append_right h]
    cases p - n.arcs.length <;> rfl

theorem arcsOf_addArc (hs : s < n.size) (l : Option Label) (t p : Nat) :
    (n.addArc s l t).arcsOf p = if p = s then n.arcsOf p ++ [(l, t)] else n.arcsOf p := by
  simp only [arcsOf, addArc]
  by_cases h : p = s
  · subst h
    have hp := List.getElem?_eq_getElem hs
    simp [hp]
  · simp [h, Ne.symm h]

theorem mem_arcsOf_addArc (hs : s < n.size) {l : Option Label} {arc : Option Label × Nat} :
    arc ∈ (n.addArc s l t).arcsOf p ↔ arc ∈ n.arcsOf p ∨ p = s ∧ arc = (l, t) := by
  rw [arcsOf_addArc hs]
  by_cases h : p = s <;> simp [h]

/-! ## One more silent arc -/

theorem between_le_addArc (hs : s < n.size) (l : Option Label) (t p q : Nat) :
    n.between p q ≤ (n.addArc s l t).between p q := by
  intro w hw
  exact .mono hw fun _ _ h => (mem_arcsOf_addArc hs).2 (.inl h)

theorem step_mul_le {v : Language Label} (h : v ≤ n.between p q) :
    v * (n.between q r + n.between q s * (n.between t s)∗ * n.between t r) ≤
      n.between p r + n.between p s * (n.between t s)∗ * n.between t r := by
  have front := fun x =>
    (mul_le_mul_left h _).trans (between_mul_between n p q x)
  calc v * (n.between q r + n.between q s * (n.between t s)∗ * n.between t r)
      = v * n.between q r + v * n.between q s * (n.between t s)∗ * n.between t r := by
        simp only [mul_add, mul_assoc]
    _ ≤ n.between p r + n.between p s * (n.between t s)∗ * n.between t r := by
        gcongr
        · exact front r
        · exact front s

/-- **Adding a silent arc.**  A path does without the new arc, or it takes it one or more times. -/
theorem between_addArc (hs : s < n.size) (t p q : Nat) :
    (n.addArc s none t).between p q =
      n.between p q + n.between p s * (n.between t s)∗ * n.between t q := by
  apply le_antisymm
  · intro w h
    induction (h : (n.addArc s none t).Path p w q) with
    | nil p => exact .inl (.nil p)
    | @silent p p' q w arc _ ih =>
      rcases (mem_arcsOf_addArc hs).1 arc with old | ⟨rfl, new⟩
      · have step : 1 ≤ n.between p p' := by
          rintro _ rfl
          exact .silent old (.nil p')
        exact step_mul_le step (Language.append_mem_mul Language.nil_mem_one ih)
      · cases new
        have again : n.between t q + n.between t p * (n.between t p)∗ * n.between t q ≤
            n.between p p * (n.between t p)∗ * n.between t q := by
          calc n.between t q + n.between t p * (n.between t p)∗ * n.between t q
              = 1 * (n.between t p)∗ * n.between t q := by
                rw [← one_add_mul, one_add_mul_kstar, one_mul]
            _ ≤ n.between p p * (n.between t p)∗ * n.between t q := by
                gcongr
                exact one_le_between n p
        exact .inr (again ih)
    | @label p p' q l w arc _ ih =>
      rcases (mem_arcsOf_addArc hs).1 arc with old | ⟨_, new⟩
      · have step : ({[l]} : Language Label) ≤ n.between p p' := by
          rintro _ rfl
          exact .label old (.nil p')
        have first : [l] ∈ ({[l]} : Language Label) := rfl
        exact step_mul_le step (Language.append_mem_mul first ih)
      · cases new
  · have old := between_le_addArc (n := n) hs none t
    have arc : 1 ≤ (n.addArc s none t).between s t := by
      rintro _ rfl
      exact .silent ((mem_arcsOf_addArc hs).2 (.inr ⟨rfl, rfl⟩)) (.nil t)
    have around : ∀ p, (n.addArc s none t).between p s * (n.addArc s none t).between t q ≤
        (n.addArc s none t).between p q := by
      intro p
      calc (n.addArc s none t).between p s * (n.addArc s none t).between t q
          = (n.addArc s none t).between p s * 1 * (n.addArc s none t).between t q := by rw [mul_one]
        _ ≤ (n.addArc s none t).between p s * (n.addArc s none t).between s t *
              (n.addArc s none t).between t q := by gcongr
        _ ≤ (n.addArc s none t).between p q := by
            grw [between_mul_between, between_mul_between]
    refine add_le (old p q) ?_
    calc n.between p s * (n.between t s)∗ * n.between t q
        ≤ (n.addArc s none t).between p s *
            (((n.addArc s none t).between t s)∗ * (n.addArc s none t).between t q) := by
          rw [mul_assoc]
          gcongr
          · exact old p s
          · exact old t s
          · exact old t q
      _ ≤ (n.addArc s none t).between p s * (n.addArc s none t).between t q := by
          gcongr
          exact kstar_mul_le_self (around t)
      _ ≤ (n.addArc s none t).between p q := around p

/-! ## Automata inside larger ones -/

def Closed (n : Nfa) : Prop := ∀ p, ∀ arc ∈ n.arcsOf p, arc.2 < n.size

theorem closed_iff : n.Closed ↔ ∀ p < n.size, ∀ arc ∈ n.arcsOf p, arc.2 < n.size := by
  refine ⟨fun h p _ => h p, fun h p arc harc => ?_⟩
  rcases lt_or_ge p n.size with lt | ge
  · exact h p lt arc harc
  · rw [arcsOf_eq_nil ge] at harc
    cases harc

instance (n : Nfa) : Decidable n.Closed := decidable_of_iff _ closed_iff.symm

/-- The second automaton has the states of the first with their arcs, and new states whose arcs lead
to new states. -/
structure Grown (n n' : Nfa) : Prop where
  size_le : n.size ≤ n'.size
  old : ∀ p < n.size, n'.arcsOf p = n.arcsOf p
  new : ∀ p, n.size ≤ p → ∀ arc ∈ n'.arcsOf p, n.size ≤ arc.2 ∧ arc.2 < n'.size

theorem Grown.trans {n'' : Nfa} (h : Grown n n') (h' : Grown n' n'') : Grown n n'' := by
  refine ⟨h.size_le.trans h'.size_le, fun p hp => ?_, fun p hp arc harc => ?_⟩
  · rw [h'.old p (hp.trans_le h.size_le), h.old p hp]
  · rcases lt_or_ge p n'.size with lower | upper
    · rw [h'.old p lower] at harc
      exact ⟨(h.new p hp arc harc).1, (h.new p hp arc harc).2.trans_le h'.size_le⟩
    · exact ⟨h.size_le.trans (h'.new p upper arc harc).1, (h'.new p upper arc harc).2⟩

theorem Grown.grow (n : Nfa) : Grown n n.grow := by
  refine ⟨by simp, fun p _ => arcsOf_grow n p, fun p hp _ harc => ?_⟩
  rw [arcsOf_grow, arcsOf_eq_nil hp] at harc
  cases harc

theorem Grown.addArc (h : Grown n n') {l : Option Label} (hs : n.size ≤ s) (hs' : s < n'.size)
    (ht : n.size ≤ t) (ht' : t < n'.size) : Grown n (n'.addArc s l t) := by
  refine ⟨by simpa using h.size_le, fun p hp => ?_, fun p hp arc harc => ?_⟩
  · rw [arcsOf_addArc hs', if_neg (by omega), h.old p hp]
  · rw [size_addArc]
    rcases (mem_arcsOf_addArc hs').1 harc with old | ⟨_, rfl⟩
    · exact h.new p hp arc old
    · exact ⟨ht, ht'⟩

theorem Grown.closed (h : Grown n n') (hn : n.Closed) : n'.Closed := by
  intro p arc harc
  rcases lt_or_ge p n.size with lower | upper
  · rw [h.old p lower] at harc
    exact (hn p arc harc).trans_le h.size_le
  · exact (h.new p upper arc harc).2

theorem closed_empty : empty.Closed := by
  intro p _ harc
  cases harc

theorem Grown.between_old (h : Grown n n') (hn : n.Closed) (hp : p < n.size) (q : Nat) :
    n'.between p q = n.between p q := by
  apply le_antisymm
  · intro w hw
    induction (hw : n'.Path p w q) with
    | nil p => exact .nil p
    | silent arc rest ih =>
      rw [h.old _ hp] at arc
      exact .silent arc (ih (hn _ _ arc))
    | label arc rest ih =>
      rw [h.old _ hp] at arc
      exact .label arc (ih (hn _ _ arc))
  · intro w hw
    induction (hw : n.Path p w q) with
    | nil p => exact .nil p
    | silent arc rest ih =>
      exact .silent (by rwa [h.old _ hp]) (ih (hn _ _ arc))
    | label arc rest ih =>
      exact .label (by rwa [h.old _ hp]) (ih (hn _ _ arc))

theorem between_eq_zero {inside : Nat → Prop}
    (stays : ∀ p, inside p → ∀ arc ∈ n.arcsOf p, inside arc.2) (hp : inside p) (hq : ¬ inside q) :
    n.between p q = 0 := by
  apply le_antisymm
  · intro w hw
    induction (hw : n.Path p w q) with
    | nil p => exact absurd hp hq
    | silent arc rest ih => exact ih (stays _ hp _ arc) hq
    | label arc rest ih => exact (ih (stays _ hp _ arc) hq).elim
  · exact fun _ h => h.elim

theorem Grown.between_old_new (h : Grown n n') (hn : n.Closed) (hp : p < n.size)
    (hq : n.size ≤ q) : n'.between p q = 0 := by
  refine @between_eq_zero n' p q (· < n.size) ?_ hp (not_lt.2 hq)
  intro p hp arc harc
  rw [h.old p hp] at harc
  exact hn p arc harc

theorem Grown.between_new_old (h : Grown n n') (hp : n.size ≤ p) (hq : q < n.size) :
    n'.between p q = 0 :=
  between_eq_zero (fun p hp arc harc => (h.new p hp arc harc).1) hp (not_le.2 hq)

theorem between_of_arcsOf_nil (h : n.arcsOf p = []) (q : Nat) :
    n.between p q = if p = q then 1 else 0 := by
  apply le_antisymm
  · intro w hw
    cases (hw : n.Path p w q) with
    | nil => rw [if_pos rfl]; exact rfl
    | silent arc | label arc => rw [h] at arc; cases arc
  · split
    · rename_i same
      subst same
      exact one_le_between n p
    · exact fun _ h => h.elim

theorem between_of_arcsOf_label {l : Label} (h : n.arcsOf p = [(some l, t)]) (q : Nat) :
    n.between p q = (if p = q then 1 else 0) + {[l]} * n.between t q := by
  apply le_antisymm
  · intro w hw
    cases (hw : n.Path p w q) with
    | nil => exact .inl (by rw [if_pos rfl]; exact rfl)
    | silent arc => rw [h] at arc; simp at arc
    | label arc rest =>
      rw [h] at arc
      cases List.mem_singleton.1 arc
      exact .inr ⟨[l], rfl, _, rest, rfl⟩
  · refine add_le ?_ ?_
    · split
      · rename_i same
        subst same
        exact one_le_between n p
      · exact fun _ h => h.elim
    · rintro _ ⟨_, rfl, w, hw, rfl⟩
      exact .label (by rw [h]; exact List.mem_singleton_self _) hw

end Retouch.Grammar.Nfa
