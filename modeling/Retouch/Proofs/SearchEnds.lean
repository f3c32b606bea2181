import Retouch.Proofs.Matching

/-!
# How searches end

A search ends when no way is left, or it breaks off, or it goes round in circles.  It breaks off only
where a negated pattern is asked to take a tree, and whether that can happen is seen from the pattern
(`Pattern.neverBreaks`); it never happens where there is no tree, and no pattern's search goes round in
circles.  One induction over patterns says all of it (`Pattern.ways_ends`).
-/

namespace Retouch

variable {α : Type}

namespace Matches

def Ends (E : Last → Prop) (m : Matches α) : Prop := E m.last

variable {E : Last → Prop} {m : Matches α}

theorem Ends.append {next : Unit → Matches α} (h : m.Ends E) (h' : (next ()).Ends E) :
    (m.append next).Ends E := by
  rw [Ends, last_append]
  split
  · exact h'
  · exact h

theorem Ends.map (h : m.Ends E) (f : Nat → Bindings α → Nat × Bindings α) : (m.map f).Ends E := by
  rwa [Ends, last_map]

theorem Ends.bind {f : Nat → Bindings α → Matches α} (h : m.Ends E) (hf : ∀ c r, (f c r).Ends E) :
    (m.bind f).Ends E := by
  induction m with
  | done | fail | endless => exact h
  | found c r more ih => exact (hf c r).append (ih () h)

theorem Ends.recover {next : Unit → Matches α} (h : m.Ends fun l => E l ∨ l = .endless)
    (h' : (next ()).Ends E) : (m.recover next).Ends E := by
  induction m with
  | done | fail => exact h.resolve_right nofun
  | endless => exact h'
  | found c r more ih => exact ih () h

theorem Ends.collecting {ways : List (Nat × Bindings α)}
    {next : List (Nat × Bindings α) → Matches α} (h : m.Ends E) (h' : ∀ ws, (next ws).Ends E) :
    (m.collecting ways next).Ends E := by
  rw [collecting_eq]
  exact h.append (h' _)

theorem Ends.exactly (h : m.Ends (· ≠ .broken)) (n : Nat) : m.exactly n ≠ .fail := by
  induction m with
  | done | endless => rintro ⟨⟩
  | fail => exact absurd rfl h
  | found c r more ih =>
    rw [Matches.exactly]
    split
    · rintro ⟨⟩
    · exact ih () h

end Matches

namespace Pattern

open Matches

variable {E : Last → Prop}

/-! ## Turns -/

section Turns

variable (done : E .done) {turn : List (Tree α) → Matches α}

include done

theorem turns_ends (endless : E .endless) (min max fuel count : Nat) {ts : List (Tree α)}
    (hturn : ∀ c, (turn (ts.drop c)).Ends E) : (turns turn min max fuel count ts).Ends E := by
  induction fuel generalizing count ts with
  | zero => exact done
  | succ fuel ih =>
    refine .append ?_ ?_
    · split <;> exact done
    · split
      · refine (hturn 0).bind fun c r => ?_
        split
        · exact endless
        · exact (ih (count + 1) fun d => List.drop_drop ▸ hturn (c + d)).map _
      · exact done

variable {ts : List (Tree α)} (hturn : ∀ c, (turn (ts.drop c)).Ends E)

include hturn

theorem addTurn_ends (max : Nat) (ways : List (Nat × Bindings α)) :
    (addTurn turn max ts ways).Ends E := by
  have before : (ofWays ways).Ends E := by rwa [Ends, last_ofWays]
  rw [addTurn_eq]
  refine before.bind fun c r => .map ?_ _
  split
  · rw [Ends, last_nonempty]
    exact hturn c
  · exact done

theorem moreTurns_ends (max fuel : Nat) (ways : List (Nat × Bindings α)) :
    (moreTurns turn max ts fuel ways).Ends E := by
  induction fuel generalizing ways with
  | zero => exact done
  | succ fuel ih =>
    cases ways with
    | nil => exact done
    | cons w ways => exact (addTurn_ends done hturn max _).collecting ih

theorem gradualTurns_ends (min max : Nat) : (gradualTurns turn min max ts).Ends E := by
  refine .append ?_ (.collecting (hturn 0) (moreTurns_ends done hturn max _))
  split <;> exact done

end Turns

/-! ## Patterns -/

mutual
def neverBreaks : Pattern → Bool
  | within _ ps _ => (ps.any isWild || ps.all fun p => !p.isNegated) && neverBreakAll ps
  | choice os _ _ n => n != some greedyName && neverBreakAny os
  | without p _ => neverBreaks p
  | leaf _ _ _ | tree _ _ | anything _ _ _ | finish _ => true

/-- Is none of the patterns asked for a tree that it cannot take? -/
def neverBreakAll : List Pattern → Bool
  | [] => true
  | p :: ps => neverBreaks p && neverBreakAll ps

/-- Is no pattern of the options asked for a tree that it cannot take? -/
def neverBreakAny : List (List Pattern) → Bool
  | [] => true
  | o :: os => neverBreakAll o && neverBreakAny os
end

theorem firstTree_ends (done : E .done) (fits : Tree α → Bool) (n : Option Text) (ts : List (Tree α)) :
    (firstTree fits n ts).Ends E := by
  cases ts with
  | nil => exact done
  | cons t ts =>
    rw [firstTree]
    split <;> exact done

theorem takeFrom_ends (done : E .done) (n : Option Text) (ts : List (Tree α)) (count extra : Nat) :
    (takeFrom n ts count extra).Ends E := by
  induction extra generalizing count with
  | zero => exact done
  | succ extra ih => exact ih (count + 1)

theorem ends_ofVerdict (done : E .done) {v : Verdict α} (h : v = .fail → E .broken) (n : Option Text)
    (t : Tree α) : (ofVerdict 1 (nameTree n t v)).Ends E := by
  cases v with
  | no | yes => exact done
  | fail => exact h rfl

mutual
/-- **How the search of a pattern ends**: not in circles, and it breaks off only where there are trees
and a negated pattern is asked to take one. -/
theorem ways_ends {E : Last → Prop} (done : E .done) {p : Pattern} {ts : List (Tree α)}
    (safe : E .broken ∨ p.neverBreaks = true ∨ ts = []) : (ways p ts).Ends E := by
  cases p with
  | leaf k v n | tree k n =>
    exact firstTree_ends done _ n ts
  | within k ps n =>
    cases ts with
    | nil =>
      exact done
    | cons t ts =>
      rw [ways]
      split
      · refine ends_ofVerdict done (fun failed => ?_) n t
        rcases safe with broken | never | none
        · exact broken
        · rw [neverBreaks, Bool.and_eq_true, Bool.or_eq_true] at never
          split at failed
          · exact absurd failed ((seqWays_ends nofun (.inr (.inl never.2))).exactly _)
          · rename_i tame
            exact absurd failed (eachTakesOne_ne_fail never.2 (never.1.resolve_left tame) t.children)
        · cases none
      · exact done
  | anything min max n =>
    rw [ways]
    split
    · exact takeFrom_ends done n ts min _
    · exact done
  | choice os min max n =>
    rw [ways]
    split
    · rename_i greedy
      rcases safe with broken | never | rfl
      · split
        · exact done
        · exact done
        · exact broken
      · rw [greedy] at never
        cases never
      · exact done
    · have safe := safe.imp_right (Or.imp_left fun never => (Bool.and_eq_true_iff.1 never).2)
      have turn : ∀ c, (optionWays os (ts.drop c)).Ends E := fun c =>
        optionWays_ends done (safe.imp_right (.imp_right fun none => by rw [none, List.drop_nil]))
      exact ((turns_ends (.inl done) (.inr rfl) min max _ 0 fun c => .inl (turn c)).recover
        (gradualTurns_ends done turn min max)).map _
  | finish n =>
    rw [ways]
    split <;> exact done
  | without p n =>
    rw [ways]
    split
    · exact done
    · rename_i failed
      have inner : (ways p ts).Ends E := ways_ends done safe
      rwa [failed] at inner
    · exact done

theorem seqWays_ends {E : Last → Prop} (done : E .done) {ps : List Pattern} {ts : List (Tree α)}
    (safe : E .broken ∨ neverBreakAll ps = true ∨ ts = []) : (seqWays ps ts).Ends E := by
  cases ps with
  | nil =>
    exact done
  | cons p ps =>
    rw [neverBreakAll, Bool.and_eq_true] at safe
    have first := ways_ends done (safe.imp_right (Or.imp_left And.left))
    rw [seqWays]
    split
    · exact first
    · refine first.bind fun c r => .map (seqWays_ends done ?_) _
      exact safe.imp_right (.imp And.right fun none => by rw [none, List.drop_nil])

theorem optionWays_ends {E : Last → Prop} (done : E .done) {os : List (List Pattern)}
    {ts : List (Tree α)} (safe : E .broken ∨ neverBreakAny os = true ∨ ts = []) :
    (optionWays os ts).Ends E := by
  cases os with
  | nil =>
    exact done
  | cons o os =>
    rw [neverBreakAny, Bool.and_eq_true] at safe
    exact (seqWays_ends done (safe.imp_right (Or.imp_left And.left))).append
      (optionWays_ends done (safe.imp_right (Or.imp_left And.right)))

theorem eachTakesOne_ne_fail {ps : List Pattern} (h : neverBreakAll ps = true)
    (positive : (ps.all fun p => !p.isNegated) = true) (ts : List (Tree α)) :
    eachTakesOne ps ts ≠ .fail := by
  cases ps with
  | nil => cases ts <;> simp [eachTakesOne]
  | cons p ps =>
    cases ts with
    | nil => simp [eachTakesOne]
    | cons t ts =>
      rw [neverBreakAll, Bool.and_eq_true] at h
      rw [List.all_cons, Bool.and_eq_true, Bool.not_eq_true'] at positive
      have first : (ways p [t]).exactly 1 ≠ .fail := (ways_ends nofun (.inr (.inl h.1))).exactly 1
      have later := eachTakesOne_ne_fail h.2 positive.2 ts
      rw [eachTakesOne]
      split
      · nofun
      · rw [if_neg (Bool.eq_false_iff.1 positive.1)]
        split
        · split
          · nofun
          · exact later
        · exact first
end

end Pattern

end Retouch
