import Mathlib.Tactic.Common
import Retouch.Pattern.Matches

/-!
# Searches for the ways to match

A search `Matches.Lists` a set of ways, each a count of trees with bound names, if every way that it
finds is in the set and, unless it breaks off, every way of the set is found, up to a relation between
names.  It `Finds` the set if only the counts are complete: a pattern for the children of a tree stops
at its first way to take all of them, so other names for the same count may stay unseen.
`Matches.All` says that every way found has a property, however the search ends.
-/

namespace Retouch

open List

variable {α : Type}

/-! ## Verdicts -/

namespace Verdict

/-- The verdict, if there is one, says whether `P` holds. -/
def Tells (v : Verdict α) (P : Prop) : Prop := (∀ r, v = .yes r → P) ∧ (v = .no → ¬ P)

/-- The verdict, if there is one, says whether `P` holds of any names, and gives some it holds of. -/
def Reports (v : Verdict α) (P : Bindings α → Prop) : Prop :=
  (∀ r, v = .yes r → P r) ∧ (v = .no → ∀ r, ¬ P r)

variable {P : Bindings α → Prop} {v : Verdict α}

theorem Reports.congr {Q : Bindings α → Prop} (h : v.Reports P) (same : ∀ r, P r ↔ Q r) : v.Reports Q :=
  ⟨fun r hr => (same r).1 (h.1 r hr), fun hn r hq => h.2 hn r ((same r).2 hq)⟩

theorem Reports.tells (h : v.Reports P) : v.Tells (∃ r, P r) :=
  ⟨fun r hr => ⟨r, h.1 r hr⟩, fun hn ⟨r, hr⟩ => h.2 hn r hr⟩

theorem Tells.congr {P Q : Prop} (h : v.Tells P) (same : P ↔ Q) : v.Tells Q :=
  ⟨fun r hr => same.1 (h.1 r hr), fun hn hq => h.2 hn (same.2 hq)⟩

end Verdict

namespace Matches

/-! ## What a search finds -/

/-- How a search ends. -/
inductive Last where
  | done
  | broken
  | endless
deriving DecidableEq

def ways : Matches α → List (Nat × Bindings α)
  | found c r more => (c, r) :: ways (more ())
  | _ => []

def last : Matches α → Last
  | done => .done
  | fail => .broken
  | endless => .endless
  | found _ _ more => last (more ())

/-- The ways are in the set.  The search ends, without breaking off exactly if it is calm, and then each
way of the set is found with its count and with related names. -/
structure Lists (E : Bindings α → Bindings α → Prop) (m : Matches α) (calm : Prop)
    (S : Nat → Bindings α → Prop) : Prop where
  sound : ∀ c r, (c, r) ∈ m.ways → S c r
  ends : m.last ≠ .endless
  done_iff : m.last = .done ↔ calm
  complete : m.last = .done → ∀ c r, S c r → ∃ r', E r r' ∧ (c, r') ∈ m.ways

/-- The ways are in the set, and all counts of the set are found unless the search breaks off. -/
abbrev Finds (m : Matches α) (S : Nat → Bindings α → Prop) : Prop :=
  Lists (fun _ _ => True) m (m.last = .done) S

/-- Related names can be merged. -/
structure Merging (E : Bindings α → Bindings α → Prop) : Prop where
  refl : ∀ r, E r r
  trans : ∀ {r s t}, E r s → E s t → E r t
  update : ∀ {r r' s s'}, E r r' → E s s' → E (OrderedMap.update r s) (OrderedMap.update r' s')

theorem merging_true : Merging fun _ _ : Bindings α => True :=
  ⟨fun _ => trivial, fun _ _ => trivial, fun _ _ => trivial⟩

theorem merging_eq : Merging (Eq (α := Bindings α)) :=
  ⟨fun _ => rfl, .trans, fun h h' => by rw [h, h']⟩

variable {E : Bindings α → Bindings α → Prop} {m : Matches α} {calm calm' : Prop}
  {S T : Nat → Bindings α → Prop}

theorem Lists.congr (h : Lists E m calm S) (calms : calm ↔ calm') (same : ∀ c r, S c r ↔ T c r) :
    Lists E m calm' T :=
  ⟨fun c r hc => (same c r).1 (h.sound c r hc), h.ends, h.done_iff.trans calms,
    fun hl c r hc => h.complete hl c r ((same c r).2 hc)⟩

theorem Lists.finds (h : Lists E m calm S) : Finds m S :=
  ⟨h.sound, h.ends, .rfl, fun hl c r hc => (h.complete hl c r hc).imp fun _ hr => ⟨trivial, hr.2⟩⟩

theorem lists_done (h : ∀ c r, ¬ S c r) : Lists E (done : Matches α) True S :=
  ⟨nofun, nofun, iff_of_true rfl trivial, fun _ c r hc => absurd hc (h c r)⟩

theorem lists_fail (S : Nat → Bindings α → Prop) : Lists E (fail : Matches α) False S :=
  ⟨nofun, nofun, iff_of_false nofun id, nofun⟩

variable {n : Nat} {names r : Bindings α} {next : Unit → Matches α}
  {f : Nat → Bindings α → Nat × Bindings α}

theorem lists_only (h : S n names) (others : ∀ c r, S c r → c = n ∧ E r names) :
    Lists E (only n names) True S := by
  refine ⟨fun c r hc => ?_, nofun, iff_of_true rfl trivial, fun _ c r hc => ?_⟩
  · cases mem_singleton.1 hc
    exact h
  · obtain ⟨rfl, related⟩ := others c r hc
    exact ⟨names, related, mem_cons_self⟩

theorem finds_done (h : ∀ c r, ¬ S c r) : Finds (done : Matches α) S :=
  (lists_done (E := fun _ _ => True) h).finds

theorem finds_fail (S : Nat → Bindings α → Prop) : Finds (fail : Matches α) S :=
  (lists_fail (E := fun _ _ => True) S).finds

theorem finds_only (h : S n names) (others : ∀ c r, S c r → c = n) : Finds (only n names) S :=
  (lists_only (E := fun _ _ => True) h fun c r hc => ⟨others c r hc, trivial⟩).finds

/-! ## One search and then another -/

theorem last_append (m : Matches α) (next : Unit → Matches α) :
    (m.append next).last = if m.last = .done then (next ()).last else m.last := by
  induction m with
  | done | fail | endless => rfl
  | found c r more ih => exact ih ()

theorem ways_append (m : Matches α) (next : Unit → Matches α) :
    (m.append next).ways = m.ways ++ if m.last = .done then (next ()).ways else [] := by
  induction m with
  | done | fail | endless => rfl
  | found c r more ih => exact congrArg ((c, r) :: ·) (ih ())

theorem Lists.append_of (h : Lists E m calm S) (h' : m.last = .done → Lists E (next ()) calm' T) :
    Lists E (m.append next) (calm ∧ calm') fun c r => S c r ∨ T c r := by
  have ways := ways_append m next
  have last := last_append m next
  by_cases hl : m.last = .done
  · have h' := h' hl
    rw [if_pos hl] at ways last
    refine ⟨fun c r hc => ?_, last ▸ h'.ends, ?_, fun hd c r hc => ?_⟩
    · rw [ways, mem_append] at hc
      exact hc.imp (h.sound c r) (h'.sound c r)
    · rw [last, h'.done_iff, and_iff_right (h.done_iff.1 hl)]
    · rw [ways]
      simp only [mem_append]
      rcases hc with hc | hc
      · obtain ⟨r', related, hr⟩ := h.complete hl c r hc
        exact ⟨r', related, .inl hr⟩
      · obtain ⟨r', related, hr⟩ := h'.complete (last ▸ hd) c r hc
        exact ⟨r', related, .inr hr⟩
  · rw [if_neg hl] at ways last
    rw [append_nil] at ways
    refine ⟨fun c r hc => .inl (h.sound c r (ways ▸ hc)), last ▸ h.ends, ?_, fun hd => ?_⟩
    · exact iff_of_false (last ▸ hl) fun both => hl (h.done_iff.2 both.1)
    · exact absurd (last ▸ hd) hl

theorem Lists.append (h : Lists E m calm S)
    (h' : Lists E (next ()) calm' T) :
    Lists E (m.append next) (calm ∧ calm') fun c r => S c r ∨ T c r :=
  h.append_of fun _ => h'

theorem last_map (f : Nat → Bindings α → Nat × Bindings α) (m : Matches α) :
    (m.map f).last = m.last := by
  induction m with
  | done | fail | endless => rfl
  | found c r more ih => exact ih ()

theorem ways_map (f : Nat → Bindings α → Nat × Bindings α) (m : Matches α) :
    (m.map f).ways = m.ways.map fun w => f w.1 w.2 := by
  induction m with
  | done | fail | endless => rfl
  | found c r more ih =>
    rw [map, ways, ways, map_cons, ih]

theorem Lists.map (h : Lists E m calm S)
    (counts : ∀ c r r', E r r' → (f c r).1 = (f c r').1 ∧ E (f c r).2 (f c r').2) :
    Lists E (m.map f) calm fun n names => ∃ c r, S c r ∧ f c r = (n, names) := by
  have last := last_map f m
  refine ⟨fun n names hn => ?_, last ▸ h.ends, last ▸ h.done_iff, ?_⟩
  · rw [ways_map] at hn
    obtain ⟨⟨c, r⟩, hc, eq⟩ := mem_map.1 hn
    exact ⟨c, r, h.sound c r hc, eq⟩
  · rintro hl n names ⟨c, r, hc, eq⟩
    obtain ⟨r', related, hr⟩ := h.complete (last ▸ hl) c r hc
    obtain ⟨count, related⟩ := counts c r r' related
    rw [eq] at count related
    refine ⟨(f c r').2, related, ?_⟩
    rw [ways_map]
    exact mem_map.2 ⟨(c, r'), hr, Prod.ext count.symm rfl⟩

theorem Lists.after (merging : Merging E) (h : Lists E m calm S) (count : Nat) (names : Bindings α) :
    Lists E (m.after count names) calm fun n r =>
      ∃ c s, S c s ∧ n = count + c ∧ r = OrderedMap.update names s := by
  refine (h.map fun _ _ _ related => ⟨rfl, merging.update (merging.refl names) related⟩).congr .rfl
    fun n r => ?_
  refine exists_congr fun c => exists_congr fun s => and_congr_right fun _ => ?_
  rw [Prod.mk.injEq, eq_comm, @eq_comm _ _ r]

theorem Lists.bind (merging : Merging E) {f : Nat → Bindings α → Matches α} {g : Nat → Matches α}
    {calms : Nat → Prop} {T : Nat → Nat → Bindings α → Prop} (h : Lists E m calm S)
    (hf : ∀ c r, S c r → f c r = (g c).after c r)
    (hg : ∀ c r, S c r → Lists E (g c) (calms c) (T c)) :
    Lists E (m.bind f) (calm ∧ ∀ c r, S c r → calms c) fun n names => ∃ c r, S c r ∧
      ∃ d s, T c d s ∧ n = c + d ∧ names = OrderedMap.update r s := by
  have search : Lists E (m.bind f) (m.last = .done ∧ ∀ c r, (c, r) ∈ m.ways → calms c) fun n names =>
      ∃ c r, (c, r) ∈ m.ways ∧ ∃ d s, T c d s ∧ n = c + d ∧ names = .update r s := by
    have sound := h.sound
    have ends := h.ends
    clear h
    induction m with
    | done => exact (lists_done nofun).congr (iff_of_true trivial ⟨rfl, nofun⟩) fun _ _ => .rfl
    | fail => exact (lists_fail _).congr (iff_of_false id fun h => nomatch h.1) fun _ _ => .rfl
    | endless => exact absurd rfl ends
    | found c r more ih =>
      have first := sound c r mem_cons_self
      have later := ih () (fun c r hc => sound c r (mem_cons_of_mem _ hc)) ends
      have here := (hg c r first).after merging c r
      rw [← hf c r first] at here
      refine (here.append later).congr ?_ fun n names => ?_
      · rw [and_left_comm]
        refine and_congr_right fun _ => ⟨?_, fun all => ⟨all c r (.head _), fun c' r' hc => ?_⟩⟩
        · rintro ⟨first, later⟩ c' r' hc
          rcases mem_cons.1 hc with same | hc
          · exact (Prod.mk.inj same).1 ▸ first
          · exact later c' r' hc
        · exact all c' r' (.tail _ hc)
      · simp only [ways, mem_cons, Prod.mk.injEq]
        constructor
        · rintro (hn | ⟨c', r', hc, hn⟩)
          · exact ⟨c, r, .inl ⟨rfl, rfl⟩, hn⟩
          · exact ⟨c', r', .inr hc, hn⟩
        · rintro ⟨c', r', ⟨rfl, rfl⟩ | hc, hn⟩
          · exact .inl hn
          · exact .inr ⟨c', r', hc, hn⟩
  refine ⟨fun n names hn => ?_, search.ends, search.done_iff.trans ?_, ?_⟩
  · obtain ⟨c, r, hc, hn⟩ := search.sound n names hn
    exact ⟨c, r, h.sound c r hc, hn⟩
  · rw [← h.done_iff]
    refine and_congr_right fun hl => ⟨fun all c r hc => ?_, fun all c r hc => all c r (h.sound c r hc)⟩
    obtain ⟨r', -, hr⟩ := h.complete hl c r hc
    exact all c r' hr
  · rintro hl n names ⟨c, r, hc, d, s, hd, rfl, rfl⟩
    -- the names of the way that is found for the first part can be others
    obtain ⟨r', related, hr⟩ := h.complete (search.done_iff.1 hl).1 c r hc
    obtain ⟨names, related', mem⟩ := search.complete hl _ _ ⟨c, r', hr, d, s, hd, rfl, rfl⟩
    exact ⟨names, merging.trans (merging.update related (merging.refl s)) related', mem⟩

/-! ## Ways that were found before -/

def ofWays : List (Nat × Bindings α) → Matches α
  | [] => done
  | (c, r) :: ways => found c r fun _ => ofWays ways

theorem ways_ofWays (ws : List (Nat × Bindings α)) : (ofWays ws).ways = ws := by
  induction ws with
  | nil => rfl
  | cons w ws ih => exact congrArg (w :: ·) ih

theorem last_ofWays (ws : List (Nat × Bindings α)) : (ofWays ws).last = .done := by
  induction ws with
  | nil => rfl
  | cons w ws ih => exact ih

theorem collecting_eq (m : Matches α) (ws : List (Nat × Bindings α))
    (next : List (Nat × Bindings α) → Matches α) :
    m.collecting ws next = m.append fun _ => next (ws ++ m.ways) := by
  induction m generalizing ws with
  | done => exact congrArg next (append_nil ws).symm
  | fail | endless => rfl
  | found c r more ih =>
    rw [collecting]
    congr 1
    funext u
    rw [ih u, append_assoc]
    rfl

theorem ways_nonempty (m : Matches α) : m.nonempty.ways = m.ways.filter fun w => w.1 ≠ 0 := by
  induction m with
  | done | fail | endless => rfl
  | found c r more ih =>
    by_cases zero : c = 0 <;> simp [nonempty, ways, zero, ih ()]

theorem last_nonempty (m : Matches α) : m.nonempty.last = m.last := by
  induction m with
  | done | fail | endless => rfl
  | found c r more ih =>
    rw [nonempty]
    split <;> exact ih ()

theorem Lists.recover (h : Lists E m calm S) : Lists E (m.recover next) calm S := by
  have same : m.recover next = m := by
    have ends := h.ends
    clear h
    induction m with
    | done | fail => rfl
    | endless => exact absurd rfl ends
    | found c r more ih =>
      rw [Matches.recover]
      congr 1
      funext u
      exact ih u ends
  rwa [same]

theorem mem_ways_of_exactly (h : m.exactly n = .yes r) : (n, r) ∈ m.ways := by
  induction m with
  | done | fail | endless => cases h
  | found c r' more ih =>
    rw [exactly] at h
    split at h
    · rename_i eq
      cases h
      exact eq ▸ mem_cons_self
    · exact mem_cons_of_mem _ (ih () h)

theorem notMem_ways_of_exactly (h : m.exactly n = .no) :
    (∀ r, (n, r) ∉ m.ways) ∧ (m.last ≠ .endless → m.last = .done) := by
  induction m with
  | done => exact ⟨nofun, fun _ => rfl⟩
  | fail => cases h
  | endless => exact ⟨nofun, absurd rfl⟩
  | found c r more ih =>
    rw [exactly] at h
    split at h
    · cases h
    · rename_i ne
      obtain ⟨unseen, ends⟩ := ih () h
      refine ⟨fun r' hr => ?_, ends⟩
      rcases mem_cons.1 hr with same | hr
      · exact ne (congrArg Prod.fst same).symm
      · exact unseen r' hr

theorem Lists.exactly (h : Lists E m calm S) (n : Nat) : (m.exactly n).Reports (S n) := by
  refine ⟨fun r hr => h.sound n r (mem_ways_of_exactly hr), fun hn r hs => ?_⟩
  obtain ⟨unseen, ends⟩ := notMem_ways_of_exactly hn
  obtain ⟨r', -, hr⟩ := h.complete (ends h.ends) n r hs
  exact unseen r' hr

/-! ## What holds of every way -/

def All (m : Matches α) (P : Nat → Bindings α → Prop) : Prop := ∀ c r, (c, r) ∈ m.ways → P c r

variable {P Q : Nat → Bindings α → Prop}

theorem All.mono (h : m.All P) (imp : ∀ c r, P c r → Q c r) : m.All Q :=
  fun c r hc => imp c r (h c r hc)

theorem all_found {c : Nat} {more : Unit → Matches α} :
    (found c r more).All P ↔ P c r ∧ (more ()).All P := by
  simp only [All, ways, mem_cons, Prod.mk.injEq]
  constructor
  · exact fun h => ⟨h c r (.inl ⟨rfl, rfl⟩), fun c' r' hc => h c' r' (.inr hc)⟩
  · rintro ⟨first, later⟩ c' r' (⟨rfl, rfl⟩ | hc)
    · exact first
    · exact later c' r' hc

theorem all_done : (done : Matches α).All P := nofun

theorem all_fail : (fail : Matches α).All P := nofun

theorem all_endless : (endless : Matches α).All P := nofun

theorem all_only (h : P n names) : (only n names).All P :=
  all_found.2 ⟨h, all_done⟩

theorem All.append (h : m.All P) (h' : (next ()).All P) : (m.append next).All P := by
  intro c r hc
  rw [ways_append, mem_append] at hc
  rcases hc with hc | hc
  · exact h c r hc
  · split at hc
    · exact h' c r hc
    · cases hc

theorem All.map (h : m.All P) (hf : ∀ c r, P c r → Q (f c r).1 (f c r).2) : (m.map f).All Q := by
  intro n _ hn
  rw [ways_map] at hn
  obtain ⟨⟨c, r⟩, hc, eq⟩ := mem_map.1 hn
  have := hf c r (h c r hc)
  rwa [eq] at this

theorem All.bind {f : Nat → Bindings α → Matches α} (h : m.All P)
    (hf : ∀ c r, P c r → (f c r).All Q) : (m.bind f).All Q := by
  induction m with
  | done | fail | endless => nofun
  | found c r more ih =>
    obtain ⟨first, later⟩ := all_found.1 h
    exact (hf c r first).append (ih () later)

theorem All.nonempty (h : m.All P) : m.nonempty.All P := by
  intro c r hc
  rw [ways_nonempty] at hc
  exact h c r (mem_filter.1 hc).1

theorem All.recover (h : m.All P) (h' : (next ()).All P) : (m.recover next).All P := by
  induction m with
  | done | fail => nofun
  | endless => exact h'
  | found c r more ih =>
    obtain ⟨first, later⟩ := all_found.1 h
    exact all_found.2 ⟨first, ih () later⟩

theorem All.collecting {ways : List (Nat × Bindings α)} {next : List (Nat × Bindings α) → Matches α}
    (h : m.All P) (before : ∀ c r, (c, r) ∈ ways → P c r)
    (h' : ∀ ws, (∀ c r, (c, r) ∈ ws → P c r) → (next ws).All P) :
    (m.collecting ways next).All P := by
  rw [collecting_eq]
  exact h.append (h' _ fun c r hc => (mem_append.1 hc).elim (before c r) (h c r))

theorem All.of_exactly (h : m.All P) (hr : m.exactly n = .yes r) : P n r :=
  h n r (mem_ways_of_exactly hr)

end Matches

end Retouch
