import Mathlib.Data.List.Perm.Basic
import Retouch.Fixes
import Retouch.Proofs.Maps
import Retouch.Refactor.Catalog

/-!
# The order in which fixers are tried

Fixers of lower rank are meant to be tried first.  Loading sorts the fixers by rank, but what is tried
on a tree is put together anew for each kind of tree: first the fixers that ask for the kind, and
after all of these the ones that see every tree.  Each of the two parts keeps the order of the ranks, so
the whole is in order exactly if no fixer that asks for the kind has a higher rank than one that sees
every tree (`Catalog.tried_inOrder_iff`).  The fixers of the package do not always meet this condition
(`Catalog.tried_not_inOrder`).
-/

namespace Retouch

open List Language.Symbol

/-! ## Sorted fixers -/

def Worker.Precedes (a b : Worker) : Prop := a.fixer.rank ≤ b.fixer.rank

instance (a b : Worker) : Decidable (a.Precedes b) := inferInstanceAs (Decidable (_ ≤ _))

theorem pairwise_byRank (fs : List Fixer) : (byRank fs).Pairwise fun a b => a.rank ≤ b.rank := by
  let le : Fixer → Fixer → Bool := fun a b => a.rank ≤ b.rank
  have trans : ∀ a b c, le a b = true → le b c = true → le a c = true := by
    intro a b c
    simp only [le, decide_eq_true_eq]
    exact Nat.le_trans
  have total : ∀ a b, (le a b || le b a) = true := by
    intro a b
    simp only [le, Bool.or_eq_true, decide_eq_true_eq]
    exact Nat.le_total _ _
  have sorted : (byRank fs).Pairwise fun a b => le a b = true := pairwise_mergeSort trans total fs
  simpa only [le, decide_eq_true_eq] using sorted

theorem perm_byRank (fs : List Fixer) : (byRank fs).Perm fs := mergeSort_perm fs _

theorem Worker.map_fixer_number (n : Nat) (fs : List Fixer) : (number n fs).map fixer = fs := by
  induction fs generalizing n with
  | nil => rfl
  | cons f fs ih => rw [number, map_cons, ih]

theorem Worker.pairwise_number {n : Nat} {fs : List Fixer}
    (h : fs.Pairwise fun a b => a.rank ≤ b.rank) : (number n fs).Pairwise Precedes := by
  rwa [← map_fixer_number n fs, pairwise_map] at h

/-! ## Fixers of a team -/

def Team.workers (team : Team) : Order → List Worker
  | .pre => team.pre
  | .post => team.post
  | .other _ => []

theorem Team.exists_workers_ofFixers (fs : List Fixer) {order : Order}
    (known : order = .pre ∨ order = .post) : ∃ n,
      (ofFixers fs).workers order = Worker.number n (byRank (fs.filter fun f => f.order = order)) := by
  rcases known with rfl | rfl
  · exact ⟨_, rfl⟩
  · exact ⟨_, rfl⟩

/-! ## What is tried on a tree -/

/-- Is the fixer to be tried on trees of a kind?  One that sees every tree is offered the kinds of the
grammar only. -/
def Fixer.isFor (k : Kind) (f : Fixer) : Bool :=
  match Worker.headsOf f with
  | .of ks => ks.contains k
  | .every => isProgramKind k
  | .none => false

variable {k : Kind}

theorem not_asksFor_of_seesAll {w : Worker} (h : w.seesAll = true) : w.asksFor k = false := by
  have every : w.heads = .every := by simpa [Worker.seesAll] using h
  rw [Worker.asksFor, every]

theorem fixersFor_eq_some {ws tried : List Worker} (h : fixersFor ws k = some tried) :
    tried = ws.filter (Worker.asksFor k) ++
      ws.filter fun w => isProgramKind k && w.seesAll := by
  unfold fixersFor at h
  by_cases program : isProgramKind k = true
  · rw [if_pos program] at h
    simpa [program] using (Option.some.inj h).symm
  · rw [if_neg program] at h
    split at h
    · cases h
    · simpa [program] using (Option.some.inj h).symm

theorem perm_of_fixersFor {ws tried : List Worker} (h : fixersFor ws k = some tried) :
    tried.Perm (ws.filter fun w => w.asksFor k || (isProgramKind k && w.seesAll)) := by
  rw [fixersFor_eq_some h]
  set wanted : Worker → Bool := fun w => w.asksFor k || (isProgramKind k && w.seesAll) with hwanted
  have asking : (ws.filter wanted).filter (Worker.asksFor k) = ws.filter (Worker.asksFor k) := by
    rw [filter_filter]
    refine filter_congr fun w _ => ?_
    simp only [hwanted]
    cases w.asksFor k <;> simp
  have seeing : (ws.filter wanted).filter (fun w => !w.asksFor k) =
      ws.filter fun w => isProgramKind k && w.seesAll := by
    rw [filter_filter]
    refine filter_congr fun w _ => ?_
    simp only [hwanted]
    by_cases sees : w.seesAll = true
    · simp [not_asksFor_of_seesAll sees]
    · cases w.asksFor k <;> simp [sees]
  rw [← asking, ← seeing]
  exact filter_append_perm _ _

theorem map_fixer_filter (k : Kind) (n : Nat) (fs : List Fixer) :
    ((Worker.number n fs).filter fun w => w.asksFor k || (isProgramKind k && w.seesAll)).map
      Worker.fixer = fs.filter (Fixer.isFor k) := by
  induction fs generalizing n with
  | nil => rfl
  | cons f fs ih =>
    have same : ((⟨f, Worker.headsOf f, n⟩ : Worker).asksFor k ||
        (isProgramKind k && (⟨f, Worker.headsOf f, n⟩ : Worker).seesAll)) = f.isFor k := by
      unfold Worker.asksFor Worker.seesAll Fixer.isFor
      cases Worker.headsOf f <;> simp
    rw [Worker.number, filter_cons, filter_cons, same]
    split
    · rw [map_cons, ih]
    · exact ih (n + 1)

/-- **When fixers are tried in the order of their ranks.**  What is tried on a tree of a kind are the
loaded fixers for the kind, each once: first those that ask for the kind, in the order of their ranks,
and then those that see every tree, in the order of theirs.  So all of them come in the order of their
ranks exactly if none that asks for the kind has a higher rank than one that sees every tree. -/
theorem Catalog.tried_inOrder_iff {c : Catalog} {request : Request} {modules : List Text} {team : Team}
    (made : (c.team request modules).2 = .ok team) :
    ∃ fs, (c.load request modules).2 = .ok fs ∧
      ∀ order k tried, order = .pre ∨ order = .post → fixersFor (team.workers order) k = some tried →
        ∃ asking seeing, tried = asking ++ seeing ∧
          (tried.map Worker.fixer).Perm (fs.filter fun f => f.order = order ∧ f.isFor k) ∧
          (∀ w ∈ asking, w.asksFor k = true) ∧ (∀ w ∈ seeing, w.seesAll = true) ∧
          asking.Pairwise Worker.Precedes ∧ seeing.Pairwise Worker.Precedes ∧
          (tried.Pairwise Worker.Precedes ↔ ∀ a ∈ asking, ∀ b ∈ seeing, a.Precedes b) := by
  obtain ⟨fs, loaded, rfl⟩ : ∃ fs, (c.load request modules).2 = .ok fs ∧ team = Team.ofFixers fs := by
    unfold Catalog.team at made
    cases loaded : (c.load request modules).2 with
    | error e => simp [loaded, Except.map] at made
    | ok fs => exact ⟨fs, rfl, by simpa [loaded, Except.map] using made.symm⟩
  refine ⟨fs, loaded, fun order k tried known h => ?_⟩
  obtain ⟨n, workers⟩ := Team.exists_workers_ofFixers fs known
  rw [workers] at h
  have sorted := Worker.pairwise_number (n := n) (pairwise_byRank (fs.filter fun f => f.order = order))
  have parts := fixersFor_eq_some h
  refine ⟨_, _, parts, ?_, ?_, ?_, sorted.filter _, sorted.filter _, ?_⟩
  · have chosen := (perm_of_fixersFor h).map Worker.fixer
    rw [map_fixer_filter] at chosen
    refine chosen.trans (((perm_byRank _).filter _).trans (List.Perm.of_eq ?_))
    rw [filter_filter]
    refine filter_congr fun f _ => ?_
    rw [Bool.and_comm, Bool.decide_and, Bool.decide_eq_true]
  · intro w hw
    exact (mem_filter.1 hw).2
  · intro w hw
    exact (Bool.and_eq_true_iff.1 (mem_filter.1 hw).2).2
  · rw [parts, pairwise_append]
    exact ⟨fun both => both.2.2, fun across => ⟨sorted.filter _, sorted.filter _, across⟩⟩

def Catalog.mixed : Catalog := .ofPackage "fixes" [Fixes.future, Fixes.ne, Fixes.wsComma]

theorem byRank_mixed : byRank [Fixes.future, Fixes.ne, Fixes.wsComma] =
    [Fixes.ne, Fixes.wsComma, Fixes.future] := by
  have ranks : Fixes.future.rank = 10 ∧ Fixes.ne.rank = 5 ∧ Fixes.wsComma.rank = 5 := ⟨rfl, rfl, rfl⟩
  simp [byRank, mergeSort, ranks]

theorem Catalog.team_mixed :
    (mixed.team .all ["fixes.fix_future", "fixes.fix_ne", "fixes.fix_ws_comma"]).2 = .ok
      { pre := [], post := Worker.number 0 [Fixes.ne, Fixes.wsComma, Fixes.future] } := by
  have made : (mixed.team .all ["fixes.fix_future", "fixes.fix_ne", "fixes.fix_ws_comma"]).2 = .ok
      (Team.ofFixers [Fixes.future, Fixes.ne, Fixes.wsComma]) := rfl
  rw [made, ← byRank_mixed]
  have post : [Fixes.future, Fixes.ne, Fixes.wsComma].filter (fun f => f.order = .post) =
      [Fixes.future, Fixes.ne, Fixes.wsComma] := rfl
  have pre : [Fixes.future, Fixes.ne, Fixes.wsComma].filter (fun f => f.order = .pre) = [] := rfl
  simp [Team.ofFixers, post, pre, byRank, Worker.number]

theorem headsOf_mixed : Worker.headsOf Fixes.ne = .of [Kind.notEqual] ∧
    Worker.headsOf Fixes.wsComma = .every ∧
    Worker.headsOf Fixes.future = .of [importFrom] := by
  decide +kernel

/-- On the old sign of inequality its own fixer is tried before the one for commas, which is of the same
rank. -/
theorem Catalog.tried_inOrder_notEqual :
    fixersFor (Worker.number 0 [Fixes.ne, Fixes.wsComma, Fixes.future]) Kind.notEqual =
        some [⟨Fixes.ne, .of [Kind.notEqual], 0⟩, ⟨Fixes.wsComma, .every, 1⟩] ∧
      [(⟨Fixes.ne, .of [Kind.notEqual], 0⟩ : Worker), ⟨Fixes.wsComma, .every, 1⟩].Pairwise
        Worker.Precedes := by
  have tried : fixersFor (Worker.number 0 [Fixes.ne, Fixes.wsComma, Fixes.future]) Kind.notEqual =
      some [⟨Fixes.ne, .of [Kind.notEqual], 0⟩, ⟨Fixes.wsComma, .every, 1⟩] := by
    have program : isProgramKind Kind.notEqual = true := by decide +kernel
    simp only [fixersFor, Worker.number, headsOf_mixed, program]
    rfl
  obtain ⟨fs, -, h⟩ := tried_inOrder_iff team_mixed
  obtain ⟨asking, seeing, eq, -, -, -, -, -, inOrder⟩ := h .post _ _ (.inr rfl) tried
  have ranks : ∀ w ∈ asking ++ seeing, w.fixer.rank = 5 := by
    rw [← eq]
    simp only [forall_mem_cons]
    exact ⟨rfl, rfl, nofun⟩
  refine ⟨tried, inOrder.2 fun a ha b hb => ?_⟩
  have same : a.fixer.rank = b.fixer.rank :=
    (ranks a (mem_append_left _ ha)).trans (ranks b (mem_append_right _ hb)).symm
  exact Nat.le_of_eq same

/-- The fixer for features has rank 10, and yet it is tried on imports before the one for commas, which
has rank 5. -/
theorem Catalog.tried_not_inOrder :
    (mixed.team .all ["fixes.fix_future", "fixes.fix_ne", "fixes.fix_ws_comma"]).2 = .ok
        { pre := [], post := Worker.number 0 [Fixes.ne, Fixes.wsComma, Fixes.future] } ∧
      fixersFor (Worker.number 0 [Fixes.ne, Fixes.wsComma, Fixes.future]) importFrom =
        some [⟨Fixes.future, .of [importFrom], 2⟩, ⟨Fixes.wsComma, .every, 1⟩] ∧
      ¬ [(⟨Fixes.future, .of [importFrom], 2⟩ : Worker),
        ⟨Fixes.wsComma, .every, 1⟩].Pairwise Worker.Precedes := by
  refine ⟨team_mixed, ?_, by decide⟩
  have program : isProgramKind importFrom = true := by decide +kernel
  simp only [fixersFor, Worker.number, headsOf_mixed, program]
  rfl

end Retouch
