import Retouch.Proofs.Walks
import Retouch.Refactor.Traversal

/-!
# Traversals

The walk through a program goes on through the tree as the fixers have left it.  Where these keep a tree
in the forest and change it by putting other trees in the place of parts (`Leads`), the walk comes by the
nodes that the tree had when the walk began, each once and after those below it, and by no other
(`traverse_upward`).
-/

namespace Retouch

open List Tree Forest

variable {α β : Type} {ws : List Worker} {job job' : Job}

/-! ## Running steps -/

variable {x : Fix α} {limit : Nat} {t : Tree NodeId}

theorem Fix.bind_of_ok {a : α} {job₁ : Job} (h : x job = .ok a job₁) (g : α → Fix β) :
    (x >>= g) job = g a job₁ := by
  simp [bind, EStateM.bind, h]

theorem Fix.bind_congr {g g' : α → Fix β} (h : ∀ a job₁, x job = .ok a job₁ → g a job₁ = g' a job₁) :
    (x >>= g) job = (x >>= g') job := by
  cases run : x job with
  | ok a job₁ => rw [bind_of_ok run, bind_of_ok run, h a job₁ run]
  | error e job₁ => simp [bind, EStateM.bind, run]

theorem kindOf_run (i : NodeId) (job : Job) :
    (kindOf i : Fix Kind) job = .ok (job.forest.kind i) job :=
  rfl

theorem mem_of_mem_fixersFor {k : Kind} {us : List Worker} (h : fixersFor ws k = some us) {w : Worker}
    (hw : w ∈ us) : w ∈ ws := by
  dsimp only [fixersFor] at h
  split at h
  · cases h
    rcases mem_append.1 hw with hw | hw
    · exact (mem_filter.1 hw).1
    · exact (mem_filter.1 hw).1
  · split at h
    · cases h
    · cases h
      exact (mem_filter.1 hw).1

/-! ## Offering trees one after the other -/

/-- Offer the trees at numbers to the fixers that ask for them, one after the other. -/
def offerEach (ws : List Worker) : List NodeId → Fix Unit
  | [] => pure ()
  | i :: is => do
    offer (← orFault .unknown (fixersFor ws (← kindOf i))) i
    offerEach ws is

theorem offerEach_append (ws : List Worker) (is js : List NodeId) :
    offerEach ws (is ++ js) = offerEach ws is >>= fun _ => offerEach ws js := by
  induction is with
  | nil => simp [offerEach]
  | cons i is ih => simp [offerEach, ih]

theorem offerEach_singleton (ws : List Worker) (i : NodeId) (job : Job) : offerEach ws [i] job =
    match fixersFor ws (job.forest.kind i) with
    | some us => offer us i job
    | none => .error .unknown job := by
  rw [offerEach, Fix.bind_of_ok (kindOf_run i job)]
  cases fixersFor ws (job.forest.kind i) with
  | none => rfl
  | some us =>
    show (offer us i >>= fun _ => pure ()) job = offer us i job
    rw [bind_pure_unit]

theorem offerEach_nil (is : List NodeId) (job : Job) : offerEach [] is job =
    if is.all fun i => isProgramKind (job.forest.kind i) then .ok () job else .error .unknown job := by
  induction is with
  | nil => rfl
  | cons i is ih =>
    rw [offerEach, Fix.bind_of_ok (kindOf_run i job), all_cons]
    cases known : isProgramKind (job.forest.kind i) with
    | true =>
      have none : fixersFor [] (job.forest.kind i) = some [] := by
        rw [fixersFor, known]
        rfl
      rw [none, Bool.true_and, ← ih]
      rfl
    | false =>
      have unknown : fixersFor [] (job.forest.kind i) = none := by
        rw [fixersFor, known]
        rfl
      rw [unknown]
      rfl

/-- Whenever the parts of a tree in the forest are offered, there is some tree in its place afterwards,
and the nodes above remember their children. -/
def Leads (ws : List Worker) : Prop :=
  ∀ {v : Tree NodeId} {path : Path NodeId} {job job' : Job}, Whole job.forest (path.plug v) →
    offerEach ws v.upward job = .ok () job' →
      ∃ v' : Tree NodeId, Whole job'.forest (path.plug v') ∧
        ∀ j ∈ path.tags, Remembers job.forest job'.forest j

theorem leads_nil : Leads [] := by
  intro v _ _ _ here run
  rw [offerEach_nil] at run
  split at run
  · cases run
    exact ⟨v, here, fun j _ => .refl _ j⟩
  · cases run

/-! ## The walk -/

section

variable {w w' : Walk} {n : Nat} {i : NodeId} {path : Path NodeId} {k : Kind} {todo : List (Tree NodeId)}

theorem traverse_of_none (last : w.next job.forest = none) : traverse ws n w job = .ok () job := by
  cases n with
  | zero => rfl
  | succ n =>
    simp only [traverse, bind, EStateM.bind, get_ok, last]
    rfl

theorem traverse_of_some (found : w.next job.forest = some (i, w')) :
    traverse ws (n + 1) w job = (offerEach ws [i] >>= fun _ => traverse ws n w') job := by
  simp only [offerEach, bind_assoc, pure_bind]
  simp [traverse, bind, EStateM.bind, get_ok, found]

theorem traverse_congr (same : w.next job.forest = w'.next job.forest) (n : Nat) :
    traverse ws n w job = traverse ws n w' job := by
  cases n with
  | zero => rfl
  | succ n =>
    cases found : w.next job.forest with
    | none => rw [traverse_of_none found, traverse_of_none (same ▸ found)]
    | some r => rw [traverse_of_some found, traverse_of_some (same ▸ found)]

/-- A walk that enters the tree, wherever it stands, offers its parts. -/
def Entered (ws : List Worker) (c : Tree NodeId) : Prop :=
  ∀ (path : Path NodeId) (job : Job), Whole job.forest (path.plug c) → ∀ n rest,
    traverse ws (c.nodes.length + n) (.enter c.tag true :: rest) job =
      (offerEach ws c.upward >>= fun _ => traverse ws n rest) job

theorem traverse_below (leads : Leads ws) (each : ∀ c ∈ todo, Entered ws c) {generation place : Nat}
    {closing : Bool} (done : List (Tree NodeId))
    (here : Whole job.forest (path.plug (.node i k (done ++ todo))))
    (begun : generation ≤ job.forest.generation i)
    (list : ∀ m, (job.forest.childrenAt i generation)[place + m]? = (todo.map tag)[m]?) {rest : Walk}
    {finish : Fix Unit}
    (behind : ∀ job₁ place, (job₁.forest.childrenAt i generation)[place]? = none →
      traverse ws n (.goOn i generation place closing :: rest) job₁ = finish job₁) :
    traverse ws ((nodesAll todo).length + n) (.goOn i generation place closing :: rest) job =
      (offerEach ws (upwardAll todo) >>= fun _ => finish) job := by
  induction todo generalizing done job place with
  | nil =>
    rw [nodesAll, length_nil, Nat.zero_add]
    exact behind job place (list 0)
  | cons c todo ih =>
    have stands : job.forest.Stands c := by
      refine here.stands.part ?_
      exact child_mem_nodes (Path.mem_nodes_plug path _) (by simp [Tree.children])
    have child : (job.forest.childrenAt i generation)[place]? = some c.tag := list 0
    have length : (nodesAll (c :: todo)).length + n = c.nodes.length + ((nodesAll todo).length + n) := by
      rw [nodesAll, length_append, Nat.add_assoc]
    rw [traverse_congr (Walk.next_goOn_some stands child), length,
      each c mem_cons_self (⟨i, k, done, todo⟩ :: path) job here, upwardAll, offerEach_append, bind_assoc]
    refine Fix.bind_congr fun _ job₁ first => ?_
    -- whatever became of the child, the node remembers the children it had
    obtain ⟨c', here₁, later⟩ := @leads _ (⟨i, k, done, todo⟩ :: path) _ _ here first
    have kept := later i mem_cons_self
    rw [Path.plug_cons, Frame.fill, ← append_assoc] at here₁
    refine ih (fun d hd => each d (mem_cons_of_mem _ hd)) (done ++ [c']) here₁
      (Nat.le_trans begun kept.le) fun m => ?_
    rw [kept.lists generation begun, Nat.add_right_comm]
    exact list (m + 1)

theorem traverse_children (leads : Leads ws) {cs : List (Tree NodeId)} (each : ∀ c ∈ cs, Entered ws c)
    (here : Whole job.forest (path.plug (.node i k cs))) {closing : Bool} {rest : Walk} {finish : Fix Unit}
    (behind : ∀ job₁ place,
      (job₁.forest.childrenAt i (job.forest.generation i))[place]? = none →
        traverse ws n (.goOn i (job.forest.generation i) place closing :: rest) job₁ = finish job₁) :
    traverse ws ((nodesAll cs).length + n) (.goOn i (job.forest.generation i) 0 closing :: rest) job =
      (offerEach ws (upwardAll cs) >>= fun _ => finish) job := by
  refine traverse_below leads each [] here (Nat.le_refl _) (fun m => ?_) behind
  rw [here.stands.plugged.childrenAt_eq, Nat.zero_add]

theorem traverse_enter (leads : Leads ws) (v : Tree NodeId) : Entered ws v := by
  induction v using induct with
  | leaf i l =>
    intro path job here n rest
    have stands := here.stands.plugged
    rw [show (leaf i l).nodes.length + n = n + 1 from Nat.add_comm 1 n, tag,
      traverse_of_some (Walk.next_enter_leaf stands)]
    rfl
  | node i k cs ih =>
    intro path job here n rest
    rw [tag, traverse_congr (Walk.next_enter_node here.stands.plugged), length_nodes_add, upward,
      offerEach_append, bind_assoc]
    exact traverse_children leads ih here fun _ _ last =>
      traverse_of_some (Walk.next_goOn_none last)

end

/-- **The walk comes by the nodes that the tree had when the walk began**, each after those below it. -/
theorem traverse_upward (leads : Leads ws) (here : Whole job.forest t)
    (enough : t.nodes.length ≤ limit) :
    traverse ws limit (.upward t.tag) job = offerEach ws t.upward job := by
  obtain ⟨n, rfl⟩ := Nat.exists_eq_add_of_le enough
  rw [Walk.upward, traverse_enter leads t [] job here]
  refine (Fix.bind_congr fun _ _ _ => traverse_of_none Walk.next_nil).trans ?_
  show (offerEach ws t.upward >>= fun _ => pure ()) job = _
  rw [bind_pure_unit]

theorem traverse_open (whole : Whole job.forest t) (enough : t.nodes.length ≤ limit) :
    traverse [] limit [.enter t.tag false] job = offerEach [] (upwardAll t.children) job := by
  have here : Whole job.forest (Path.plug [] t) := whole
  cases t with
  | leaf i l => exact traverse_of_none (Walk.next_enter_end whole.stands)
  | node i k cs =>
    obtain ⟨n, rfl⟩ := Nat.exists_eq_add_of_le enough
    rw [tag, traverse_congr (Walk.next_enter_open whole.stands), length_nodes_add, Tree.children,
      ← bind_pure_unit (x := offerEach [] (upwardAll cs))]
    exact traverse_children leads_nil (fun c _ => traverse_enter leads_nil c) here fun _ _ last =>
      traverse_of_none (Walk.next_goOn_end last)

theorem traverse_rootFirst (whole : Whole job.forest t) (enough : t.nodes.length < limit) :
    traverse [] limit (.rootFirst t.tag) job =
      if t.nodes.all fun n => isProgramKind n.kind then .ok () job else .error .unknown job := by
  obtain ⟨n, rfl⟩ := Nat.exists_eq_add_of_le enough
  have known : (t.tag :: upwardAll t.children).all (fun i => isProgramKind (job.forest.kind i)) =
      t.nodes.all fun n => isProgramKind n.kind := by
    have perm : (t.tag :: upwardAll t.children).Perm t.tags := by
      rw [tags_eq]
      exact (perm_upwardAll _).cons _
    rw [perm.all_eq, tags, all_map, Bool.eq_iff_iff, all_eq_true, all_eq_true]
    refine forall₂_congr fun n hn => ?_
    rw [Function.comp_apply, (whole.stands.part hn).kind_eq]
  have visit : Walk.next job.forest (.rootFirst t.tag) = some (t.tag, [.enter t.tag false]) := rfl
  rw [Nat.succ_add, traverse_of_some visit, ← known, ← offerEach_nil,
    show t.tag :: upwardAll t.children = [t.tag] ++ upwardAll t.children from rfl, offerEach_append]
  refine Fix.bind_congr fun _ _ run => ?_
  rw [offerEach_nil] at run
  split at run
  · cases run
    exact traverse_open whole (Nat.le_add_right _ _)
  · cases run

end Retouch
