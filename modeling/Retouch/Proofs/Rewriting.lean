import Retouch.Fixes.Literals
import Retouch.Proofs.Traversing

/-!
# Rewriting from below

A fixer that leaves the program as it is and answers with new trees has a meaning apart from any forest:
what takes the place of a tree with given surroundings (`Rewriter`).  Trees are rewritten with such
meanings from below: first the children from the left to the right, and then the node with its new
children, by the fixers for its kind one after the other (`rewriteTree`).  The traversal of a program
comes to the same (`change_rewrites`).
-/

namespace Retouch

open List hiding modify
open Tree Forest Language.Symbol

variable {α β γ δ : Type}

/-! ## Steps that agree -/

def Job.aside (job : Job) : Job := { job with forest := {} }

/-- Two steps end in the same way, apart from the forest; for what they give `P` is true. -/
inductive Agrees : EStateM.Result Fault Job α → EStateM.Result Fault Job β →
    (α → β → Forest → Prop) → Prop
  | ok {a : α} {b : β} {job : Job} {P : α → β → Forest → Prop} (h : P a b job.forest) :
    Agrees (.ok a job) (.ok b job.aside) P
  | error (e : Fault) (job : Job) {P : α → β → Forest → Prop} :
    Agrees (.error e job) (.error e job.aside) P

def Job.shelved (w : Worker) (job : Job) : Job := { job with shelf := job.shelf.set w.slot job.memory }

theorem Worker.atWork_run (w : Worker) (act : Fix α) (job : Job) : w.atWork act job =
    match act { job with memory := job.shelf.getD w.slot {} } with
    | .ok a job => .ok a (job.shelved w)
    | .error e job => .error e (job.shelved w) := by
  show EStateM.bind _ _ _ = _
  simp only [EStateM.bind, tryFinally']
  cases act { job with memory := job.shelf.getD w.slot {} } <;> rfl

namespace Agrees

variable {P : α → β → Forest → Prop} {Q : γ → δ → Forest → Prop} {job rest : Job}

theorem pure {a : α} {b : β} (h : P a b job.forest) :
    Agrees ((pure a : Fix α) job) ((pure b : Fix β) job.aside) P :=
  .ok h

theorem bind {x : Fix α} {y : Fix β} (first : Agrees (x job) (y rest) P) {g : α → Fix γ} {g' : β → Fix δ}
    (later : ∀ a b job', P a b job'.forest → Agrees (g a job') (g' b job'.aside) Q) :
    Agrees ((x >>= g) job) ((y >>= g') rest) Q := by
  simp only [Bind.bind, EStateM.bind]
  generalize x job = r at first ⊢
  generalize y rest = s at first ⊢
  cases first with
  | ok h => exact later _ _ _ h
  | error e job => exact .error e job

theorem atWork (w : Worker) {x : Fix α} {y : Fix β}
    (h : ∀ job' : Job, job'.forest = job.forest → Agrees (x job') (y job'.aside) P) :
    Agrees (w.atWork x job) (w.atWork y job.aside) P := by
  have h := h { job with memory := job.shelf.getD w.slot {} } rfl
  rw [w.atWork_run, w.atWork_run]
  -- the memory that the fixer takes from its shelf is the same with and without a forest
  change Agrees _ (y { job.aside with memory := job.aside.shelf.getD w.slot {} }) P at h
  generalize x { job with memory := job.shelf.getD w.slot {} } = r at h ⊢
  generalize y { job.aside with memory := job.aside.shelf.getD w.slot {} } = s at h ⊢
  cases h with
  | ok h => exact .ok h
  | error e job' => exact .error e (job'.shelved w)

variable {r : EStateM.Result Fault Job α} {s : EStateM.Result Fault Job β}

theorem exists_of_left (h : Agrees r s P) {a : α} (left : r = .ok a job) : ∃ b, P a b job.forest := by
  cases h with
  | ok h =>
    cases left
    exact ⟨_, h⟩
  | error e job => cases left

theorem exists_of_right (h : Agrees r s P) {b : β} (right : s = .ok b rest) :
    ∃ a job, r = .ok a job ∧ P a b job.forest := by
  cases h with
  | ok h =>
    cases right
    exact ⟨_, _, rfl, h⟩
  | error e job => cases right

theorem mono (h : Agrees r s P) {R : α → β → Forest → Prop} (imp : ∀ a b f, P a b f → R a b f) :
    Agrees r s R := by
  cases h with
  | ok h => exact .ok (imp _ _ _ h)
  | error e job => exact .error e job

end Agrees

/-! ## What a fixer means -/

abbrev Rewriter := Path Unit → SyntaxTree → Fix (Option SyntaxTree)

/-- What a fixer answers to a tree: the tree that is to take its place, if any. -/
def Fixer.answer (fixer : Fixer) (i : NodeId) : Fix (Option NodeId) := do
  match ← fixer.recognise i with
  | none => return none
  | some m =>
    match ← fixer.transform i m with
    | .keep => return none
    | .put new => return some new

/-- The cells of a tree are as they were. -/
structure Untouched (f f' : Forest) (t : Tree NodeId) : Prop where
  size : f.size ≤ f'.size
  cells : ∀ i ∈ t.tags, f'.cell i = f.cell i

/-- The answer is a detached tree that was made for it, and is the given tree without its numbers; or
there is none. -/
def Fresh (f f' : Forest) : Option NodeId → Option SyntaxTree → Prop
  | none, none => True
  | some i, some u => ∃ new : Tree NodeId, new.tag = i ∧ new.plain = u ∧ Whole f' new ∧
      ∀ j ∈ new.tags, f.size ≤ j
  | _, _ => False

/-- The fixer touches nothing in the program, and its answers are the trees that `φ` says. -/
def Fixer.ActsAs (fixer : Fixer) (φ : Rewriter) : Prop :=
  ∀ (job : Job) (path : Path NodeId) (v : Tree NodeId), Whole job.forest (path.plug v) →
    Agrees (fixer.answer v.tag job) (φ path.plain v.plain job.aside) fun new u f =>
      Untouched job.forest f (path.plug v) ∧ Fresh job.forest f new u

/-! ## Rewriting -/

/-- What a fixer with a meaning makes of a tree.  It cannot replace the whole program. -/
def Worker.rewrite (φ : Rewriter) (w : Worker) (path : Path Unit) (t : SyntaxTree) : Fix SyntaxTree :=
  w.atWork do
    match ← φ path t with
    | none => return t
    | some u =>
      ensure !path.isEmpty
      return u

def rewriteWith (φ : Worker → Rewriter) : List Worker → Path Unit → SyntaxTree → Fix SyntaxTree
  | [], _, t => return t
  | w :: ws, path, t => do rewriteWith φ ws path (← w.rewrite (φ w) path t)

mutual
/-- The tree rewritten from below: first its children, and then the node by the fixers for its kind. -/
def rewriteTree (φ : Worker → Rewriter) (ws : List Worker) (path : Path Unit) :
    SyntaxTree → Fix SyntaxTree
  | .leaf _ l => do rewriteWith φ (← orFault .unknown (fixersFor ws l.kind)) path (.leaf () l)
  | .node _ k cs => do
    let cs ← rewriteAll φ ws path k [] cs
    rewriteWith φ (← orFault .unknown (fixersFor ws k)) path (.node () k cs)

/-- The children of a node rewritten from the left to the right, where `done` stands to the left. -/
def rewriteAll (φ : Worker → Rewriter) (ws : List Worker) (path : Path Unit) (k : Kind)
    (done : List SyntaxTree) : List SyntaxTree → Fix (List SyntaxTree)
  | [] => return done
  | t :: ts => do
    let t ← rewriteTree φ ws (⟨(), k, done, ts⟩ :: path) t
    rewriteAll φ ws path k (done ++ [t]) ts
end

/-! ## The traversal rewrites -/

/-- A tree has become another one in its place, below the same root. -/
structure Became (f f' : Forest) (path : Path NodeId) (v v' : Tree NodeId) : Prop where
  whole : Whole f' (path.plug v')
  root : (path.plug v').tag = (path.plug v).tag
  later : ∀ j ∈ path.tags, Remembers f f' j

theorem Became.trans {f f' f'' : Forest} {path : Path NodeId} {v v' v'' : Tree NodeId}
    (h : Became f f' path v v') (h' : Became f' f'' path v' v'') : Became f f'' path v v'' :=
  ⟨h'.whole, h'.root.trans h.root, fun j hj => (h.later j hj).trans (h'.later j hj)⟩

section

variable {φ : Worker → Rewriter} {ws : List Worker} {job : Job} {path : Path NodeId} {v : Tree NodeId}

theorem Worker.treat_eq (w : Worker) (i : NodeId) : w.treat i = w.atWork do
    match ← w.fixer.answer i with
    | none => return i
    | some new =>
      replaceBy i new
      return new := by
  unfold treat Fixer.answer
  rw [bind_assoc]
  refine congrArg w.atWork (bind_congr fun found => ?_)
  cases found with
  | none => rfl
  | some m =>
    rw [bind_assoc]
    refine bind_congr fun outcome => ?_
    cases outcome <;> rfl

variable {f : Forest} {t : Tree NodeId}

theorem replaceBy_root (h : Whole f t) (new : NodeId) : replaceBy t.tag new f = .error .unmet f := by
  simp only [replaceBy, Forest.replace, bind, EStateM.bind, get_ok, h.root]
  rfl

theorem liftEdit_of_ok {e : Edit α} {a : α} (h : e job.forest = .ok a f) :
    (liftM e : Fix α) job = .ok a { job with forest := f } := by
  simp only [liftM, monadLift, MonadLift.monadLift, h]

theorem liftEdit_of_error {e : Edit α} {x : Fault} (h : e job.forest = .error x f) :
    (liftM e : Fix α) job = .error x { job with forest := f } := by
  simp only [liftM, monadLift, MonadLift.monadLift, h]

theorem Untouched.of_extends {f' : Forest} (old : Extends f f') (here : Whole f t) : Untouched f f' t :=
  ⟨old.size, fun j hj => old.cells j (here.stands.inside hj)⟩

theorem Untouched.became {f' : Forest} (untouched : Untouched f f' (path.plug v))
    (here : Whole f (path.plug v)) : Became f f' path v v where
  whole := here.of_cells untouched.size untouched.cells
  root := rfl
  later j hj := by
    refine remembers_of_cell (untouched.cells j ?_)
    rw [Path.tags_plug]
    exact mem_append_left _ (path.tags_subset v.tag hj)

theorem Untouched.replaceBy {f' : Forest} (untouched : Untouched f f' (path.plug v))
    (here : Whole f (path.plug v)) {u : Tree NodeId} (detached : Whole f' u)
    (made : ∀ j ∈ u.tags, f.size ≤ j) :
    path = [] ∧ replaceBy v.tag u.tag f' = .error .unmet f' ∨
      path ≠ [] ∧ ∃ f'', replaceBy v.tag u.tag f' = .ok () f'' ∧ Became f f'' path v u := by
  have still := untouched.became here
  cases path with
  | nil => exact .inl ⟨rfl, replaceBy_root still.whole u.tag⟩
  | cons fr up =>
    have apart : ∀ i ∈ u.tags, i ∉ (Path.plug (fr :: up) v).tags := fun i hi member =>
      absurd (here.stands.inside member) (Nat.not_lt.2 (made i hi))
    obtain ⟨f'', run, whole, later⟩ := still.whole.replace detached apart
    exact .inr ⟨nofun, f'', run, whole, Path.tag_plug up rfl,
      fun j hj => (still.later j hj).trans (later j)⟩

theorem Worker.treat_agrees {w : Worker} {φ : Rewriter} (acts : w.fixer.ActsAs φ)
    (here : Whole job.forest (path.plug v)) :
    Agrees (w.treat v.tag job) (w.rewrite φ path.plain v.plain job.aside) fun i t f =>
      ∃ v' : Tree NodeId, v'.tag = i ∧ v'.plain = t ∧ Became job.forest f path v v' := by
  rw [w.treat_eq]
  refine .atWork w fun job₀ same => ?_
  rw [← same] at here ⊢
  refine (acts job₀ path v here).bind fun new u job₁ ⟨untouched, fresh⟩ => ?_
  match new, u, fresh with
  | none, none, _ => exact .pure ⟨v, rfl, rfl, untouched.became here⟩
  | some _, some _, ⟨u, rfl, rfl, detached, made⟩ =>
    rcases untouched.replaceBy here detached made with ⟨rfl, failed⟩ | ⟨inner, f', run, became⟩
    · have failed := liftEdit_of_error failed
      simp only [bind, EStateM.bind, failed]
      exact .error .unmet job₁
    · have run := liftEdit_of_ok run
      cases path with
      | nil => exact absurd rfl inner
      | cons fr up =>
        show Agrees ((liftM (replaceBy v.tag u.tag) >>= fun _ => pure u.tag : Fix NodeId) job₁)
          (.ok u.plain job₁.aside) _
        rw [Fix.bind_of_ok run]
        exact .pure ⟨u, rfl, rfl, became⟩

theorem offer_agrees {us : List Worker} (acts : ∀ w ∈ us, w.fixer.ActsAs (φ w))
    (here : Whole job.forest (path.plug v)) :
    Agrees (offer us v.tag job) (rewriteWith φ us path.plain v.plain job.aside) fun _ t f =>
      ∃ v' : Tree NodeId, v'.plain = t ∧ Became job.forest f path v v' := by
  induction us generalizing v job with
  | nil => exact .pure ⟨v, rfl, here, rfl, fun j _ => .refl _ j⟩
  | cons w us ih =>
    refine (Worker.treat_agrees (acts w mem_cons_self) here).bind ?_
    rintro _ _ _ ⟨_, rfl, rfl, became⟩
    refine (ih (fun w hw => acts w (mem_cons_of_mem _ hw)) became.whole).mono ?_
    rintro _ _ f ⟨v', plain, later⟩
    exact ⟨v', plain, became.trans later⟩

theorem offerEach_singleton_agrees (acts : ∀ w ∈ ws, w.fixer.ActsAs (φ w))
    (here : Whole job.forest (path.plug v)) :
    Agrees (offerEach ws [v.tag] job) ((do
        rewriteWith φ (← orFault .unknown (fixersFor ws v.kind)) path.plain v.plain : Fix SyntaxTree)
        job.aside) fun _ t f =>
      ∃ v' : Tree NodeId, v'.plain = t ∧ Became job.forest f path v v' := by
  rw [offerEach_singleton, here.stands.plugged.kind_eq]
  cases found : fixersFor ws v.kind with
  | none => exact .error .unknown job
  | some us => exact offer_agrees (fun w hw => acts w (mem_of_mem_fixersFor found hw)) here

theorem offerEach_below_agrees {todo : List (Tree NodeId)}
    (each : ∀ c ∈ todo, ∀ (path : Path NodeId) (job : Job), Whole job.forest (path.plug c) →
      Agrees (offerEach ws c.upward job) (rewriteTree φ ws path.plain c.plain job.aside) fun _ t f =>
        ∃ c' : Tree NodeId, c'.plain = t ∧ Became job.forest f path c c')
    {p : NodeId} {k : Kind} (done : List (Tree NodeId))
    (here : Whole job.forest (path.plug (.node p k (done ++ todo)))) :
    Agrees (offerEach ws (upwardAll todo) job)
      (rewriteAll φ ws path.plain k (done.map plain) (todo.map plain) job.aside) fun _ ts f =>
        ∃ cs : List (Tree NodeId), cs.map plain = ts ∧
          Became job.forest f path (.node p k (done ++ todo)) (.node p k cs) := by
  induction todo generalizing done job with
  | nil =>
    exact .pure ⟨done, rfl, by simpa using here, by simp, fun j _ => .refl _ j⟩
  | cons c todo ih =>
    rw [upwardAll, offerEach_append]
    refine (each c mem_cons_self (⟨p, k, done, todo⟩ :: path) job here).bind ?_
    rintro _ _ job₁ ⟨c', rfl, became⟩
    have became' : Became job.forest job₁.forest path (.node p k (done ++ c :: todo))
        (.node p k (done ++ [c'] ++ todo)) := by
      refine ⟨?_, ?_, fun j hj => became.later j (mem_cons_of_mem _ hj)⟩
      · rw [append_assoc]
        exact became.whole
      · exact Path.tag_plug path rfl
    have later := ih (fun d hd => each d (mem_cons_of_mem _ hd)) (done ++ [c']) became'.whole
    rw [map_append] at later
    refine later.mono ?_
    rintro _ _ f ⟨cs, plain, later⟩
    exact ⟨cs, plain, became'.trans later⟩

theorem offerEach_agrees (acts : ∀ w ∈ ws, w.fixer.ActsAs (φ w)) (v : Tree NodeId) (path : Path NodeId)
    (job : Job) (here : Whole job.forest (path.plug v)) :
    Agrees (offerEach ws v.upward job) (rewriteTree φ ws path.plain v.plain job.aside) fun _ t f =>
      ∃ v' : Tree NodeId, v'.plain = t ∧ Became job.forest f path v v' := by
  induction v using induct generalizing path job with
  | leaf i l =>
    have single := offerEach_singleton_agrees acts here
    exact single
  | node i k cs ih =>
    rw [upward, offerEach_append, plain_node]
    refine (offerEach_below_agrees ih [] here).bind ?_
    rintro _ _ _ ⟨_, rfl, became⟩
    have last := offerEach_singleton_agrees acts became.whole
    rw [plain_node] at last
    refine last.mono ?_
    rintro _ _ f ⟨v', plain, later⟩
    exact ⟨v', plain, became.trans later⟩

theorem leads_of_acts (acts : ∀ w ∈ ws, w.fixer.ActsAs (φ w)) : Leads ws := by
  intro v path job _ here run
  obtain ⟨_, v', -, became⟩ := (offerEach_agrees acts v path job here).exists_of_left run
  exact ⟨v', became.whole, became.later⟩

variable {file : Text} {job₁ : Job}

theorem change_of_begun {root : NodeId}
    (begun : beginAll file root ws { job with shelf := ws.map fun _ => {} } = .ok () job₁) :
    Team.change ⟨[], ws⟩ file root job = (do
      traverse [] job₁.forest.walkLimit (.rootFirst root)
      traverse ws (← get).forest.walkLimit (.upward root)
      return (← get).forest.isChanged root : Fix Bool) job₁ := by
  show (beginAll file root ws >>= _) { job with shelf := ws.map fun _ => {} } = _
  rw [Fix.bind_of_ok begun]
  rfl

theorem length_lt_walkLimit (h : f.Stands t) : t.nodes.length < f.walkLimit := by
  have small := h.length_le
  have square : f.size + 16 ≤ (f.size + 16) * (f.size + 16) := Nat.le_mul_self _
  rw [walkLimit]
  omega

variable (whole : Whole job₁.forest t)
  (begun : beginAll file t.tag ws { job with shelf := ws.map fun _ => {} } = .ok () job₁)

include whole begun

theorem change_of_known (leads : Leads ws)
    (known : ∀ n ∈ t.nodes, isProgramKind n.kind = true) :
    Team.change ⟨[], ws⟩ file t.tag job = (do
      offerEach ws t.upward
      return (← get).forest.isChanged t.tag : Fix Bool) job₁ := by
  have enough := length_lt_walkLimit whole.stands
  have pass : traverse [] job₁.forest.walkLimit (.rootFirst t.tag) job₁ = .ok () job₁ := by
    rw [traverse_rootFirst whole enough, if_pos (all_eq_true.2 known)]
  have walk := traverse_upward leads whole (Nat.le_of_lt enough)
  rw [change_of_begun begun, Fix.bind_of_ok pass]
  show (traverse ws job₁.forest.walkLimit (.upward t.tag) >>= _) job₁ = _
  simp [bind, EStateM.bind, walk]

theorem change_of_unknown {n : Tree NodeId} (hn : n ∈ t.nodes) (unknown : isProgramKind n.kind = false) :
    Team.change ⟨[], ws⟩ file t.tag job = .error .unknown job₁ := by
  have stop : traverse [] job₁.forest.walkLimit (.rootFirst t.tag) job₁ = .error .unknown job₁ := by
    rw [traverse_rootFirst whole (length_lt_walkLimit whole.stands), if_neg]
    intro all
    exact Bool.false_ne_true (unknown.symm.trans (all_eq_true.1 all n hn))
  rw [change_of_begun begun]
  simp [bind, EStateM.bind, stop]

end

/-! ## A fixer with a meaning -/

/-- What the fixer for `<>` means. -/
def Fixes.neMeaning : Rewriter
  | _, .leaf _ l =>
    if l.value.is "<>" then
      return some (.leaf () { kind := Kind.notEqual, value := .text "!=", lead := l.lead })
    else return none
  | _, .node _ _ _ => throw .missing

theorem whole_newLeaf (f : Forest) (l : Leaf) :
    Whole (f.push { body := .leaf l }).2 (.leaf f.size l) :=
  whole_plant f (.leaf () l)

theorem valueOf_leaf {i : NodeId} {l : Leaf} (h : f.Stands (.leaf i l)) :
    valueOf i f = .ok l.value f := by
  have token : f.token? i = some l := h.token?_eq
  simp only [valueOf, bind, EStateM.bind, get_ok, token]
  rfl

theorem valueText_leaf {i : NodeId} {l : Leaf} {v : Text} (h : f.Stands (.leaf i l))
    (value : l.value = .text v) : valueText i f = .ok v f := by
  have known := valueOf_leaf h
  rw [value] at known
  simp only [valueText, bind, EStateM.bind, known]
  rfl

theorem leadOf_leaf {i : NodeId} {l : Leaf} (h : job.forest.Stands (.leaf i l)) :
    (liftM (leadOf i) : Fix Text) job = .ok l.lead job :=
  congrArg (fun t : Tree NodeId => EStateM.Result.ok t.lead job) h.view_eq

theorem Fixes.ne_answer {job : Job} {i : NodeId} {l : Leaf} (h : job.forest.Stands (.leaf i l)) :
    ne.answer i job = if l.value.is "<>" then
      .ok (some job.forest.size) { job with forest :=
        (job.forest.push { body := .leaf { kind := Kind.notEqual, value := .text "!=", lead := l.lead } }).2 }
      else .ok none job := by
  unfold Fixer.answer ne ofLeaf
  simp only [bind_assoc]
  rw [Fix.bind_of_ok (liftEdit_of_ok (valueOf_leaf h))]
  by_cases found : l.value.is "<>" = true
  · simp only [attempt, pure_bind, found, if_true]
    rw [Fix.bind_of_ok (leadOf_leaf h)]
    rfl
  · simp only [found]
    rfl

theorem Fixes.ne_actsAs : ne.ActsAs neMeaning := by
  intro job _ v here
  have stands := here.stands.plugged
  cases v with
  | leaf i l =>
    rw [show (leaf i l).tag = i from rfl, ne_answer stands,
      show (leaf i l).plain = .leaf () l from rfl, neMeaning]
    by_cases found : l.value.is "<>" = true
    · rw [if_pos found, if_pos found]
      refine .pure ⟨.of_extends (extends_push _ _) here, _, rfl, rfl, whole_newLeaf _ _, fun j hj => ?_⟩
      exact Nat.le_of_eq (mem_singleton.1 hj).symm
    · rw [if_neg found, if_neg found]
      exact .pure ⟨⟨Nat.le_refl _, fun _ _ => rfl⟩, trivial⟩
  | node i k cs =>
    have token : job.forest.token? i = none := stands.token?_eq
    have value : (liftM (valueOf i) : Fix Value) job = .error .missing job := by
      refine liftEdit_of_error ?_
      simp only [valueOf, bind, EStateM.bind, get_ok, token]
      rfl
    rw [show (node i k cs).tag = i from rfl]
    unfold Fixer.answer ne ofLeaf
    simp only [bind, EStateM.bind, value]
    exact .error .missing job

/-! ## Programs -/

/-- **The traversal of a program is rewriting from below.**  The fixers touch nothing in the program and
answer with new trees, and the program has nothing above.  Then every node of the program is offered
once, after those below it, and nothing else is, and the program becomes what rewriting makes of it.
Where there is a node of a kind that nobody knows, nothing is offered and nothing is changed. -/
theorem change_rewrites {ws : List Worker} {φ : Worker → Rewriter}
    (acts : ∀ w ∈ ws, w.fixer.ActsAs (φ w)) {job job₁ : Job} {file : Text} {t : Tree NodeId}
    (whole : Whole job₁.forest t)
    (begun : beginAll file t.tag ws { job with shelf := ws.map fun _ => {} } = .ok () job₁) :
    t.upward.Perm t.tags ∧ t.tags.Nodup ∧
    ((∀ n ∈ t.nodes, isProgramKind n.kind = true) →
      Team.change ⟨[], ws⟩ file t.tag job = (do
          offerEach ws t.upward
          return (← get).forest.isChanged t.tag : Fix Bool) job₁ ∧
        Agrees (Team.change ⟨[], ws⟩ file t.tag job) (rewriteTree φ ws [] t.plain job₁.aside)
          fun _ t' f => (f.view t.tag).plain = t') ∧
    ((∃ n ∈ t.nodes, isProgramKind n.kind = false) →
      Team.change ⟨[], ws⟩ file t.tag job = .error .unknown job₁) := by
  refine ⟨t.perm_upward, whole.stands.nodup, fun known => ?_, ?_⟩
  · have run := change_of_known whole begun (leads_of_acts acts) known
    refine ⟨run, ?_⟩
    rw [run, ← bind_pure (rewriteTree φ ws [] t.plain)]
    refine (offerEach_agrees acts t [] job₁ whole).bind ?_
    rintro _ _ job' ⟨v', rfl, became⟩
    refine Agrees.pure ?_
    have root : v'.tag = t.tag := became.root
    have stands : job'.forest.Stands v' := became.whole.stands
    rw [← root, stands.view_eq]
  · rintro ⟨n, hn, unknown⟩
    exact change_of_unknown whole begun hn unknown

theorem whole_ofTree {α : Type} (t : Tree α) : Whole (ofTree t).2 (t.numbered 0) :=
  whole_plant {} t

def Fixes.comparing (k : Kind) (sign : Text) : SyntaxTree :=
  .node () k [.node () comparison
    [.leaf () (.ofText Kind.name "a".toList),
      .leaf () { kind := Kind.notEqual, value := .text sign, lead := " ".toList },
      .leaf () (.ofText Kind.name "b".toList)]]

def Job.ofTree (t : SyntaxTree) : Job := { forest := (Forest.ofTree t).2 }

/-- The work on a program once the fixer for `<>` has begun. -/
def Job.begun (t : SyntaxTree) : Job :=
  { forest := (Forest.ofTree t).2, memory := { file := some [] }, shelf := [{ file := some [] }] }

theorem Fixes.beginAll_ne (t : SyntaxTree) : beginAll [] 0 (Worker.number 0 [ne])
    { Job.ofTree t with shelf := (Worker.number 0 [ne]).map fun _ => {} } =
      .ok () (Job.begun t) := rfl

/-- `a <>b` becomes `a !=b`. -/
theorem change_rewrites_ne : ∃ changed job',
    Team.change ⟨[], Worker.number 0 [Fixes.ne]⟩ [] 0
        (.ofTree (Fixes.comparing fileInput "<>".toList)) = .ok changed job' ∧
      (job'.forest.view 0).plain = Fixes.comparing fileInput "!=".toList := by
  have acts : ∀ w ∈ Worker.number 0 [Fixes.ne], w.fixer.ActsAs Fixes.neMeaning := by
    intro w hw
    rw [mem_singleton.1 hw]
    exact Fixes.ne_actsAs
  obtain ⟨-, -, rewrites, -⟩ := @change_rewrites _ _ acts
    (.ofTree (Fixes.comparing fileInput "<>".toList))
    (.begun (Fixes.comparing fileInput "<>".toList)) []
    ((Fixes.comparing fileInput "<>".toList).numbered 0) (whole_ofTree _)
    (Fixes.beginAll_ne _)
  have rewritten : rewriteTree (fun _ => Fixes.neMeaning) (Worker.number 0 [Fixes.ne]) []
      ((Fixes.comparing fileInput "<>".toList).numbered 0).plain
      (Job.begun (Fixes.comparing fileInput "<>".toList)).aside =
        .ok (Fixes.comparing fileInput "!=".toList)
          (Job.begun (Fixes.comparing fileInput "<>".toList)).aside := by
    rfl
  exact (rewrites (by decide)).2.exists_of_right rewritten

/-- Below a node of a kind that nobody knows, `a <>b` stays, although the comparison itself would be
rewritten. -/
theorem change_stops : ∃ job₁,
    Team.change ⟨[], Worker.number 0 [Fixes.ne]⟩ [] 0 (.ofTree (Fixes.comparing 1000 "<>".toList)) =
      .error .unknown job₁ ∧
    job₁.forest.text 0 = "a <>b".toList ∧
    ∃ rest, rewriteAll (fun _ => Fixes.neMeaning) (Worker.number 0 [Fixes.ne]) [] 1000 []
      (Fixes.comparing 1000 "<>".toList).children job₁.aside =
        .ok (Fixes.comparing 1000 "!=".toList).children rest := by
  have whole : Whole (Job.begun (Fixes.comparing 1000 "<>".toList)).forest
      ((Fixes.comparing 1000 "<>".toList).numbered 0) := whole_ofTree _
  have stops := @change_of_unknown _ (.ofTree (Fixes.comparing 1000 "<>".toList)) _ [] _ whole
    (Fixes.beginAll_ne _) _ (self_mem_nodes _) (by decide)
  refine ⟨_, stops, ?_, (Job.begun (.leaf () default)).aside, ?_⟩
  · exact whole.stands.text_eq.trans (by decide)
  · rfl

end Retouch
