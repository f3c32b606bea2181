import Retouch.Proofs.Copies
import Retouch.Proofs.Rewriting
import Retouch.Proofs.SpacingPatterns

/-!
# What the fixers for spacing mean

What a fixer for spacing does before a child of a node is to keep what stands there, to take blanks away
or to leave one blank (`Fixes.Act`).  Which of these it does depends on where the child stands, and for
equal signs also on whether there is a blank before the sign and whether the node is an argument of a
call (`Fixes.Spacer.acts`).  The meaning of the fixer is the node with these acts done
(`Fixes.Spacer.meaning`), and the fixer acts as its meaning says (`Fixes.Spacer.actsAs`).
-/

namespace Retouch

open List

open Tree Forest

variable {α : Type}

namespace Tree

theorem map_plain_children (t : Tree α) : t.children.map plain = t.plain.children := by
  cases t with
  | leaf i l => rfl
  | node i k cs =>
    rw [plain_node]
    rfl

@[simp] theorem lead_plain (t : Tree α) : t.plain.lead = t.lead := by
  induction t using induct with
  | leaf i l => rfl
  | node i k cs ih =>
    cases cs with
    | nil => rfl
    | cons c cs => exact ih c mem_cons_self

theorem plain_withLead (lead : Text) (t : Tree α) :
    (t.withLead lead).plain = t.plain.withLead lead := by
  induction t using induct with
  | leaf i l => rfl
  | node i k cs ih =>
    cases cs with
    | nil => rfl
    | cons c cs =>
      rw [withLead_cons, plain_node, plain_node, map_cons, map_cons,
        ih c mem_cons_self, withLead_cons]

theorem plain_chosen (t : Tree α) (new : Option Text) : (t.chosen new).plain = t.plain.chosen new := by
  cases new with
  | none => rfl
  | some lead => exact plain_withLead lead t

theorem plain_respacedBy {choices : List (Tree α) → List (Tree α × Option Text)}
    {choices' : List SyntaxTree → List (SyntaxTree × Option Text)}
    (natural : ∀ cs, choices' (cs.map plain) = (choices cs).map fun c => (c.1.plain, c.2)) (t : Tree α) :
    (t.respacedBy choices).plain = t.plain.respacedBy choices' := by
  cases t with
  | leaf i l => rfl
  | node i k cs =>
    rw [respacedBy, plain_node, plain_node, respacedBy, natural, map_map, map_map]
    exact congrArg _ (map_congr_left fun c _ => plain_chosen c.1 c.2)

@[simp] theorem withLead_lead (t : Tree α) : t.withLead t.lead = t := by
  induction t using induct with
  | leaf i l => rfl
  | node i k cs ih =>
    cases cs with
    | nil => rfl
    | cons c cs =>
      exact congrArg (fun c => node i k (c :: cs)) (ih c mem_cons_self)

end Tree

theorem Fixer.matchAt_eq {job : Job} {v : Tree NodeId} (p : Pattern)
    (stands : Forest.Stands job.forest v) :
    matchAt p v.tag job = match p.matchTree v true with
      | .no => .ok none job
      | .fail => .error .wrongForm job
      | .yes names => .ok (some (OrderedMap.update [("node".toList, .one v.tag)]
          (Captures.ofBindings names))) job := by
  have view : (liftM (viewOf v.tag) : Fix (Tree NodeId)) job = .ok (job.forest.view v.tag) job := rfl
  rw [stands.view_eq] at view
  rw [matchAt, Fix.bind_of_ok view]
  cases p.matchTree v true <;> rfl

namespace Fixes

/-! ## Acts -/

/-- What can be done before a tree: to keep what stands there, to take blanks on one line away, or to
leave one blank where there are none or others. -/
inductive Act where
  | keep
  | strip
  | space
deriving DecidableEq, Repr

def Act.on : Act → Text → Text
  | keep, lead => lead
  | strip, lead => if isOpen lead then [] else lead
  | space, lead => if isOpen lead then [' '] else lead

end Fixes

def Tree.acted (a : Fixes.Act) (t : SyntaxTree) : SyntaxTree := t.withLead (a.on t.lead)

namespace Fixes

theorem isOpen_iff {lead : Text} : isOpen lead = true ↔ lead = [] ∨ isPlainBlank lead = true := by
  rw [isOpen, Bool.or_eq_true, List.isEmpty_iff]

theorem chosen_of_plain {t : SyntaxTree} {a : Act} {new : Option Text}
    (h : new = none ∧ a.on t.lead = t.lead ∨ new = some (a.on t.lead)) : t.chosen new = t.acted a := by
  rcases h with ⟨rfl, same⟩ | rfl
  · rw [acted, same, withLead_lead]
    rfl
  · rfl

@[simp] theorem length_equalLeads (inCall spaced : Bool) (standing : List (Side × Text)) :
    (equalLeads inCall spaced standing).length = standing.length := by
  fun_induction equalLeads inCall spaced standing <;> simp_all

/-- The children of a node with what is chosen for each around equal signs. -/
def equalChoices (inCall : Bool) (cs : List (Tree α)) : List (Tree α × Option Text) :=
  cs.zip (equalLeads inCall false ((sides false (cs.map (isOneOf equals))).zip (cs.map lead)))

theorem map_fst_equalChoices (inCall : Bool) (cs : List (Tree α)) :
    (equalChoices inCall cs).map Prod.fst = cs :=
  map_fst_zip (by simp)

namespace Spacer

def blankBefore (cs : List SyntaxTree) : Bool := cs.any fun c => isOneOf equals c && isPlainBlank c.lead

/-- What the fixer does before a sign, and before what comes after the sign. -/
def aroundSign (r : Spacer) (inCall : Bool) (cs : List SyntaxTree) : Act × Act :=
  match r with
  | comma => (.strip, .space)
  | equal => if blankBefore cs && !inCall then (.space, .space) else (.strip, .strip)
  | operator => (.space, .space)

def acts (r : Spacer) (inCall : Bool) (cs : List SyntaxTree) : Side → Act
  | .separator => (r.aroundSign inCall cs).1
  | .afterSeparator => (r.aroundSign inCall cs).2
  | .elsewhere => .keep

theorem acts_congr {r : Spacer} {a b : Bool} {cs ds : List SyntaxTree}
    (around : r.aroundSign a cs = r.aroundSign b ds) : r.acts a cs = r.acts b ds := by
  funext s
  cases s with
  | separator | afterSeparator => simp [acts, around]
  | elsewhere => rfl

def spacedAll (r : Spacer) (inCall : Bool) (cs : List SyntaxTree) : List SyntaxTree :=
  (cs.zip (sides false (cs.map (isOneOf r.tokens)))).map fun c => c.1.acted (r.acts inCall cs c.2)

def spaced (r : Spacer) (inCall : Bool) : SyntaxTree → SyntaxTree
  | .leaf _ l => .leaf () l
  | .node _ k cs => .node () k (r.spacedAll inCall cs)

def ofCall (k : Kind) : Bool := k == Language.Symbol.arglist || k == Language.Symbol.trailer

def askAbove (asks : Bool) (path : Path Unit) : Fix Bool :=
  if asks then do return ofCall (← orFault .missing path.head?).kind else return false

/-- What the fixer means.  It looks at the node above where there is a blank before an equal sign. -/
def meaning (r : Spacer) : Rewriter := fun path t =>
  if r.pattern.recognises t then do
    let inCall ← askAbove (decide (r = equal) && blankBefore t.children) path
    return some (r.spaced inCall t)
  else return none

/-! ## Chosen blanks are acts -/

theorem isOneOf_plain (tokens : List (Kind × Text)) (t : Tree α) :
    isOneOf tokens t.plain = isOneOf tokens t := by
  rw [← isOneOf_bare, plain, bare_retag, isOneOf_bare]

theorem map_isOneOf_plain (tokens : List (Kind × Text)) (cs : List (Tree α)) :
    (cs.map plain).map (isOneOf tokens) = cs.map (isOneOf tokens) := by
  rw [map_map]
  exact map_congr_left fun c _ => isOneOf_plain tokens c

theorem choices_plain (tokens : List (Kind × Text)) (choose : Side → Text → Option Text)
    (cs : List (Tree α)) : choices tokens choose (cs.map plain) =
      (choices tokens choose cs).map fun c => (c.1.plain, c.2) := by
  rw [choices, choices, map_isOneOf_plain, zip_map_left]
  simp

theorem equalChoices_plain (inCall : Bool) (cs : List (Tree α)) :
    equalChoices inCall (cs.map plain) = (equalChoices inCall cs).map fun c => (c.1.plain, c.2) := by
  have leads : (cs.map plain).map lead = cs.map lead := by
    rw [map_map]
    exact map_congr_left fun c _ => lead_plain c
  rw [equalChoices, map_isOneOf_plain, leads, zip_map_left]
  rfl

theorem respacedBy_choices {r : Spacer} {inCall : Bool} {choose : Side → Text → Option Text}
    (h : ∀ cs s lead, choose s lead = none ∧ (r.acts inCall cs s).on lead = lead ∨
      choose s lead = some ((r.acts inCall cs s).on lead)) (t : SyntaxTree) :
    t.respacedBy (choices r.tokens choose) = r.spaced inCall t := by
  cases t with
  | leaf i l => rfl
  | node i k cs =>
    rw [respacedBy, choices, map_map]
    exact congrArg _ (map_congr_left fun c _ => chosen_of_plain (h cs c.2 c.1.lead))

theorem respacedBy_commas (t : SyntaxTree) :
    t.respacedBy (choices commas commaLead) = comma.spaced false t := by
  refine respacedBy_choices (r := comma) (fun cs s lead => ?_) t
  cases s with
  | separator =>
    show (if isPlainBlank lead then some [] else none) = none ∧
        (if isOpen lead then [] else lead) = lead ∨
      (if isPlainBlank lead then some [] else none) = some (if isOpen lead then [] else lead)
    by_cases blank : isPlainBlank lead = true
    · rw [if_pos blank, if_pos (isOpen_iff.2 (.inr blank))]
      exact .inr rfl
    · rw [if_neg blank]
      refine .inl ⟨rfl, ?_⟩
      split
      · rename_i opened
        exact ((isOpen_iff.1 opened).resolve_right blank).symm
      · rfl
  | afterSeparator => exact .inr rfl
  | elsewhere => exact .inl ⟨rfl, rfl⟩

theorem respacedBy_operators (t : SyntaxTree) :
    t.respacedBy (choices operators operatorLead) = operator.spaced false t := by
  refine respacedBy_choices (r := operator) (fun cs s lead => ?_) t
  have around : (if isOpen lead then some [' '] else none) = none ∧ Act.space.on lead = lead ∨
      (if isOpen lead then some [' '] else none) = some (Act.space.on lead) := by
    rw [Act.on]
    split
    · exact .inr rfl
    · exact .inl ⟨rfl, rfl⟩
  cases s with
  | separator | afterSeparator => exact around
  | elsewhere => exact .inl ⟨rfl, rfl⟩

variable {xs : List SyntaxTree}

theorem zip_equalLeads {inCall : Bool} {e y : SyntaxTree} {σ : Side → Act}
    (before : ∀ x ∈ xs, isOneOf equals x = false) (sign : isOneOf equals e = true)
    (after : isOneOf equals y = false) (elsewhere : σ .elsewhere = .keep)
    (around : (σ .separator, σ .afterSeparator) =
      if isPlainBlank e.lead && !inCall then (.space, .space) else (.strip, .strip)) :
    (equalChoices inCall (xs ++ [e, y])).map (fun c => c.1.chosen c.2) =
      ((xs ++ [e, y]).zip (sides false ((xs ++ [e, y]).map (isOneOf equals)))).map
        fun c => c.1.acted (σ c.2) := by
  induction xs with
  | nil =>
    simp only [equalChoices, nil_append, map_cons, sign, after, sides, zip_cons_cons, equalLeads]
    have next : ∀ {a : Act} {new : Text}, a.on y.lead = (if isOpen y.lead then new else y.lead) →
        y.chosen (if isOpen y.lead then some new else none) = y.acted a := by
      intro a new same
      refine chosen_of_plain ?_
      rw [same]
      split
      · exact .inr rfl
      · exact .inl ⟨rfl, rfl⟩
    have here : ∀ {a : Act} {new : Option Text}, new = none ∧ a.on e.lead = e.lead ∨
        new = some (a.on e.lead) → ∀ {more : Option Text}, y.chosen more = y.acted a →
        [e.chosen new, y.chosen more] = [e.acted a, y.acted a] := by
      intro a new first more last
      rw [chosen_of_plain first, last]
    cases blank : isPlainBlank e.lead with
    | false =>
      simp only [blank, Bool.false_and, Bool.false_eq_true, if_false, Prod.mk.injEq] at around ⊢
      rw [around.1, around.2]
      refine here (.inl ⟨rfl, ?_⟩) (next rfl)
      rw [Act.on]
      split
      · rename_i opened
        exact ((isOpen_iff.1 opened).resolve_right (Bool.eq_false_iff.1 blank)).symm
      · rfl
    | true =>
      have opened := isOpen_iff.2 (.inr blank)
      cases inCall with
      | false =>
        simp only [blank, Bool.not_false, Bool.true_and, if_true, Prod.mk.injEq] at around ⊢
        rw [around.1, around.2]
        exact here (.inr (by rw [Act.on, if_pos opened])) (next rfl)
      | true =>
        simp only [Bool.not_true, Bool.and_false, Bool.false_eq_true, if_false,
          Prod.mk.injEq] at around ⊢
        rw [around.1, around.2]
        exact here (.inr (by rw [Act.on, if_pos opened])) (next rfl)
  | cons x xs ih =>
    obtain ⟨first, before⟩ := forall_mem_cons.1 before
    have kept : x.acted .keep = x := withLead_lead x
    simp only [equalChoices, cons_append, map_cons, first, sides, zip_cons_cons, elsewhere, kept]
    exact congrArg (x :: ·) (ih before)

theorem blankBefore_eq {e y : SyntaxTree} (before : ∀ x ∈ xs, isOneOf equals x = false)
    (sign : isOneOf equals e = true) (after : isOneOf equals y = false) :
    blankBefore (xs ++ [e, y]) = isPlainBlank e.lead := by
  have none : (xs.any fun c => isOneOf equals c && isPlainBlank c.lead) = false := by
    refine any_eq_false.2 fun x hx => ?_
    simp [before x hx]
  simp [blankBefore, none, sign, after]

theorem respacedBy_equals (inCall : Bool) {t : SyntaxTree} (h : equal.pattern.recognises t = true) :
    t.respacedBy (equalChoices inCall) = equal.spaced inCall t := by
  obtain ⟨xs, e, y, eq, -, before, sign, after⟩ := exists_of_recognises_equal h
  cases t with
  | leaf i l => rfl
  | node i k cs =>
    obtain rfl := eq
    refine congrArg _ (zip_equalLeads before sign after rfl ?_)
    rw [← blankBefore_eq before sign after]
    rfl

theorem any_standing (after : Bool) (cs : List (Tree α)) :
    (((sides after (cs.map (isOneOf equals))).zip (cs.map lead)).any fun c =>
      c.1 == .separator && isPlainBlank c.2) = blankBefore (cs.map plain) := by
  induction cs generalizing after with
  | nil => rfl
  | cons c cs ih =>
    have head : (isOneOf equals c.plain && isPlainBlank c.plain.lead) =
        (isOneOf equals c && isPlainBlank c.lead) := by
      rw [isOneOf_plain, lead_plain]
    have cons : blankBefore ((c :: cs).map plain) =
        ((isOneOf equals c && isPlainBlank c.lead) || blankBefore (cs.map plain)) := by
      rw [← head]
      rfl
    rw [cons, map_cons, map_cons]
    cases sign : isOneOf equals c with
    | true =>
      rw [sides, zip_cons_cons, any_cons, ih]
      rfl
    | false =>
      cases after with
      | true | false =>
        rw [sides, zip_cons_cons, any_cons, ih]
        rfl

/-! ## Answers -/

section Answers

variable {job : Job} {path : Path NodeId} {v : Tree NodeId}

theorem recognise_fixer (r : Spacer) : r.fixer.recognise = Fixer.matchAt r.pattern := by
  have compiled := r.pattern_fixer
  cases r with
  | comma | equal | operator =>
    rw [← Option.some.inj compiled]
    rfl

theorem recognises_plain (r : Spacer) (v : Tree NodeId) :
    r.pattern.recognises v.plain = r.pattern.recognises v := by
  rw [← Pattern.recognises_bare r.decided, ← Pattern.recognises_bare r.decided v, plain, bare_retag]

/-- A new node is put in place of the old one, and it reads as the tree. -/
def Puts (job : Job) (path : Path NodeId) (v : Tree NodeId) (outcome : Outcome) (t : Option SyntaxTree)
    (f : Forest) : Prop :=
  ∃ i, outcome = .put i ∧ Untouched job.forest f (path.plug v) ∧ Fresh job.forest f (some i) t

theorem puts_of_made {f' : Forest} {t : SyntaxTree} (whole : Whole job.forest (path.plug v))
    {choices : List (Tree NodeId) → List (Tree NodeId × Option Text)}
    (made : Made job.forest f' ((v.numbered job.forest.size).respacedBy choices))
    (plain : ((v.numbered job.forest.size).respacedBy choices).plain = t) :
    Puts job path v (.put job.forest.size) (some t) f' :=
  ⟨_, rfl, .of_extends made.old whole, _,
    by rw [tag_respacedBy, tag_numbered], plain, made.whole, made.new⟩

theorem actsAs_of_puts {r : Spacer}
    (puts : ∀ {job : Job} {path : Path NodeId} {v : Tree NodeId}, Whole job.forest (path.plug v) →
      r.pattern.recognises v = true → ∀ m, Agrees (r.fixer.transform v.tag m job)
        ((askAbove (decide (r = equal) && blankBefore v.plain.children) path.plain >>= fun inCall =>
          return some (r.spaced inCall v.plain)) job.aside) (Puts job path v)) :
    r.fixer.ActsAs r.meaning := by
  intro job path v whole
  have matched := (congrFun (congrFun r.recognise_fixer v.tag) job).trans
    (Fixer.matchAt_eq r.pattern whole.stands.plugged)
  rw [meaning, recognises_plain]
  cases verdict : r.pattern.matchTree v true with
  | no =>
    have unrecognised : r.pattern.recognises v = false := by rw [Pattern.recognises, verdict]
    rw [verdict] at matched
    rw [unrecognised, Fixer.answer, Fix.bind_of_ok matched]
    exact .ok ⟨⟨le_refl _, fun _ _ => rfl⟩, trivial⟩
  | fail => exact absurd verdict (r.decided.matchTree_ne_fail v true)
  | yes names =>
    have recognised : r.pattern.recognises v = true := by rw [Pattern.recognises, verdict]
    rw [verdict] at matched
    rw [if_pos recognised, Fixer.answer, Fix.bind_of_ok matched, ← bind_pure (askAbove _ _ >>= _)]
    refine .bind (puts whole recognised _) ?_
    rintro _ _ _ ⟨i, rfl, fresh⟩
    exact .pure fresh

theorem actsAs_of_choices {r : Spacer} {choose : Side → Text → Option Text} (other : r ≠ equal)
    (transform : ∀ i m, r.fixer.transform i m = do return .put (← respaced i r.tokens choose))
    (same : ∀ t : SyntaxTree, t.respacedBy (choices r.tokens choose) = r.spaced false t) :
    r.fixer.ActsAs r.meaning := by
  refine actsAs_of_puts fun whole _ m => ?_
  obtain ⟨f', run, made⟩ := respaced_run whole.stands.plugged r.tokens choose
  have run := liftEdit_of_ok run
  rw [decide_eq_false other, transform, Fix.bind_of_ok run]
  refine .ok (puts_of_made whole made ?_)
  rw [plain_respacedBy (choices_plain r.tokens choose), plain_numbered, same]

theorem equal_finishes {f₁ : Forest} (whole : Whole job.forest (path.plug v))
    (recognised : equal.pattern.recognises v = true)
    (made : Made job.forest f₁ (v.numbered job.forest.size)) (inCall : Bool) :
    Agrees ((do
        respace (equalChoices inCall (v.numbered job.forest.size).children)
        return .put job.forest.size : Fix Outcome) { job with forest := f₁ })
      ((return some (equal.spaced inCall v.plain) : Fix (Option SyntaxTree)) job.aside)
      (Puts job path v) := by
  obtain ⟨f', run, made⟩ := made.respaceChildren (map_fst_equalChoices inCall)
  have run : (liftM (respace (equalChoices inCall (v.numbered job.forest.size).children)) : Fix Unit)
      { job with forest := f₁ } = _ := liftEdit_of_ok run
  rw [Fix.bind_of_ok run]
  refine .ok (puts_of_made whole made ?_)
  rw [plain_respacedBy (equalChoices_plain inCall), plain_numbered]
  exact respacedBy_equals inCall ((equal.recognises_plain v).trans recognised)

theorem askAbove_agrees {f₁ : Forest} (whole : Whole job.forest (path.plug v))
    (old : Extends job.forest f₁) (asks : Bool) {β γ : Type} {go : Bool → Fix β} {go' : Bool → Fix γ}
    {P : β → γ → Forest → Prop}
    (goes : ∀ inCall, Agrees (go inCall { job with forest := f₁ }) (go' inCall job.aside) P) :
    Agrees ((if asks then do go (ofCall (← kindOf (← aboveOf v.tag))) else go false :
        Fix β) { job with forest := f₁ })
      ((askAbove asks path.plain >>= go') job.aside) P := by
  have still := whole.of_cells old.size fun j hj => old.cells j (whole.stands.inside hj)
  have asked : aboveOf v.tag f₁ = (orFault .missing (f₁.parent? v.tag) : Edit NodeId) f₁ := rfl
  cases asks with
  | false => exact goes false
  | true =>
    show Agrees ((liftM (aboveOf v.tag) >>= fun p => _ : Fix β) { job with forest := f₁ }) _ _
    cases path with
    | nil =>
      have root : f₁.parent? v.tag = none := still.root
      rw [root] at asked
      have failed : (liftM (aboveOf v.tag) : Fix NodeId) { job with forest := f₁ } = _ :=
        liftEdit_of_error asked
      simp only [bind, EStateM.bind, failed]
      exact .error .missing { job with forest := f₁ }
    | cons fr up =>
      have above : Whole f₁ (Path.plug up (fr.fill [v])) := still
      have node := above.stands.plugged
      have kind : f₁.kind fr.tag = fr.kind := node.kind_eq
      have parent : f₁.parent? v.tag = some fr.tag := by
        refine node.parent_child ?_
        simp [Frame.fill, Tree.children]
      rw [parent] at asked
      have found : (liftM (aboveOf v.tag) : Fix NodeId) { job with forest := f₁ } = _ :=
        liftEdit_of_ok asked
      rw [Fix.bind_of_ok found]
      show Agrees (go (ofCall (f₁.kind fr.tag)) { job with forest := f₁ }) _ _
      rw [kind]
      exact goes (ofCall fr.kind)

theorem equal_actsAs : wsEqual.ActsAs equal.meaning := by
  refine @actsAs_of_puts equal fun {job _ v} whole recognised m => ?_
  obtain ⟨f₁, cloned, made⟩ := clone_run whole.stands.plugged
  have view := made.whole.stands.view_eq
  rw [tag_numbered] at view
  have cloned := liftEdit_of_ok cloned
  have asks := any_standing false (v.numbered job.forest.size).children
  rw [map_plain_children, plain_numbered] at asks
  have run : wsEqual.transform v.tag m job = (if blankBefore v.plain.children then do
        let inCall := ofCall (← kindOf (← aboveOf v.tag))
        respace (equalChoices inCall (v.numbered job.forest.size).children)
        return .put job.forest.size
      else do
        respace (equalChoices false (v.numbered job.forest.size).children)
        return .put job.forest.size : Fix Outcome) { job with forest := f₁ } := by
    show ((liftM (clone v.tag) : Fix NodeId) >>= _) job = _
    rw [Fix.bind_of_ok cloned, ← asks, ← view]
    rfl
  refine (congrArg (fun r => Agrees r _ _) run).mpr ?_
  exact askAbove_agrees whole made.old _ (equal_finishes whole recognised made)

/-- **The fixers for spacing act as their meanings say.** -/
theorem actsAs (r : Spacer) : r.fixer.ActsAs r.meaning := by
  cases r with
  | comma => exact actsAs_of_choices nofun (fun _ _ => rfl) respacedBy_commas
  | equal => exact equal_actsAs
  | operator => exact actsAs_of_choices nofun (fun _ _ => rfl) respacedBy_operators

end Answers

end Spacer

end Fixes

end Retouch
