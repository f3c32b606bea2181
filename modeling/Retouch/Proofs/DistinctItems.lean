import Mathlib.Data.List.Flatten
import Retouch.Fixes.Statements
import Retouch.Proofs.SpacingMeanings

/-!
# Items that come twice

The fixer for `isinstance` looks for a call whose second argument is a tuple
(`Fixes.splits_testPattern`).  Of the items of the tuple, which stand with commas between them
(`Fixes.Listed`), all stay but the names that came before (`Fixes.distinct`), with no comma at the end,
and a single item takes the place of the tuple (`Fixes.isinstance_distinct`).
-/

namespace Retouch

open List

open Tree

theorem Tree.eq_node {α : Type} {t : Tree α} {cs : List (Tree α)} {k : Kind} (kind : t.kind = k)
    (h : t.children = cs) (inner : cs ≠ []) : t = .node t.tag k cs := by
  subst kind h
  cases t with
  | leaf => exact absurd rfl inner
  | node => rfl

namespace Pattern

variable {α : Type} {n : Option Text} {p : Pattern} {o ps : List Pattern}
  {us vs : List (Tree α)} {t : Tree α} {names : Bindings α} {k : Kind}

/-- Match a tree of a kind whose children are taken by the patterns one after another. -/
def group (k : Kind) (o : List Pattern) : Pattern := .within (some k) [.choice [o] 1 1 none] none

theorem settled_group {D : List (Tree α) → Prop} (h : SettledAll D o) : Settled D (group k o) :=
  ⟨⟨nofun, ⟨h, trivial⟩, le_refl 1, .inl (by decide)⟩, trivial⟩

theorem splits_once {os : List (List Pattern)} :
    Splits (choice os 1 1 none) us vs names ↔ SplitsAny os us vs names := by
  constructor
  · rintro ⟨_, _, low, high, taken, rfl⟩
    obtain rfl := le_antisymm high low
    rwa [NamedSpan.times, NamedSpan.times, NamedSpan.seq_nothing] at taken
  · intro h
    refine ⟨1, names, le_refl 1, le_refl 1, ?_, rfl⟩
    rwa [NamedSpan.times, NamedSpan.times, NamedSpan.seq_nothing]

/-- A tree of a kind whose children are taken by the patterns. -/
theorem splits_within : Splits (within (some k) [choice [o] 1 1 none] n) us vs names ↔
    ∃ t inner, us = [t] ∧ t.kind = k ∧ SplitsAll o t.children [] inner ∧
      names = Bindings.bind n (.one t) inner := by
  have inside (t : Tree α) (inner : Bindings α) :
      SplitsAll [choice [o] 1 1 none] t.children [] inner ↔ SplitsAll o t.children [] inner := by
    rw [splitsAll_singleton, splits_once]
    exact or_iff_left id
  simp only [Splits, NamedSpan.one, inside, kindFits, beq_iff_eq]
  constructor
  · rintro ⟨t, rfl, kind, -, inner, taken, rfl⟩
    exact ⟨t, inner, rfl, kind, taken, rfl⟩
  · rintro ⟨t, inner, rfl, kind, taken, rfl⟩
    exact ⟨t, rfl, kind, .inl rfl, inner, taken, rfl⟩

theorem splits_group (h : Splits (group k o) us vs names) :
    ∃ t, us = [t] ∧ t.kind = k ∧ SplitsAll o t.children [] names := by
  obtain ⟨t, _, rfl, kind, inside, rfl⟩ := splits_within.1 h
  exact ⟨t, rfl, kind, inside⟩

theorem of_times_tree {count : Nat}
    (h : NamedSpan.times (SplitsAny [[tree none none]]) count us vs names) :
    names = [] ∧ us.length = count := by
  induction count generalizing us names with
  | zero => exact ⟨h.2, congrArg length h.1⟩
  | succ count ih =>
    obtain ⟨_, _, _, _, rfl, (first | none), later, rfl⟩ := h
    · rw [splitsAll_singleton] at first
      obtain ⟨t, rfl, -, rfl⟩ := first
      obtain ⟨rfl, rfl⟩ := ih later
      exact ⟨rfl, rfl⟩
    · exact none.elim

theorem settled_trees {D : List (Tree α) → Prop} {min : Nat} (few : min ≤ unbounded) :
    Settled D (choice [[tree none none]] min unbounded none) := by
  refine ⟨nofun, ⟨⟨trivial, trivial⟩, trivial⟩, few, .inr ?_⟩
  rintro _ - _ (first | none)
  · rw [splitsAll_singleton] at first
    obtain ⟨_, none, -⟩ := first
    exact nomatch none
  · exact none

/-- What a decided pattern says of a tree in the forest. -/
theorem Decided.matchAt_cases (h : p.Decided) {job : Job} {v : Tree NodeId}
    (stands : Forest.Stands job.forest v) :
    (∃ names, Fixer.matchAt p v.tag job = .ok (some (OrderedMap.update [("node".toList, .one v.tag)]
        (Captures.ofBindings names))) job ∧ Splits p [v] [] names) ∨
      Fixer.matchAt p v.tag job = .ok none job ∧ ∀ names, ¬ Splits p [v] [] names := by
  rw [Fixer.matchAt_eq p stands]
  cases verdict : p.matchTree v true with
  | yes names => exact .inl ⟨names, rfl, (h.reports v).1 names verdict⟩
  | no => exact .inr ⟨rfl, (h.reports v).2 verdict⟩
  | fail => exact absurd verdict (h.matchTree_ne_fail v true)

theorem Decided.recognises_eq_false (h : p.Decided) (none : ∀ names, ¬ Splits p [t] [] names) :
    p.recognises t = false := by
  rw [← Bool.not_eq_true, recognises_iff h, ← unnamed_splits]
  exact fun ⟨names, splits⟩ => none names splits

end Pattern

namespace Fixes

open Pattern Language.Symbol

/-- A call of `isinstance` whose second argument is a tuple. -/
def testPattern : Pattern :=
  group power [.leaf (some Kind.name) (some ['i', 's', 'i', 'n', 's', 't', 'a', 'n', 'c', 'e']) none,
    group trailer [.leaf (some Kind.leftParen) (some ['(']) none,
      group arglist [.tree none none, .leaf (some Kind.comma) (some [',']) none,
        group atom [.leaf (some Kind.leftParen) (some ['(']) none,
          .within (some testlistGexp) [.choice [[.tree none none]] 1 unbounded none]
            (some ['a', 'r', 'g', 's']),
          .leaf (some Kind.rightParen) (some [')']) none]],
      .leaf (some Kind.rightParen) (some [')']) none]]

set_option maxRecDepth 100000 in
theorem isinstance_pattern : isinstance.pattern = some testPattern := by
  refine fixed_eq rfl ?_
  decide +kernel

theorem decided_testPattern : testPattern.Decided := by
  refine ⟨fun α => ?_, by decide, rfl⟩
  have items : Settled (fun _ : List (Tree α) => True)
      (.choice [[.tree none none]] 1 unbounded none) := settled_trees (by decide)
  exact settled_group ⟨trivial, settled_group ⟨trivial, settled_group ⟨trivial, trivial,
    settled_group ⟨trivial, ⟨items, trivial⟩, trivial, trivial⟩, trivial⟩, trivial, trivial⟩, trivial⟩

/-- The place of the second argument of a call: the arguments `g` of the trailer `r` of the call `w`. -/
def secondPlace (w r g : NodeId) (f p x c q : Tree NodeId) : Path NodeId :=
  [⟨g, arglist, [x, c], []⟩, ⟨r, trailer, [p], [q]⟩, ⟨w, power, [f], []⟩]

theorem splits_testPattern {t : Tree NodeId} {names : Bindings NodeId}
    (h : Splits testPattern [t] [] names) :
    ∃ w r g f p x c q a l o cs z, t = (secondPlace w r g f p x c q).plug
      (.node a atom [o, .node l testlistGexp cs, z]) ∧
      names = [(['a', 'r', 'g', 's'], .one (.node l testlistGexp cs))] := by
  obtain ⟨_, same, kind, _, _, _, _, split, ⟨f, rfl, -, rfl⟩,
    ⟨_, _, _, _, rfl, call, ⟨rfl, rfl⟩, rfl⟩, rfl⟩ := splits_group h
  cases same
  obtain ⟨r, rfl, kind', _, _, _, _, split', ⟨p, rfl, -, rfl⟩, ⟨_, _, _, _, rfl, args,
    ⟨_, _, _, _, rfl, ⟨q, rfl, -, rfl⟩, ⟨rfl, rfl⟩, rfl⟩, rfl⟩, rfl⟩ := splits_group call
  obtain ⟨g, rfl, kind'', _, _, _, _, split'', ⟨x, rfl, -, rfl⟩, ⟨_, _, _, _, rfl, ⟨c, rfl, -, rfl⟩,
    ⟨_, _, _, _, rfl, tuple, ⟨rfl, rfl⟩, rfl⟩, rfl⟩, rfl⟩ := splits_group args
  obtain ⟨a, rfl, kind₄, _, _, _, _, split₄, ⟨o, rfl, -, rfl⟩, ⟨_, _, _, _, rfl,
    ⟨l, rfl, kind₅, -, _, items, rfl⟩,
    ⟨_, _, _, _, rfl, ⟨z, rfl, -, rfl⟩, ⟨rfl, rfl⟩, rfl⟩, rfl⟩, rfl⟩ := splits_group tuple
  rw [splitsAll_singleton] at items
  obtain ⟨_, _, low, -, items, rfl⟩ := items
  obtain ⟨rfl, rfl⟩ := of_times_tree items
  have inner := eq_node (by simpa [kindFits] using kind₅) rfl (ne_nil_of_length_pos low)
  refine ⟨t.tag, r.tag, g.tag, f, p, x, c, q, a.tag, l.tag, o, l.children, z, ?_, ?_⟩
  · rw [← inner]
    conv_lhs =>
      rw [eq_node kind split (by simp), eq_node kind' split' (by simp),
        eq_node kind'' split'' (by simp), eq_node kind₄ split₄ (by simp)]
    rfl
  · rw [← inner]
    rfl

/-! ## Lists with commas -/

/-- The trees are the items with a comma between each two of them, and one at the end if they are
closed. -/
inductive Listed {α : Type} : (closed : Bool) → List (Tree α) → List (Tree α) → Prop
  | nil : Listed true [] []
  | last (x : Tree α) : Listed false [x] [x]
  | cons (x : Tree α) {c : Tree α} {closed : Bool} {xs ts : List (Tree α)} (comma : c.kind = Kind.comma)
      (later : Listed closed xs ts) : Listed closed (x :: xs) (x :: c :: ts)

/-- The value of a name. -/
def nameOf {α : Type} (t : Tree α) : Option Value := if t.kind = Kind.name then t.value? else none

/-- Is the tree a name that is among the trees before it? -/
def repeats {α : Type} (before : List (Tree α)) (t : Tree α) : Bool :=
  (nameOf t).isSome && before.any fun e => nameOf e == nameOf t

/-- The items but for the names that came before. -/
def distinct {α : Type} : (before items : List (Tree α)) → List (Tree α)
  | _, [] => []
  | before, t :: ts =>
    if repeats before t then distinct (before ++ [t]) ts else t :: distinct (before ++ [t]) ts

section Listed

variable {closed : Bool} {before items ts : List (Tree NodeId)} {seen : List Value} {t : Tree NodeId}

theorem distinct_subset (before items : List (Tree NodeId)) : distinct before items ⊆ items := by
  induction items generalizing before with
  | nil => exact .refl _
  | cons t ts ih =>
    rw [distinct]
    split
    · exact subset_cons_of_subset t (ih _)
    · exact cons_subset_cons t (ih _)

theorem distinct_ne_nil (some : items ≠ []) : distinct [] items ≠ [] := by
  cases items with
  | nil => exact absurd rfl some
  | cons t ts =>
    rw [distinct, repeats, any_nil, Bool.and_false]
    exact cons_ne_nil _ _

theorem distinctItems_comma (comma : t.kind = Kind.comma) :
    distinctItems false seen (t :: ts) = t :: distinctItems false seen ts := by
  rw [distinctItems, comma]
  rfl

/-- What was seen are the names before. -/
def Seen (seen : List Value) (before : List (Tree NodeId)) : Prop :=
  ∀ v, v ∈ seen ↔ ∃ e ∈ before, nameOf e = some v

/-- An item is left out if it repeats one before it, and then the search is for a comma. -/
theorem Seen.step (h : Seen seen before) (t : Tree NodeId) :
    ∃ seen', Seen seen' (before ++ [t]) ∧ ∀ ts, distinctItems false seen (t :: ts) =
      if repeats before t then distinctItems true seen' ts else t :: distinctItems false seen' ts := by
  have opened (ts : List (Tree NodeId)) : distinctItems false seen (t :: ts) =
      (nameOf t).elim (t :: distinctItems false seen ts) fun v =>
        if seen.contains v then distinctItems true seen ts
        else t :: distinctItems false (v :: seen) ts := by
    rw [distinctItems, Bool.false_and, if_neg Bool.false_ne_true]
    cases named : nameOf t <;> unfold nameOf at named <;> rw [named] <;> rfl
  have added (v : Value) : (∃ e ∈ before ++ [t], nameOf e = some v) ↔ v ∈ seen ∨ nameOf t = some v := by
    simp [h v]
  simp only [opened]
  cases named : nameOf t with
  | none =>
    refine ⟨seen, fun v => ?_, fun ts => by simp [repeats, named]⟩
    rw [added v, named, or_iff_left (by rintro ⟨⟩)]
  | some w =>
    have same : repeats before t = seen.contains w := by
      rw [Bool.eq_iff_iff, contains_iff_mem, h w, repeats, named]
      simp
    rw [same]
    by_cases old : w ∈ seen
    · refine ⟨seen, fun v => ?_, fun ts => by simp [old]⟩
      rw [added v, named, or_iff_left_of_imp]
      rintro ⟨⟩
      exact old
    · refine ⟨w :: seen, fun v => ?_, fun ts => by simp [old]⟩
      rw [added v, named, mem_cons, or_comm, Option.some_inj, eq_comm]

/-- The items that stay, and the commas after them. -/
theorem Listed.distinctItems (h : Listed closed items ts) (known : Seen seen before) :
    ∃ closed', Listed closed' (distinct before items) (distinctItems false seen ts) := by
  induction h generalizing seen before with
  | nil => exact ⟨true, .nil⟩
  | last x =>
    obtain ⟨seen', -, step⟩ := known.step x
    rw [distinct, step]
    split
    · exact ⟨true, .nil⟩
    · exact ⟨false, .last x⟩
  | @cons x c _ xs ts comma later ih =>
    obtain ⟨seen', known', step⟩ := known.step x
    obtain ⟨closed', listed⟩ := ih known'
    rw [distinct, step]
    split
    · refine ⟨closed', ?_⟩
      rwa [distinctItems, comma]
    · refine ⟨closed', ?_⟩
      rw [distinctItems_comma comma]
      exact .cons x comma listed

/-- The last tree of a list is an item or the comma that closes it. -/
theorem Listed.last_cases (h : Listed closed items ts) (some : items ≠ []) :
    (closed = false ∧ ∃ ts' x, ts = ts' ++ [x] ∧ x ∈ items) ∨
      ∃ ts' c, ts = ts' ++ [c] ∧ c.kind = Kind.comma ∧ Listed false items ts' := by
  induction h with
  | nil => exact absurd rfl some
  | last x => exact .inl ⟨rfl, [], x, rfl, mem_cons_self⟩
  | @cons x c _ xs ts comma later ih =>
    by_cases none : xs = []
    · subst none
      cases later
      exact .inr ⟨[x], c, rfl, comma, .last x⟩
    · rcases ih none with ⟨rfl, ts', y, rfl, hy⟩ | ⟨ts', d, rfl, comma', listed⟩
      · exact .inl ⟨rfl, x :: c :: ts', y, rfl, mem_cons_of_mem x hy⟩
      · exact .inr ⟨x :: c :: ts', d, rfl, comma', .cons x comma listed⟩

theorem Listed.withoutLastComma (h : Listed closed items ts) (some : items ≠ [])
    (plain : ∀ x ∈ items, x.kind ≠ Kind.comma) : Listed false items (withoutLastComma ts) := by
  rcases h.last_cases some with ⟨rfl, ts', x, rfl, hx⟩ | ⟨ts', c, rfl, comma, _⟩
  · rwa [withoutLastComma, if_neg (by simpa using plain x hx)]
  · rwa [withoutLastComma, if_pos (by simpa using comma), dropLast_concat]

theorem distinctItems_sublist (dropped : Bool) (seen : List Value) (ts : List (Tree NodeId)) :
    distinctItems dropped seen ts <+ ts := by
  fun_induction distinctItems dropped seen ts with
  | case1 => exact .refl _
  | case2 _ _ _ _ _ ih => exact ih.cons _
  | case3 _ _ _ _ _ _ ih => exact ih.cons_cons _
  | case4 _ _ _ _ _ _ _ _ ih => exact ih.cons _
  | case5 _ _ _ _ _ _ _ _ ih => exact ih.cons_cons _

theorem withoutLastComma_sublist (ts : List (Tree NodeId)) : withoutLastComma ts <+ ts := by
  rw [withoutLastComma]
  split
  · exact dropLast_sublist ts
  · exact .refl ts

end Listed

end Fixes

/-! ## Leaving out children -/

namespace Forest

/-- A node of a tree is left with some of its children. -/
theorem Whole.prune {f : Forest} {path : Path NodeId} {l : NodeId} {k : Kind}
    {cs new : List (Tree NodeId)} (h : Whole f (path.plug (.node l k cs))) (sub : new <+ cs)
    (i : NodeId) :
    Whole ((f.alterChildren l fun _ => new.map tag).markChanged i) (path.plug (.node l k new)) := by
  have node := h.stands.plugged
  obtain ⟨inside, face, -, -⟩ := node.node
  have shown (j : NodeId) : ((f.alterChildren l fun _ => new.map tag).markChanged i).face j =
      if j = l then .node k (new.map tag) else f.face j := by
    rw [face_markChanged, face_alterChildren face inside]
  have parent (j : NodeId) :
      ((f.alterChildren l fun _ => new.map tag).markChanged i).parent? j = f.parent? j := by
    rw [parent?_markChanged, parent?_alterBody]
  have recast : Recast f ((f.alterChildren l fun _ => new.map tag).markChanged i) l :=
    ⟨by simp, fun j hj => (shown j).trans (if_neg hj), fun j q _ hq => (parent j).trans hq⟩
  have fewer : (Tree.node l k new).tags <+ (Tree.node l k cs).tags := by
    rw [tags_eq, tags_eq, tagsAll_eq_flatMap, tagsAll_eq_flatMap]
    exact (sub.flatMap tags).cons_cons l
  refine h.recast recast ⟨node.nodup.sublist fewer, fun o ho => ?_⟩ rfl fewer ((parent _).trans h.root)
  rcases mem_cons.1 ho with rfl | ho
  · refine ⟨recast.size ▸ inside, (shown l).trans (if_pos rfl), fun c hc => ?_⟩
    obtain ⟨d, hd, rfl⟩ := mem_map.1 hc
    exact (parent _).trans (node.parent_child (sub.subset hd))
  · obtain ⟨d, hd, hf⟩ := mem_facesAll.1 ho
    have child := node.part (child_mem_nodes (self_mem_nodes _) (sub.subset hd))
    have apart := node.nodup
    rw [tags_eq, tagsAll_eq_flatMap] at apart
    have other := fun mem =>
      (nodup_cons.1 apart).1 (mem_flatMap.2 ⟨d, sub.subset hd, mem⟩)
    exact (child.keep recast other).shows o hf

end Forest

namespace Fixes

open Pattern Language.Symbol

/-- The tuple without the items that are left out, or the one item that is left. -/
def narrowed (a l : NodeId) (o z : Tree NodeId) (cs new : List (Tree NodeId)) : Tree NodeId :=
  match new with
  | [x] => x.withLead (Tree.node a atom [o, .node l testlistGexp cs, z]).lead
  | _ => .node a atom [o, .node l testlistGexp new, z]

theorem transform_run {job : Job} {m : Captures} {a l : NodeId} {fr : Frame NodeId} {up : Path NodeId}
    {o z : Tree NodeId} {cs new : List (Tree NodeId)}
    (whole : Forest.Whole job.forest
      (Path.plug (fr :: up) (.node a atom [o, .node l testlistGexp cs, z])))
    (bound : m.one? "args".toList = some l) (left : withoutLastComma (distinctItems false [] cs) = new)
    (i : NodeId) :
    ∃ job', isinstance.transform i m job = .ok .keep job' ∧
      Forest.Whole job'.forest (Path.plug (fr :: up) (narrowed a l o z cs new)) := by
  have tuple := whole.stands.plugged
  have member : .node l testlistGexp cs ∈ (node a atom [o, .node l testlistGexp cs, z]).children :=
    mem_cons_of_mem o mem_cons_self
  have list := tuple.part (child_mem_nodes (self_mem_nodes _) member)
  have sub := left ▸ (withoutLastComma_sublist _).trans (distinctItems_sublist false [] cs)
  have view : (liftM (viewOf l) : Fix (Tree NodeId)) job = .ok (.node l testlistGexp cs) job :=
    congrArg (EStateM.Result.ok · job) list.view_eq
  have args : m.one "args".toList job = .ok l job := by
    rw [Captures.one, bound]
    rfl
  have start : isinstance.transform i m job = _ := (Fix.bind_of_ok args _).trans (Fix.bind_of_ok view _)
  simp only [children, left] at start
  have listed : Forest.Whole job.forest (Path.plug (⟨a, atom, [o], [z]⟩ :: fr :: up)
      (.node l testlistGexp cs)) := whole
  rcases new with _ | ⟨x, _ | _⟩
  · exact ⟨_, start, listed.prune sub i⟩
  · have above : (liftM (aboveOf l) : Fix NodeId) job = .ok a job := by
      refine liftEdit_of_ok ?_
      have parent : job.forest.parent? l = some a := tuple.parent_child member
      simp only [aboveOf, bind, EStateM.bind, get_ok, parent]
      rfl
    have lead : (liftM (leadOf a) : Fix Text) job =
        .ok (node a atom [o, .node l testlistGexp cs, z]).lead job :=
      congrArg (fun t : Tree NodeId => EStateM.Result.ok t.lead job) tuple.view_eq
    obtain ⟨pre, post, rfl⟩ := append_of_mem (sub.subset mem_cons_self)
    have item : Forest.Whole job.forest (Path.plug (⟨l, testlistGexp, pre, post⟩ ::
        ⟨a, atom, [o], [z]⟩ :: fr :: up) x) := whole
    obtain ⟨f₁, led, whole₁, -⟩ :=
      item.setLead (node a atom [o, .node l testlistGexp (pre ++ x :: post), z]).lead
    obtain ⟨_, replaced, whole₂⟩ := Forest.Whole.raise
      (v := .node a atom [o, .node l testlistGexp _, z]) whole₁ (child_mem_nodes (self_mem_nodes _) (mem_cons_of_mem o mem_cons_self))
      (mem_append_right _ mem_cons_self)
    rw [show (x.withLead _).tag = x.tag by cases x <;> rfl] at replaced
    have setting := liftEdit_of_ok led
    have putting : (liftM (replaceBy a x.tag) : Fix Unit) { job with forest := f₁ } = _ :=
      liftEdit_of_ok replaced
    exact ⟨_, start.trans ((Fix.bind_of_ok above _).trans ((Fix.bind_of_ok lead _).trans
      ((Fix.bind_of_ok setting _).trans (Fix.bind_of_ok putting _)))), whole₂⟩
  · exact ⟨_, start, listed.prune sub i⟩

theorem recognise_isinstance : isinstance.recognise = Fixer.matchAt testPattern := by
  rw [← Option.some.inj isinstance_pattern]
  rfl

/-- **Names that come twice are left out.** -/
theorem isinstance_distinct {job job' : Job} {outer : Path NodeId} {t : Tree NodeId} {m : Captures}
    (whole : Forest.Whole job.forest (outer.plug t))
    (matched : isinstance.recognise t.tag job = .ok (some m) job') :
    ∃ w r g f p x c q a l o cs z,
      t = (secondPlace w r g f p x c q).plug (.node a atom [o, .node l testlistGexp cs, z]) ∧
      ∀ closed items, Listed closed items cs → items ≠ [] → (∀ x ∈ items, x.kind ≠ Kind.comma) →
        ∃ job'' new, isinstance.transform t.tag m job' = .ok .keep job'' ∧
          Listed false (distinct [] items) new ∧ new <+ cs ∧
          Forest.Whole job''.forest
            (outer.plug ((secondPlace w r g f p x c q).plug (narrowed a l o z cs new))) := by
  rw [recognise_isinstance] at matched
  obtain ⟨_, run, splits⟩ | ⟨run, -⟩ := decided_testPattern.matchAt_cases whole.stands.plugged
  all_goals cases run.symm.trans matched
  obtain ⟨w, r, g, f, p, x, c, q, a, l, o, cs, z, rfl, rfl⟩ := splits_testPattern splits
  refine ⟨w, r, g, f, p, x, c, q, a, l, o, cs, z, rfl, fun closed items listed some plain => ?_⟩
  rw [← Path.plug_append] at whole
  have known : Seen [] [] := fun v => by simp
  obtain ⟨closed', stay⟩ := listed.distinctItems known
  have bound (i : NodeId) : Captures.one? (OrderedMap.update [("node".toList, .one i)]
      (Captures.ofBindings [(['a', 'r', 'g', 's'], .one (.node l testlistGexp cs))])) "args".toList =
      .some l := rfl
  obtain ⟨job', run, after⟩ := transform_run whole (bound _) rfl _
  refine ⟨job', _, run, stay.withoutLastComma (distinct_ne_nil some) fun x hx =>
    plain x (distinct_subset [] items hx), ?_, ?_⟩
  · exact (withoutLastComma_sublist _).trans (distinctItems_sublist false [] cs)
  · rwa [← Path.plug_append]

/-- A call with the items as its second argument. -/
def sampleTest (items : List SyntaxTree) : SyntaxTree :=
  let word (w : Text) : SyntaxTree := .leaf () (.ofText Kind.name w)
  let sign (k : Kind) (w lead : Text) : SyntaxTree := .leaf () { Leaf.ofText k w with lead }
  let opening (lead : Text) := sign Kind.leftParen ['('] lead
  let closing := sign Kind.rightParen [')'] []
  .node () power [word ['i', 's', 'i', 'n', 's', 't', 'a', 'n', 'c', 'e'], .node () trailer [opening [],
    .node () arglist [word ['x'], sign Kind.comma [','] [], .node () atom [opening [' '],
      .node () testlistGexp items, closing]], closing]]

/-- One name is left of two. -/
theorem isinstance_distinct_one :
    let int : SyntaxTree := .leaf () (.ofText Kind.name ['i', 'n', 't'])
    let comma : SyntaxTree := .leaf () (.ofText Kind.comma [','])
    let job : Job := { forest := (Forest.ofTree (sampleTest [int, comma, int])).2 }
    ∃ m job', isinstance.recognise 0 job = .ok (some m) job ∧
      isinstance.transform 0 m job = .ok .keep job' ∧
      job'.forest.text 0 = "isinstance(x, int)".toList := by
  intro int comma job
  have whole : Forest.Whole job.forest (Path.plug [] ((sampleTest [int, comma, int]).numbered 0)) :=
    whole_ofTree _
  obtain ⟨m, matched⟩ : ∃ m, isinstance.recognise 0 job = .ok (some m) job := by
    rw [recognise_isinstance]
    obtain ⟨_, run, -⟩ | ⟨-, none⟩ := decided_testPattern.matchAt_cases whole.stands
    · exact ⟨_, run⟩
    · exact absurd (decided_testPattern.recognises_eq_false none) (by decide +kernel)
  obtain ⟨w, r, g, f, p, x, c, q, a, l, o, cs, z, shape, run⟩ := isinstance_distinct whole matched
  cases shape
  obtain ⟨job', new, done, listed, -, after⟩ := run false
    [.leaf 10 (.ofText Kind.name ['i', 'n', 't']), .leaf 12 (.ofText Kind.name ['i', 'n', 't'])]
      (.cons _ rfl (.last _)) nofun (by decide)
  obtain rfl : new = [.leaf 10 (.ofText Kind.name ['i', 'n', 't'])] := by
    cases listed with
    | last => rfl
    | cons _ _ later => cases later
  refine ⟨m, job', matched, done, after.stands.text_eq.trans ?_⟩
  rfl

end Fixes

end Retouch
