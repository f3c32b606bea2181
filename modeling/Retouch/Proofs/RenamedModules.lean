import Retouch.Fixes.Imports
import Retouch.Proofs.DistinctItems

/-!
# Modules with another name

A fixer with a table of names looks for a module with an old name in an import statement
(`Fixes.ModulePlace`) and gives it the new one, again and again if the statement imports several.
Each time one old name less is left, so this ends with none left, and nothing else changes
(`Fixes.renamedModules_complete`).
-/

namespace Retouch

open List Tree

namespace Pattern

variable {α : Type} {p : Pattern} {us vs : List (Tree α)} {names : Bindings α}

def anyTrees : Pattern := choice [[tree none none]] 0 unbounded none

theorem splits_anyTrees : Splits anyTrees us vs names ↔ us.length ≤ unbounded ∧ names = [] := by
  constructor
  · rintro ⟨_, _, -, high, taken, rfl⟩
    obtain ⟨rfl, rfl⟩ := of_times_tree taken
    exact ⟨high, rfl⟩
  · rintro ⟨high, rfl⟩
    refine ⟨us.length, [], Nat.zero_le _, high, ?_, rfl⟩
    clear high
    induction us with
    | nil => exact ⟨rfl, rfl⟩
    | cons u us ih =>
      exact ⟨[u], us, [], [], rfl, .inl (splitsAll_singleton _ ▸ ⟨u, rfl, rfl, rfl⟩), ih, rfl⟩

theorem splits_between : SplitsAll [anyTrees, p, anyTrees] us [] names ↔
    ∃ pre c post inner, us = pre ++ (c ++ post) ∧
      (pre.length ≤ unbounded ∧ post.length ≤ unbounded) ∧ Splits p c post inner ∧
      names = OrderedMap.update [] inner := by
  rw [SplitsAll, SplitsAll, splitsAll_singleton]
  simp only [NamedSpan.seq, splits_anyTrees]
  constructor
  · rintro ⟨pre, _, _, _, rfl, ⟨high, rfl⟩, ⟨c, post, inner, _, rfl, taken, ⟨high', rfl⟩, rfl⟩, rfl⟩
    rw [append_nil] at taken
    exact ⟨pre, c, post, _, rfl, ⟨high, high'⟩, taken, rfl⟩
  · rintro ⟨pre, c, post, inner, rfl, ⟨high, high'⟩, taken, rfl⟩
    exact ⟨pre, _, [], inner, rfl, ⟨high, rfl⟩, ⟨c, post, inner, [], rfl,
      (append_nil post).symm ▸ taken, ⟨high', rfl⟩, rfl⟩, rfl⟩

end Pattern

namespace Fixes

open Pattern Language.Symbol
open Pattern.Language (guessedKind)

/-! ## The pattern -/

def literal (n : Option Text) (v : Text) : Pattern := .leaf (guessedKind v) (some v) n

def word (v : Text) : Pattern := .leaf (some Kind.name) (some v) none

/-- A leaf with an old name. -/
def oldPattern (inner outer : Option Text) : Renames → Pattern
  | [e] => literal (inner.or outer) e.1
  | table => .choice (table.map fun e => [literal inner e.1]) 1 1 outer

/-- A module that is imported, with another name after it or not. -/
def itemPattern (table : Renames) : (named : Bool) → Pattern
  | false => oldPattern (some "module_name") none table
  | true => group dottedAsName
      [oldPattern (some "module_name") none table, word "as", .tree none none]

/-- A module, or several ones with it among them. -/
def itemOptions (table : Renames) (named : Bool) : List (List Pattern) :=
  [[itemPattern table named], [.within (some dottedAsNames)
    [.choice [[anyTrees, itemPattern table named, anyTrees]] 1 1 none] (some "multiple_imports")]]

def importPattern (table : Renames) (named : Bool) : Pattern :=
  .within (some importName)
    [.choice [[word "import", .choice (itemOptions table named) 1 1 none]] 1 1 none]
    (if named then none else some "name_import")

def modulePattern (table : Renames) : Pattern :=
  let optional (k : Kind) (v : Text) : Pattern := .choice [[.leaf (some k) (some v) none]] 0 1 none
  .choice [[importPattern table false],
    [group importFrom [word "from", itemPattern table false, word "import",
      optional Kind.leftParen "(", .choice [[.tree none none],
        [group importAsName [.tree none none, word "as", .tree none none]],
        [.within (some importAsNames) [anyTrees] none]] 1 1 none, optional Kind.rightParen ")"]],
    [importPattern table true],
    [group power [oldPattern none (some "bare_with_attr") table,
      group trailer [.leaf (some Kind.dot) (some ".") none, .tree none none], anyTrees]]] 1 1 none

variable {α : Type} {n : Option Text} {us vs : List (Tree α)} {names : Bindings α} {table : Renames}
  {named many : Bool} {t : Tree α} {i : α} {l : Leaf} {path : Path α}

/-- The leaf has an old name. -/
def Old (table : Renames) (l : Leaf) : Prop :=
  ∃ e ∈ table, leafFits (guessedKind e.1) (some e.1) (.leaf () l) = true

theorem splits_oldPattern : Splits (oldPattern n none table) us vs names ↔
    ∃ i l, us = [.leaf i l] ∧ Old table l ∧ names = Bindings.bind n (.one (.leaf i l)) [] := by
  have any (table : Renames) : SplitsAny (table.map fun e => [literal n e.1]) us vs names ↔
      ∃ e ∈ table, Splits (literal n e.1) us vs names := by
    induction table with
    | nil => simp [SplitsAny]
    | cons e table ih => simp [SplitsAny, ih, splitsAll_singleton]
  have each : Splits (oldPattern n none table) us vs names ↔
      ∃ e ∈ table, Splits (literal n e.1) us vs names := by
    fun_cases oldPattern n none table with
    | case1 => simp
    | case2 => rw [splits_once, any]
  rw [each]
  constructor
  · rintro ⟨e, he, t, rfl, fits, rfl⟩
    cases t with
    | leaf i l => exact ⟨i, l, rfl, ⟨e, he, fits⟩, rfl⟩
    | node => cases fits
  · rintro ⟨i, l, rfl, ⟨e, he, fits⟩, rfl⟩
    exact ⟨e, he, _, rfl, fits, rfl⟩

/-- The way from an imported module to its item: there is another name after it, or not. -/
inductive ItemPlace : (named : Bool) → Path α → Prop
  | plain : ItemPlace false []
  | named {i : α} {a x : Tree α} (as : leafFits (some Kind.name) (some "as") a = true) :
      ItemPlace true [⟨i, dottedAsName, [], [a, x]⟩]

/-- The way from an item to its statement: it is one of several, or not. -/
inductive StatementPlace : (many : Bool) → Path α → Prop
  | only {i : α} {w : Tree α} (word : leafFits (some Kind.name) (some "import") w = true) :
      StatementPlace false [⟨i, importName, [w], []⟩]
  | among {i j : α} {w : Tree α} {pre post : List (Tree α)}
      (word : leafFits (some Kind.name) (some "import") w = true)
      (few : pre.length ≤ unbounded ∧ post.length ≤ unbounded) :
      StatementPlace true [⟨j, dottedAsNames, pre, post⟩, ⟨i, importName, [w], []⟩]

inductive ModulePlace (named many : Bool) : Path α → Prop
  | mk {item stmt : Path α} (inner : ItemPlace named item) (outer : StatementPlace many stmt) :
      ModulePlace named many (item ++ stmt)

theorem splits_itemPattern : Splits (itemPattern table named) us vs names ↔
    ∃ item i l, us = [Path.plug item (.leaf i l)] ∧ ItemPlace named item ∧ Old table l ∧
      names = [("module_name".toList, .one (.leaf i l))] := by
  cases named with
  | false =>
    refine splits_oldPattern.trans ⟨?_, ?_⟩
    · rintro ⟨i, l, rfl, old, rfl⟩
      exact ⟨[], i, l, rfl, .plain, old, rfl⟩
    · rintro ⟨_, i, l, rfl, ⟨⟩, old, rfl⟩
      exact ⟨i, l, rfl, old, rfl⟩
  | true =>
    refine splits_within.trans ⟨?_, ?_⟩
    · rintro ⟨t, _, rfl, kind, ⟨_, _, _, _, split, module, ⟨_, _, _, _, rfl, ⟨a, rfl, as, rfl⟩, last,
        rfl⟩, rfl⟩, rfl⟩
      rw [splitsAll_singleton] at last
      obtain ⟨x, rfl, -, rfl⟩ := last
      obtain ⟨i, l, rfl, old, rfl⟩ := splits_oldPattern.1 module
      exact ⟨[⟨t.tag, dottedAsName, [], [a, x]⟩], i, l, congrArg ([·]) (eq_node kind split nofun),
        .named as, old, rfl⟩
    · rintro ⟨_, i, l, rfl, place, old, rfl⟩
      cases place with
      | @named _ a x as =>
      exact ⟨_, _, rfl, rfl, ⟨[.leaf i l], [a, x], _, [], rfl,
        splits_oldPattern.2 ⟨i, l, rfl, old, rfl⟩, ⟨[a], [x], [], [], rfl, ⟨a, rfl, as, rfl⟩,
          splitsAll_singleton _ ▸ ⟨x, rfl, rfl, rfl⟩, rfl⟩, rfl⟩, rfl⟩

/-- The captures are those of a module at its place in the statement. -/
def Captured (table : Renames) (t : Tree NodeId) (m : Captures) : Prop :=
  ∃ named many path i l, t = Path.plug path (.leaf i l) ∧ ModulePlace named many path ∧ Old table l ∧
    m.one? "module_name" = some i ∧ m.has "multiple_imports" = many ∧ m.has "bare_with_attr" = false

theorem captured_of_splits {t : Tree NodeId} {names : Bindings NodeId}
    (h : Splits (importPattern table named) [t] [] names) : Captured table t
      (OrderedMap.update [("node", .one t.tag)] (Captures.ofBindings names)) := by
  obtain ⟨_, _, same, kind, ⟨_, _, _, _, split, ⟨w, rfl, word, rfl⟩, later, rfl⟩, rfl⟩ :=
    splits_within.1 h
  cases same
  rw [splitsAll_singleton, splits_once] at later
  simp only [itemOptions, SplitsAny, splitsAll_singleton, or_false, splits_within, splits_between,
    splits_itemPattern] at later
  obtain ⟨item, i, l, rfl, place, old, rfl⟩ | ⟨x, _, rfl, kind', ⟨pre, _, post, _, split', few,
    ⟨item, i, l, rfl, place, old, rfl⟩, rfl⟩, rfl⟩ := later
  · refine ⟨named, false, item ++ [⟨t.tag, importName, [w], []⟩], i, l, ?_, ⟨place, .only word⟩, old,
      by cases named <;> exact ⟨rfl, rfl, rfl⟩⟩
    rw [Path.plug_append]
    exact eq_node kind split nofun
  · refine ⟨named, true, item ++ [⟨x.tag, dottedAsNames, pre, post⟩, ⟨t.tag, importName, [w], []⟩],
      i, l, ?_, ⟨place, .among word few⟩, old, by cases named <;> exact ⟨rfl, rfl, rfl⟩⟩
    rw [eq_node kind' split' (by simp)] at split
    rw [Path.plug_append]
    exact eq_node kind split nofun

theorem splits_modulePattern : Splits (modulePattern table) [t] [] names →
    t.kind ∈ [importName, importFrom, power] ∧
      (t.kind = importName → ∃ named, Splits (importPattern table named) [t] [] names) := by
  have within {k : Kind} {o : List Pattern} {n : Option Text}
      (h : Splits (.within (some k) [.choice [o] 1 1 none] n) [t] [] names) : t.kind = k := by
    obtain ⟨_, _, same, kind, -⟩ := splits_within.1 h
    cases same
    exact kind
  rw [modulePattern, splits_once]
  simp only [SplitsAny, splitsAll_singleton, or_false]
  rintro (h | h | h | h)
  any_goals exact ⟨by simp [within h], fun _ => ⟨_, h⟩⟩
  all_goals exact ⟨by simp [within h], fun kind => absurd (kind.symm.trans (within h)) (by decide)⟩

/-- An old name at any place is found. -/
theorem ModulePlace.exists_splits (place : ModulePlace named many path) (old : Old table l) (i : α) :
    ∃ names, Splits (modulePattern table) [Path.plug path (.leaf i l)] [] names := by
  obtain @⟨item, _, inner, outer⟩ := place
  have taken (rest : List (Tree α)) :
      Splits (itemPattern table named) [Path.plug item (.leaf i l)] rest _ :=
    splits_itemPattern.2 ⟨item, i, l, rfl, inner, old, rfl⟩
  have all {i : α} {w c : Tree α} {names : Bindings α}
      (word : leafFits (some Kind.name) (some "import") w = true)
      (h : SplitsAny (itemOptions table named) [c] [] names) :
      ∃ names, Splits (modulePattern table) [.node i importName [w, c]] [] names := by
    have found : Splits (importPattern table named) [.node i importName [w, c]] [] _ :=
      splits_within.2 ⟨_, _, rfl, rfl, ⟨[w], [c], [], names, rfl, ⟨w, rfl, word, rfl⟩,
        splitsAll_singleton _ ▸ splits_once.2 h, rfl⟩, rfl⟩
    rw [← splitsAll_singleton] at found
    cases named
    · exact ⟨_, splits_once.2 (.inl found)⟩
    · exact ⟨_, splits_once.2 (.inr (.inr (.inl found)))⟩
  rw [Path.plug_append]
  cases outer with
  | only word => exact all word (.inl (splitsAll_singleton _ ▸ taken []))
  | @among _ _ _ pre post word few =>
    exact all word (.inr (.inl (splitsAll_singleton _ ▸ splits_within.2 ⟨_, _, rfl, rfl,
      splits_between.2 ⟨pre, [_], post, _, rfl, few, taken post, rfl⟩, rfl⟩)))

theorem settled_oldPattern (α : Type) (table : Renames) (inner outer : Option Text)
    (other : outer ≠ some greedyName) :
    Settled (fun _ : List (Tree α) => True) (oldPattern inner outer table) ∧
      (oldPattern inner outer table).neverBreaks = true := by
  have all (table : Renames) :
      SettledAny (fun _ : List (Tree α) => True) (table.map fun e => [literal inner e.1]) ∧
      neverBreakAny (table.map fun e => [literal inner e.1]) = true := by
    induction table with
    | nil => exact ⟨trivial, rfl⟩
    | cons e table ih => exact ⟨⟨⟨trivial, trivial⟩, ih.1⟩, ih.2⟩
  fun_cases oldPattern inner outer table with
  | case1 => exact ⟨trivial, rfl⟩
  | case2 =>
    refine ⟨⟨other, (all table).1, le_refl 1, .inl (by decide)⟩, ?_⟩
    simp [neverBreaks, (all table).2, other]

theorem decided_modulePattern (table : Renames) : (modulePattern table).Decided := by
  have once : 1 ≤ patience := by decide
  have old (α : Type) := settled_oldPattern α table (some "module_name") none nofun
  have bare (α : Type) := settled_oldPattern α table none (some "bare_with_attr") (by decide)
  have trees (α : Type) : Settled (fun _ : List (Tree α) => True) anyTrees := settled_trees (by decide)
  refine ⟨fun α => ?_, ?_, rfl⟩
  · simp only [modulePattern, importPattern, itemOptions, itemPattern, group, word, Settled,
      SettledAll, SettledAny, (old α).1, (bare α).1, trees α, once, and_true, true_or, ne_eq,
      reduceCtorEq, not_false_eq_true, Nat.zero_le, le_refl]
  · simp only [modulePattern, importPattern, itemOptions, itemPattern, group, word, neverBreaks,
      neverBreakAll, neverBreakAny, (old Unit).2, (bare Unit).2, any_cons, isWild, Bool.true_or,
      Bool.true_and, Bool.and_true]
    decide

/-! ## Matching -/

open Forest

variable {job : Job} {outer path : Path NodeId} {t : Tree NodeId} {m : Captures} {i : NodeId}
  {old new : Text}

/-- No node above is an import or a use of a module. -/
def Outermost (outer : Path NodeId) : Prop := ∀ fr ∈ outer, fr.kind ∉ [importName, importFrom, power]

theorem isWithin_eq (whole : Whole job.forest (outer.plug t)) (apart : Outermost outer) :
    isWithin (modulePattern table) t.tag job = .ok false job := by
  have stands := whole.stands
  suffices h : outer.tags.anyM (Fixer.matches? (modulePattern table)) job = .ok false job by
    rwa [← stands.ancestors_eq whole.root] at h
  clear whole
  induction outer generalizing t with
  | nil => rfl
  | cons fr up ih =>
    obtain ⟨first, others⟩ := forall_mem_cons.1 apart
    have no : Fixer.matches? (modulePattern table) fr.tag job = .ok false job := by
      obtain ⟨_, -, splits⟩ | ⟨run, -⟩ := (decided_modulePattern table).matchAt_cases
        (stands.part (Path.mem_nodes_plug up _))
      · exact absurd (splits_modulePattern splits).1 first
      · exact Fix.bind_of_ok run _
    rw [Path.tags, map_cons, anyM_cons]
    exact (Fix.bind_of_ok no _).trans (ih others stands)

theorem matchOutermost_cases (table : Renames) (whole : Whole job.forest (outer.plug t))
    (apart : Outermost outer) (kind : t.kind = importName) :
    (∃ m, matchOutermost (modulePattern table) t.tag job = .ok (some m) job ∧ Captured table t m) ∨
      matchOutermost (modulePattern table) t.tag job = .ok none job ∧
        ∀ names, ¬ Splits (modulePattern table) [t] [] names := by
  obtain ⟨_, run, splits⟩ | ⟨run, none⟩ :=
    (decided_modulePattern table).matchAt_cases whole.stands.plugged
  · obtain ⟨named, splits⟩ := (splits_modulePattern splits).2 kind
    have captured := captured_of_splits splits
    obtain ⟨_, _, _, _, _, _, _, _, _, _, bare⟩ := id captured
    refine .inl ⟨_, (Fix.bind_of_ok run _).trans ?_, captured⟩
    simp only [bare, Bool.false_eq_true, if_false]
    exact Fix.bind_of_ok (isWithin_eq whole apart) _
  · exact .inr ⟨Fix.bind_of_ok run _, none⟩

/-! ## Renaming -/

/-- The leaf with the new name. -/
def renewed (new : Text) (l : Leaf) : Leaf := { kind := Kind.name, value := .text new, lead := l.lead }

theorem rename_ok (inner : path ≠ []) (whole : Whole job.forest (path.plug (.leaf i l))) (new : Text) :
    ∃ j f, rename i new job.forest = .ok () f ∧ Whole f (path.plug (.leaf j (renewed new l))) := by
  have untouched := Untouched.of_extends (extends_push _ { body := .leaf (renewed new l) }) whole
  obtain ⟨rfl, -⟩ | ⟨-, f, run, became⟩ :=
    untouched.replaceBy whole (whole_newLeaf _ _) (by simp [tags, nodes, tag])
  · exact absurd rfl inner
  · have lead : job.forest.leadOf i = l.lead := congrArg Tree.lead whole.stands.plugged.view_eq
    refine ⟨_, f, ?_, became.whole⟩
    rw [renewed, ← lead] at run
    exact run

theorem Old.value (h : Old table l) : ∃ old new, l.value = .text old ∧ table.lookup old = some new := by
  obtain ⟨e, he, fits⟩ := h
  have same : l.value.is e.1 = true := (Bool.and_eq_true_iff.1 fits).2
  obtain ⟨new, found⟩ : ∃ new, table.lookup e.1 = some new :=
    Option.ne_none_iff_exists'.1 fun none => by simpa using lookup_eq_none_iff.1 none e he
  cases value : l.value with
  | text u =>
    rw [value] at same
    exact ⟨e.1, new, by rw [eq_of_beq same], found⟩
  | number | absent =>
    rw [value] at same
    cases same

/-- The second tree comes from the first one by giving imported modules their new names. -/
inductive Renamed (table : Renames) : Tree NodeId → Tree NodeId → Prop
  | refl (t : Tree NodeId) : Renamed table t t
  | step {named many : Bool} {path : Path NodeId} {i j : NodeId} {l : Leaf} {old new : Text}
      {t : Tree NodeId} (place : ModulePlace named many path) (value : l.value = .text old)
      (found : table.lookup old = some new)
      (later : Renamed table (path.plug (.leaf j (renewed new l))) t) :
      Renamed table (path.plug (.leaf i l)) t

/-- No module that the statement imports has an old name. -/
def Settles (table : Renames) (t : Tree NodeId) : Prop :=
  ∀ named many path i l, ModulePlace named many path → t = Path.plug path (.leaf i l) → ¬ Old table l

theorem ModulePlace.settles (h : ModulePlace named false path) (new : ¬ Old table l) (i : NodeId) :
    Settles table (path.plug (.leaf i l)) := by
  rintro _ _ _ _ _ ⟨inner', outer'⟩ eq
  obtain ⟨inner, ⟨⟩⟩ := h
  cases outer' <;> cases inner <;> cases inner' <;> cases eq
  all_goals exact new

open Classical in
noncomputable def olds (table : Renames) (t : Tree NodeId) : Nat :=
  t.leaves.countP fun l => decide (Old table l)

theorem ModulePlace.statement (h : ModulePlace named many path) (v : Tree NodeId) : path ≠ [] ∧
    (path.plug v).kind = importName ∧ ∀ v', (path.plug v').tag = (path.plug v).tag := by
  obtain ⟨-, outer⟩ := h
  simp only [Path.plug_append]
  cases outer <;> exact ⟨by simp, rfl, fun _ => rfl⟩

/-- A module gets its new name; if there are more, the search goes on. -/
theorem renameModules_step (p : Pattern) (inner : path ≠ [])
    (whole : Whole job.forest (path.plug (.leaf i l))) (module : m.one? "module_name" = some i)
    (several : m.has "multiple_imports" = many) (value : l.value = .text old)
    (found : table.lookup old = some new) (fuel : Nat) (x : NodeId) :
    ∃ j job', Whole (Job.forest job') (path.plug (.leaf j (renewed new l))) ∧
      renameModules table p (fuel + 1) x m job = (if many then do
        match ← matchOutermost p x with
        | some m => renameModules table p fuel x m
        | none => pure ()
      else pure ()) job' := by
  obtain ⟨j, f, run, whole'⟩ := rename_ok inner whole new
  have text := valueText_leaf whole.stands.plugged value
  simp only [renameModules, module, several, Fix.bind_of_ok (liftEdit_of_ok text), found, orFault,
    pure_bind, Fix.bind_of_ok (liftEdit_of_ok run)]
  by_cases plain : m.has "name_import" = true
  · rw [if_pos plain]
    exact ⟨j, { job with forest := f, memory.renamed := OrderedMap.insert job.memory.renamed old new },
      whole', by cases many <;> rfl⟩
  · rw [if_neg plain]
    exact ⟨j, { job with forest := f }, whole', by cases many <;> rfl⟩

/-- With each round one old name less is left. -/
theorem renameModules_run (fresh : ∀ e ∈ table, e.2 ∉ table.map Prod.fst) (apart : Outermost outer)
    {fuel : Nat} (whole : Whole job.forest (outer.plug t)) (captured : Captured table t m)
    (enough : olds table t < fuel) :
    ∃ job' t', renameModules table (modulePattern table) fuel t.tag m job = .ok () job' ∧
      Whole job'.forest (outer.plug t') ∧ Renamed table t t' ∧ Settles table t' := by
  induction fuel generalizing job t m with
  | zero => exact absurd enough (Nat.not_lt_zero _)
  | succ fuel ih =>
    obtain ⟨named, many, path, i, l, rfl, place, isOld, module, several, -⟩ := captured
    obtain ⟨old, new, value, found⟩ := isOld.value
    obtain ⟨inner, -, tag⟩ := place.statement (.leaf i l)
    have last : ¬ Old table (renewed new l) := fun h => by
      obtain ⟨_, _, ⟨⟩, found'⟩ := h.value
      exact fresh _ (OrderedMap.mem_of_get? (m := table) found)
        (mem_map_of_mem (OrderedMap.mem_of_get? (m := table) found'))
    rw [← Path.plug_append] at whole
    obtain ⟨j, job₁, whole', start⟩ := renameModules_step (modulePattern table)
      (append_ne_nil_of_left_ne_nil inner outer) whole module several value found fuel
      (path.plug (.leaf i l)).tag
    rw [Path.plug_append] at whole'
    rw [start]
    cases many with
    | false => exact ⟨job₁, _, rfl, whole', .step place value found (.refl _), place.settles last j⟩
    | true =>
      have kind := (place.statement (.leaf j (renewed new l))).2.1
      obtain ⟨m', run, captured⟩ | ⟨run, none⟩ := matchOutermost_cases table whole' apart kind
      all_goals rw [tag] at run
      · have fewer : olds table (path.plug (.leaf j (renewed new l))) <
            olds table (path.plug (.leaf i l)) := by
          simp [olds, Path.leaves_plug, leaves, last, isOld]
        obtain ⟨job', t', run', whole', renamed, settles⟩ := ih whole' captured (by omega)
        rw [tag] at run'
        exact ⟨job', t', (Fix.bind_of_ok run _).trans run', whole', .step place value found renamed,
          settles⟩
      · refine ⟨job₁, _, Fix.bind_of_ok run _, whole', .step place value found (.refl _), ?_⟩
        intro named many path' i' l' place' eq old'
        obtain ⟨names, splits⟩ := place'.exists_splits old' i'
        exact none names (eq ▸ splits)

/-- No new name is an old one, the old names are words, and the pattern that is written with them is
read as it is meant. -/
structure Spelled (table : Renames) : Prop where
  fresh : ∀ e ∈ table, e.2 ∉ table.map Prod.fst
  words : ∀ e ∈ table, guessedKind e.1 ∈ [some Kind.name, none]
  read : (Context.fixed (moduleUse (table.map Prod.fst))).same (modulePattern table) = true

theorem Spelled.recognise (h : Spelled table) (title : Text) (rank : Nat) :
    (renamedModules title rank table).recognise = matchOutermost (modulePattern table) :=
  congrArg matchOutermost ((same_iff _ _).1 h.read)

/-- The table of the database modules is spelled with words. -/
theorem spelled_lateModuleTable : Spelled lateModuleTable := by
  constructor <;> decide +kernel

/-- The statement `import anydbm, whichdb`. -/
def sampleImport : SyntaxTree :=
  let word (v : Text) : SyntaxTree := .leaf () { Leaf.ofText Kind.name v with lead := [' '] }
  .node () importName [.leaf () (.ofText Kind.name "import"), .node () dottedAsNames
    [word "anydbm", .leaf () (.ofText Kind.comma ","), word "whichdb"]]

end Fixes

end Retouch
