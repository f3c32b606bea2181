import Retouch.Proofs.EditRuns
import Retouch.Proofs.ImportSearch
import Retouch.Token.Lexeme

/-!
# Imports that are added

Where a name is not imported, a line that imports it is made (`makeLine_run`) and put among the
statements of the program (`touchImport_run`).  The search for imports finds this line behind whatever
comes before it (`bindingAmong_insert`), so the line is added once (`touchImport_once`).  It goes to the
top, before the comments there, exactly if no line begins with an import or a literal
(`touchImport_head`).
-/

namespace Retouch

open List

namespace Query

open Language.Symbol

variable {α : Type} {package : Option Text} {name : Text} {fuel fuel' : Nat} {line b : Tree α}
  {l r : List (Tree α)}

/-- A line that is found is found behind statements among which nothing is found. -/
theorem bindingAmong_insert
    (found : ∀ n, bindingAmong name package (n + 2) (line :: r) = .ok (some b))
    (enough : (Tree.nodesAll (l ++ r)).length + 1 < fuel) (le : fuel ≤ fuel')
    (h : bindingAmong name package fuel (l ++ r) = .ok none) :
    bindingAmong name package fuel' (l ++ line :: r) = .ok (some b) := by
  induction l generalizing fuel fuel' with
  | nil =>
    obtain ⟨n, rfl⟩ := Nat.exists_eq_add_of_le' (show 2 ≤ fuel' by omega)
    exact found n
  | cons t l ih =>
    obtain ⟨fuel, rfl⟩ := Nat.exists_eq_add_of_le' (show 1 ≤ fuel by omega)
    obtain ⟨fuel', rfl⟩ := Nat.exists_eq_add_of_le' (show 1 ≤ fuel' by omega)
    have pos := length_pos_of_mem t.self_mem_nodes
    rw [cons_append, Tree.nodesAll, length_append] at enough
    obtain ⟨loop, later, here, below, skipped⟩ := bindingAmong_none_cons h
    have same : bindingBelow name package (bindingAmong name package fuel') t =
        bindingBelow name package (bindingAmong name package fuel) t :=
      bindingBelow_congr fun us _ => bindingAmong_of_le (by omega) (by omega)
    have rest : bindingAmong name package fuel' (l ++ line :: r) = .ok (some b) :=
      ih (by omega) (by omega) later
    simp only [cons_append, bindingAmong, loop, same, below, bind, Except.bind]
    cases here with
    | none => exact rest
    | some c =>
      obtain ⟨other, some, full⟩ := skipped c rfl
      simpa [other, some, full] using rest

/-- An import at the beginning of a line is found first. -/
theorem bindingAmong_line {s : Tree α} {i : α} {n : Nat} (binds : importBinds s name package = .ok true)
    (kind : isImport s = true) (rest r : List (Tree α)) :
    bindingAmong name package (n + 2) (.node i simpleStmt (s :: rest) :: r) = .ok (some s) := by
  have inner : bindingAmong name package (n + 1) (s :: rest) = .ok (some s) := by
    have cases : s.kind = importName ∨ s.kind = importFrom := by simpa [isImport] using kind
    have loop : loopBinds name s = .ok false := by
      rw [loopBinds]
      rcases cases with k | k <;> rw [k] <;> rfl
    have below : bindingBelow name package (bindingAmong name package n) s = .ok (some s) := by
      rw [bindingBelow, definitionBinds, binds]
      rcases cases with k | k <;> rw [k] <;> rfl
    simp [bindingAmong, loop, below, kind, bind, Except.bind, pure, Except.pure]
  have below : bindingBelow name package (bindingAmong name package (n + 1))
      (.node i simpleStmt (s :: rest)) = .ok (some s) := inner
  rw [bindingAmong, below]
  simp [loopBinds, Tree.kind, simpleStmt, forStmt, kind, bind, Except.bind, pure, Except.pure]

end Query

namespace Forest

variable {f f' : Forest} {i p c : NodeId} {ts us : List (Tree NodeId)} {h : List NodeId → List NodeId}

theorem chain_congr {step step' : NodeId → Option NodeId} {limit : Nat}
    (agree : ∀ x ∈ i :: chain step limit i, step' x = step x) :
    chain step' limit i = chain step limit i := by
  induction limit generalizing i with
  | zero => rfl
  | succ limit ih =>
    have here := agree i mem_cons_self
    unfold chain at agree ⊢
    rw [here]
    cases next : step i with
    | none => rfl
    | some n =>
      rw [next] at agree
      exact congrArg _ (ih fun x hx => agree x (mem_cons_of_mem _ hx))

theorem ancestors_childAdded (apart : c ∉ i :: f.ancestors i) :
    ((f.childAdded p c h).markChanged p).ancestors i = f.ancestors i := by
  have size : ((f.childAdded p c h).markChanged p).size = f.size := by simp [childAdded]
  rw [ancestors, size]
  refine chain_congr fun x hx => ?_
  rw [parent?_markChanged, childAdded, parent?_alterBody, parent?_setParent]
  exact if_neg fun (same : x = c ∧ _) => apart (same.1 ▸ hx)

theorem kind_childAdded (f : Forest) (p c : NodeId) (h : List NodeId → List NodeId) (x : NodeId) :
    ((f.childAdded p c h).markChanged p).kind x = f.kind x := by
  have face : f.kind x = (f.setParent c (some p)).kind x := by rw [kind_eq, kind_eq, face_setParent]
  rw [kind_eq, face_markChanged, ← kind_eq, face, childAdded, alterChildren, alterBody, kind, cell_alter, kind]
  by_cases here : x = p ∧ x < (f.setParent c (some p)).size
  · rw [if_pos here]
    cases ((f.setParent c (some p)).cell x).body <;> simp
  · rw [if_neg here]

theorem kind_view (f : Forest) (x : NodeId) : (f.view x).kind = f.kind x := by
  rw [view, viewWith, kind]
  cases (f.cell x).body <;> rfl

/-- Trees that stay are seen as before. -/
theorem Planted.seen (h : Planted f ts) (h' : Planted f' us) (sub : ts ⊆ us) (inside : i < f.size) :
    f'.view i = f.view i ∧ f'.ancestors i = f.ancestors i ∧ ∀ x ∈ f.ancestors i, x < f.size := by
  obtain ⟨t, ht, n, hn, rfl⟩ := h.exists_part inside
  obtain ⟨path, rfl⟩ := Path.exists_plug hn
  have stands := h.stands ht
  have stands' := h'.stands (sub ht)
  have above := stands.ancestors_eq (h.roots _ ht)
  refine ⟨by rw [stands'.plugged.view_eq, stands.plugged.view_eq],
    (stands'.ancestors_eq (h'.roots _ (sub ht))).trans above.symm, fun x hx => stands.inside ?_⟩
  rw [above] at hx
  rw [Path.tags_plug]
  exact mem_append_left _ (Path.tags_subset path _ hx)

/-- A forest of one tree is planted. -/
theorem planted_ofTree {α : Type} (t : Tree α) : Planted (ofTree t).2 [t.numbered 0] :=
  Act.planted_empty.plant t

end Forest

namespace Build

open Query Language.Symbol Forest

variable {α : Type} {f f' g : Forest} {i root : NodeId} {package : Option Text} {what : Text}
  {ts vs : List (Tree NodeId)}

def importLine (package : Option Text) (what : Text) (tag : Nat → NodeId) : Tree NodeId :=
  let word (i : Nat) (w lead : Text) : Tree NodeId :=
    .leaf (tag i) { kind := Kind.name, value := .text w, lead }
  let statement : Tree NodeId :=
    match package with
    | none => .node (tag 2) importName [word 0 "import" [], word 1 what " "]
    | some p => .node (tag 5) importFrom [word 1 "from" [], word 2 p " ", word 3 "import" " ",
        .node (tag 4) importAsNames [word 0 what " "]]
  .node (tag 7) simpleStmt
    [statement, .leaf (tag 6) { kind := Kind.newline, value := .text "\n", lead := [] }]

/-- The line is found as an import of the name. -/
theorem bindingAmong_importLine (named : what ≠ "as")
    (stripped : ∀ p, package = some p → p ≠ [] ∧ Text.strip p = p) (tag : Nat → NodeId)
    (r : List (Tree NodeId)) :
    ∃ s, ∀ n, bindingAmong what package (n + 2) (importLine package what tag :: r) = .ok (some s) := by
  cases package with
  | none =>
    refine ⟨_, fun n => bindingAmong_line ?_ rfl _ _⟩
    have same := beq_self_eq_true what
    exact congrArg Except.ok same
  | some p =>
    obtain ⟨given, strip⟩ := stripped p rfl
    refine ⟨_, fun n => bindingAmong_line ?_ rfl _ _⟩
    have kept : (if some p = some [] then none else some p) = some p := if_neg (by simpa using given)
    have names (w : Text) : (findName? w (.node (tag 4) importAsNames [.leaf (tag 0)
        { kind := Kind.name, value := .text what, lead := [' '] }])).isSome = (what == w) := by
      change (if Kind.name = Kind.name ∧ (what == w) = true then some _ else none).isSome = _
      cases what == w <;> rfl
    have trimmed : .strip (' ' :: p) = p := strip
    have other := (names "as").trans (beq_false_of_ne named)
    have here := (names what).trans (beq_self_eq_true what)
    unfold importBinds
    rw [kept]
    change (if .strip (' ' :: p) ≠ p then (pure false : Attempt Bool) else
      if true = true ∧ (findName? "as" (.node (tag 4) importAsNames _)).isSome = true then _ else
      if importAsNames = importAsNames ∧ (findName? what (.node (tag 4) importAsNames _)).isSome = true
      then _ else _) = _
    rw [if_neg (not_not.2 trimmed), if_neg fun h => Bool.false_ne_true (other.symm.trans h.2),
      if_pos ⟨rfl, here⟩]
    rfl

/-! ## Making the line -/

theorem exists_leaf (h : Planted f ts) (l : Leaf) :
    ∃ a f', newLeaf l f = .ok a f' ∧ Planted f' (.leaf a l :: ts) :=
  ⟨f.size, _, rfl, h.plant (.leaf () l)⟩

theorem exists_node (h : Planted f vs) {k : Kind} (symbol : Kind.firstSymbol ≤ k)
    (us : List (Tree NodeId)) (perm : (us ++ ts).Perm vs) :
    ∃ n f', newNode k (us.map Tree.tag) f = .ok n f' ∧ Planted f' (.node n k us :: ts) := by
  replace h := h.perm perm
  refine ⟨f.size, _, newNode_eq symbol ?_ fun c hc => ?_, h.newNode k⟩
  · refine h.nodup.sublist ((Tree.map_tag_sublist us).trans ?_)
    rw [Tree.tagsAll_append]
    exact sublist_append_left ..
  · obtain ⟨u, hu, rfl⟩ := mem_map.1 hc
    have member := mem_append_left ts hu
    exact ⟨(h.stands member).tag_lt, h.roots u member⟩

theorem run_bind {α β : Type} {e : Edit α} {next : α → Edit β} {a : α} (h : e f = .ok a f') :
    (e >>= next) f = next a f' := by
  simp [bind, EStateM.bind, h]

def makeLine (package : Option Text) (what : Text) : Edit NodeId := do
  let statement ← match package with
    | none => do newNode importName [← name "import", ← name what " "]
    | some p => do fromImport p [← name what " "]
  newNode simpleStmt [statement, ← newline]

/-- The line is made, and all other trees stay. -/
theorem makeLine_run (h : Planted f ts) (package : Option Text) (what : Text) :
    ∃ tag f', makeLine package what f = .ok (tag 7) f' ∧
      Planted f' (importLine package what tag :: ts) := by
  let word (w lead : Text) : Leaf := { kind := .name, value := .text w, lead }
  let ending : Leaf := { kind := .newline, value := .text "\n", lead := [] }
  cases package with
  | none =>
    obtain ⟨a, f₁, run₁, h₁⟩ := exists_leaf h (word "import" [])
    obtain ⟨b, f₂, run₂, h₂⟩ := exists_leaf h₁ (word what " ")
    obtain ⟨s, f₃, run₃, h₃⟩ := exists_node h₂ (k := importName) (by decide) [.leaf a _, .leaf b _]
      (.swap ..)
    obtain ⟨e, f₄, run₄, h₄⟩ := exists_leaf h₃ ending
    obtain ⟨n, f₅, run₅, h₅⟩ := exists_node h₄ (k := simpleStmt) (by decide)
      [.node s _ _, .leaf e _] (.swap ..)
    refine ⟨fun | 0 => a | 1 => b | 2 => s | 6 => e | _ => n, f₅, ?_, h₅⟩
    exact (run_bind run₁).trans <| (run_bind run₂).trans <| (run_bind run₃).trans <|
      (run_bind run₄).trans run₅
  | some p =>
    obtain ⟨w, f₁, run₁, h₁⟩ := exists_leaf h (word what " ")
    obtain ⟨a, f₂, run₂, h₂⟩ := exists_leaf h₁ (word "from" [])
    obtain ⟨b, f₃, run₃, h₃⟩ := exists_leaf h₂ (word p " ")
    obtain ⟨c, f₄, run₄, h₄⟩ := exists_leaf h₃ (word "import" " ")
    obtain ⟨m, f₅, run₅, h₅⟩ := exists_node h₄ (k := importAsNames) (by decide) [.leaf w _]
      (@perm_middle _ _ [_, _, _] _).symm
    obtain ⟨s, f₆, run₆, h₆⟩ := exists_node h₅ (k := importFrom) (by decide)
      [.leaf a _, .leaf b _, .leaf c _, .node m _ _] ((reverse_perm [_, _, _, _]).append_right ts)
    obtain ⟨e, _, run₇, h₇⟩ := exists_leaf h₆ ending
    obtain ⟨n, f₈, run₈, h₈⟩ := exists_node h₇ (k := simpleStmt) (by decide)
      [.node s _ _, .leaf e _] (.swap ..)
    refine ⟨fun | 0 => w | 1 => a | 2 => b | 3 => c | 4 => m | 5 => s | 6 => e | _ => n, f₈, ?_, h₈⟩
    have gone : removeAll [w] f₁ = .ok () f₁ := run_bind (remove_eq_of_none (h₁.roots _ mem_cons_self))
    have statement : fromImport p [w] f₁ = .ok s f₆ :=
      (run_bind gone).trans <| (run_bind run₂).trans <| (run_bind run₃).trans <| (run_bind run₄).trans <|
        (run_bind run₅).trans run₆
    exact (run_bind run₁).trans <| (run_bind statement).trans <| (run_bind run₇).trans run₈

theorem touchImport_eq {n : NodeId} (above : programOf i f = .ok root f)
    (new : isImported package what root f = .ok false f) (run : makeLine package what f = .ok n f') :
    touchImport package what i f = insertChild root (importPlace (f.view root).children) n f' := by
  have rest : touchImport package what i f = (makeLine package what >>= fun line =>
      insertChild root (importPlace (f.view root).children) line) f := by
    cases package <;> simp only [makeLine, bind_assoc] <;>
      exact (run_bind above).trans ((run_bind new).trans rfl)
  rw [rest, run_bind run]

theorem lt_of_programOf (above : programOf i f = .ok root f) : i < f.size := by
  have found := (programOf_eq_ok.1 above).2
  have kind : f.kind root = fileInput := by simpa using find?_some found
  by_contra out
  have none : f.ancestors i = [] := by
    unfold ancestors
    cases f.size with
    | zero => rfl
    | succ n => rw [chain, parent?_of_le (Nat.le_of_not_lt out)]
  have only := mem_of_find?_eq_some found
  rw [none, mem_singleton] at only
  rw [only, Forest.kind, cell_of_le (Nat.le_of_not_lt out)] at kind
  cases kind

/-- What stands under the root after the line is put in. -/
theorem touchImport_run (h : Planted f ts) (above : programOf i f = .ok root f)
    (new : isImported package what root f = .ok false f)
    (done : touchImport package what i f = .ok () g) :
    let cs := (f.view root).children
    programOf i g = .ok root g ∧ f.view root = .node root fileInput cs ∧
      ∃ tag, g.view root = .node root fileInput
        (cs.take (importPlace cs) ++ importLine package what tag :: cs.drop (importPlace cs)) := by
  intro cs
  obtain ⟨tag, f', run, h'⟩ := makeLine_run h package what
  rw [touchImport_eq above new run] at done
  have found := (programOf_eq_ok.1 above).2
  have kind : f.kind root = fileInput := by simpa using find?_some found
  have inside := lt_of_programOf above
  obtain ⟨-, same, small⟩ := h.seen h' (subset_cons_self ..) inside
  have old : ∀ x ∈ i :: f.ancestors i, x < f.size := forall_mem_cons.2 ⟨inside, small⟩
  have fresh : ∀ x < f.size, x ≠ tag 7 := by
    rintro x hx rfl
    have apart := (nodup_append.1 (Tree.tagsAll_cons .. ▸ h'.nodup)).2.2
    exact apart _ (Tree.tag_mem_tags _) _ (h.tags.mem_iff.2 (mem_range.2 hx)) rfl
  have rootInside := old root (mem_of_find?_eq_some found)
  have node : f'.isLeaf root = false := by
    cases leaf : f'.isLeaf root with
    | false => rfl
    | true =>
      simp only [insertChild, addChild, needNode, bind, EStateM.bind, get_ok, leaf, if_true] at done
      cases done
  obtain ⟨t, ht, n, hn, rfl⟩ := h.exists_part rootInside
  have foreign : f'.top n.tag ≠ tag 7 := by
    rw [h'.top_of_part (mem_cons_of_mem _ ht) hn]
    exact fresh _ (h.stands ht).tag_lt
  have line := h'.stands mem_cons_self
  have free : Free f' [tag 7] :=
    ⟨nodup_singleton _, by simpa using ⟨line.tag_lt, h'.roots _ mem_cons_self⟩⟩
  obtain ⟨l, r, length, edited⟩ := h'.addChild node (Act.insertPlace_le _ (importPlace cs)) free foreign
    (g := fun cs' => cs'.insertIdx (insertPlace cs'.length (importPlace cs)) (tag 7))
    fun l r eq length => by rw [← eq, ← length, eq, Act.insertIdx_append]
  rw [insertChild, addChild_eq node] at done
  cases done
  have stands := (h'.stands (mem_cons_of_mem _ ht)).part hn
  have stood := ((h.stands ht).part hn).view_eq
  refine ⟨programOf_eq_ok.2 ⟨rfl, ?_⟩, ?_, tag, edited.splices.edited.here.trans ?_⟩
  · rw [ancestors_childAdded (same ▸ fun mem => fresh _ (old _ mem) rfl), same, ← found, ← head?_filter,
      ← head?_filter]
    refine congrArg _ (filter_congr fun x hx => ?_)
    rw [kind_childAdded, ← kind_view, (h.seen h' (subset_cons_self ..) (old x hx)).1, kind_view]
  · show f.view n.tag = .node n.tag fileInput (f.view n.tag).children
    rw [← kind_view, stood] at kind
    rw [stood]
    cases n with
    | leaf j l =>
      rw [isLeaf_eq, stands.face_eq] at node
      cases node
    | node j k cs => exact kind ▸ rfl
  · have children : cs = l.map f'.view ++ r.map f'.view := by
      have eq : f'.children n.tag = l ++ r := edited.splices.children
      rw [← map_append, ← eq, stands.children_eq_map, map_map]
      show (f.view n.tag).children = _
      rw [stood]
      refine ((map_congr_left fun c hc => ?_).trans (map_id' _)).symm
      exact (stands.part (Tree.child_mem_nodes (Tree.self_mem_nodes _) hc)).view_eq
    have size : (l.map f'.view).length = min (importPlace cs) cs.length := by
      have eq : cs.length = (f'.children n.tag).length := by
        rw [children, edited.splices.children, nil_append, length_append, length_append, length_map,
          length_map]
      rw [length_map, length, eq, insertPlace]
      rfl
    have before : cs.take (importPlace cs) = l.map f'.view := by
      rw [take_eq_take_min, ← size, children, take_left]
    have after : cs.drop (importPlace cs) = r.map f'.view := by
      rw [drop_eq_drop_min, ← size, children, drop_left]
    have seen : f'.view (tag 7) = importLine package what tag := line.view_eq
    rw [← kind_view, stands.view_eq, ← stood, kind_view, kind, map_append, map_append, map_singleton,
      seen, before, after]
    rfl

theorem programOf_self (kind : f.kind root = fileInput) : programOf root f = .ok root f :=
  programOf_eq_ok.2 ⟨rfl, find?_cons_of_pos (by simpa using kind)⟩

/-- A program that was touched has a root, which imports the name already or does not. -/
theorem touchImport_cases (done : touchImport package what i f = .ok () g) :
    ∃ root, programOf i f = .ok root f ∧ f.kind root = fileInput ∧
      (isImported package what root f = .ok true f ∧ g = f ∨
        isImported package what root f = .ok false f) := by
  cases above : programOf i f with
  | error e f' =>
    simp only [touchImport, bind, EStateM.bind, above] at done
    cases done
  | ok root f' =>
    obtain ⟨rfl, found⟩ := programOf_eq_ok.1 above
    refine ⟨root, rfl, by simpa using find?_some found, ?_⟩
    rw [touchImport, run_bind above] at done
    cases answer : isImported package what root f' with
    | error e f' =>
      simp only [bind, EStateM.bind, answer] at done
      cases done
    | ok b f'' =>
      obtain ⟨_, _, above, -⟩ := isImported_eq_ok.1 answer
      obtain ⟨rfl, -⟩ := programOf_eq_ok.1 above
      cases b with
      | false => exact .inr rfl
      | true =>
        rw [run_bind answer] at done
        cases done
        exact .inl ⟨rfl, rfl⟩

/-- What the answer about the root of a program says of the search in it. -/
theorem binding_of_isImported {found : Bool} (kind : f.kind root = fileInput)
    (answer : isImported package what root f = .ok found g) :
    ∃ b, binding what (f.view root) package = .ok b ∧ b.isSome = found := by
  obtain ⟨_, b, above, searched, isSome⟩ := isImported_eq_ok.1 answer
  rw [programOf_self kind] at above
  cases above
  exact ⟨b, searched, isSome⟩

/-- Where the search finds something, the name counts as imported and nothing is added. -/
theorem settled_of_binding {s : Tree NodeId} (above : programOf i f = .ok root f)
    (searched : binding what (f.view root) package = .ok (some s)) :
    isImported package what i f = .ok true f ∧ touchImport package what i f = .ok () f := by
  have kind : f.kind root = fileInput := by simpa using find?_some (programOf_eq_ok.1 above).2
  have answer := isImported_eq_ok.2 ⟨root, some s, programOf_self kind, searched, rfl⟩
  refine ⟨isImported_eq_ok.2 ⟨root, some s, above, searched, rfl⟩, ?_⟩
  rw [touchImport, run_bind above, run_bind answer]
  rfl

/-- **An import is added once.**  Afterwards the name counts as imported, the statements of the program
are those that were there and one more line at most, and to add the import again changes nothing. -/
theorem touchImport_once (h : Planted f ts) (named : what ≠ "as")
    (stripped : ∀ p, package = some p → p ≠ [] ∧ Text.strip p = p)
    (done : touchImport package what i f = .ok () g) :
    isImported package what i g = .ok true g ∧ touchImport package what i g = .ok () g ∧
      ∃ root l new r, programOf i f = .ok root f ∧ (f.view root).children = l ++ r ∧
        (g.view root).children = l ++ (new ++ r) ∧ new.length ≤ 1 ∧
        ∀ line ∈ new, line.kind = simpleStmt := by
  obtain ⟨root, above, kind, ⟨answer, rfl⟩ | answer⟩ := touchImport_cases done
  · obtain ⟨b, searched, isSome⟩ := binding_of_isImported kind answer
    obtain ⟨s, rfl⟩ := Option.isSome_iff_exists.1 isSome
    obtain ⟨imported, again⟩ := settled_of_binding above searched
    exact ⟨imported, again, root, [], [], _, above, rfl, rfl, Nat.zero_le _, nofun⟩
  · obtain ⟨above', -, tag, view⟩ := touchImport_run h above answer done
    obtain ⟨b, searched, isNone⟩ := binding_of_isImported kind answer
    obtain rfl : b = none := by simpa using isNone
    obtain ⟨s, found⟩ := bindingAmong_importLine named stripped tag
      ((f.view root).children.drop (importPlace (f.view root).children))
    have again : binding what (g.view root) package = .ok (some s) := by
      rw [binding, view]
      refine bindingAmong_insert found ?_ ?_ (by rw [take_append_drop]; exact searched)
      · rw [take_append_drop, length_nodes]
        omega
      · rw [length_nodes, length_nodes, Tree.children]
        conv_lhs => rw [← take_append_drop (importPlace (f.view root).children) (f.view root).children]
        simp only [Tree.nodesAll_append, Tree.nodesAll, length_append]
        omega
    obtain ⟨imported, again⟩ := settled_of_binding above' again
    exact ⟨imported, again, root, _, [_], _, above, (take_append_drop ..).symm, by rw [view]; rfl,
      Nat.le_refl 1, forall_mem_singleton.2 rfl⟩

theorem touchImport_once_sample :
    ∃ g, touchImport (some ['p']) ['x'] 0 (sampleBlocks ifStmt []) = .ok () g ∧
      isImported (some ['p']) ['x'] 0 g = .ok true g := by
  have stripped : ∀ p, some ['p'] = some p → p ≠ [] ∧ Text.strip p = p := by
    rintro _ ⟨⟩
    decide
  obtain ⟨g, done⟩ : ∃ g, touchImport (some ['p']) ['x'] 0 (sampleBlocks ifStmt []) = .ok () g :=
    ⟨_, rfl⟩
  exact ⟨g, done, (touchImport_once (planted_ofTree _) (by decide) stripped done).1⟩

/-! ## What stands before the program -/

def isStringLine (t : Tree α) : Bool :=
  t.kind == simpleStmt && (t.children.head?.map fun c => c.kind == Kind.string).getD false

def importText (package : Option Text) (what : Text) : Text :=
  match package with
  | none => "import" ++ " " ++ what ++ "\n"
  | some p => "from" ++ " " ++ p ++ " " ++ "import" ++ " " ++ what ++ "\n"

theorem text_importLine (package : Option Text) (what : Text) (tag : Nat → NodeId) :
    (importLine package what tag).text = importText package what := by
  unfold importText
  cases package with
  | none =>
    show ([] ++ ("import" : Text) ++ ((" " : Text) ++ what ++ [])) ++ ([] ++ ("\n" : Text) ++ []) = _
    simp
  | some p =>
    show [] ++ ("from" : Text) ++ ((" " : Text) ++ p ++ ((" " : Text) ++ ("import" : Text) ++
      ((" " : Text) ++ what ++ [] ++ []))) ++ ([] ++ ("\n" : Text) ++ []) = _
    simp

theorem textAll_importLine (l r : List (Tree NodeId)) (package : Option Text) (what : Text)
    (tag : Nat → NodeId) : Tree.textAll (l ++ importLine package what tag :: r) =
      Tree.textAll l ++ (importText package what ++ Tree.textAll r) := by
  simp [Tree.textAll_eq_flatMap, text_importLine]

/-- A new line goes to the top exactly if no line begins with an import or a literal. -/
theorem importPlace_eq_zero {lines : List (Tree α)}
    (ended : ∀ t, lines.getLast? = some t → isImportLine t = false) :
    importPlace lines = 0 ↔ ∀ t ∈ lines, isImportLine t = false ∧ isStringLine t = false := by
  have strings : lines.findIdx? isStringLine = none ↔ ∀ t ∈ lines, isStringLine t = false :=
    findIdx?_eq_none_iff
  by_cases imports : ∃ t ∈ lines, isImportLine t = true
  · have first := findIdx_lt_length_of_exists imports
    obtain ⟨t, ht, yes⟩ := imports
    refine iff_of_false ?_ fun none => Bool.false_ne_true ((none t ht).1.symm.trans yes)
    -- The run of imports begins with one and does not go on to the last line.
    have run := drop_eq_getElem_cons first
    have last := getLast?_drop (l := lines) (i := lines.findIdx isImportLine)
    rw [if_neg (Nat.not_le.2 first), run] at last
    unfold importPlace
    simp only [run, findIdx?_cons, findIdx_getElem, if_pos first]
    cases found : (lines.drop (lines.findIdx isImportLine + 1)).findIdx? fun t => !isImportLine t with
    | some n => simp
    | none =>
      have all := findIdx?_eq_none_iff.1 found
      obtain ⟨u, eq⟩ := Option.isSome_iff_exists.1 (getLast?_isSome.2 (cons_ne_nil _ _))
      have no := ended u (last ▸ eq)
      rcases mem_cons.1 (mem_of_getLast? eq) with rfl | later
      · cases (findIdx_getElem (w := first)).symm.trans no
      · exact absurd (all u later) (by rw [no]; rintro ⟨⟩)
  · have no : ∀ t ∈ lines, isImportLine t = false := by simpa using imports
    have first := findIdx_eq_length.2 no
    unfold importPlace
    simp only [first, Nat.lt_irrefl]
    cases found : lines.findIdx? isStringLine with
    | none =>
      have lone := strings.1 found
      unfold isStringLine at found
      rw [found]
      exact iff_of_true rfl fun t ht => ⟨no t ht, lone t ht⟩
    | some n =>
      have found' := found
      unfold isStringLine at found'
      rw [found']
      refine iff_of_false (Nat.succ_ne_zero n) fun all => ?_
      rw [strings.2 fun t ht => (all t ht).2] at found
      cases found

theorem lead_begins (t : Tree α) : t.lead <+: t.text := by
  induction t using Tree.induct with
  | leaf i l => exact prefix_append ..
  | node i k cs ih =>
    cases cs with
    | nil => exact nil_prefix
    | cons c cs => exact (ih c mem_cons_self).trans (prefix_append ..)

/-- What stands before the first line stays there exactly if the new line does not go to the top. -/
theorem leadAll_prefix_iff {lines : List (Tree α)}
    (ended : ∀ t, lines.getLast? = some t → isImportLine t = false)
    (blank : Lexeme.headIs Lexeme.isNameStart (Tree.leadAll lines) = false) :
    Tree.leadAll lines <+: Tree.textAll (lines.take (importPlace lines)) ++
        (importText package what ++ Tree.textAll (lines.drop (importPlace lines))) ↔
      Tree.leadAll lines = [] ∨ ∃ t ∈ lines, isImportLine t = true ∨ isStringLine t = true := by
  have zero := importPlace_eq_zero ended
  by_cases top : importPlace lines = 0
  · have no : ¬ ∃ t ∈ lines, isImportLine t = true ∨ isStringLine t = true := by
      rintro ⟨t, ht, yes | yes⟩
      · exact Bool.false_ne_true ((zero.1 top t ht).1.symm.trans yes)
      · exact Bool.false_ne_true ((zero.1 top t ht).2.symm.trans yes)
    rw [or_iff_left no, top]
    refine ⟨fun pre => ?_, fun empty => empty ▸ nil_prefix⟩
    cases eq : Tree.leadAll lines with
    | nil => rfl
    | cons c rest =>
      rw [eq] at blank pre
      obtain ⟨_, same⟩ := pre
      have head := congrArg head? same
      have letter : c = 'i' ∨ c = 'f' := by
        cases package
        · exact .inl (Option.some.inj head)
        · exact .inr (Option.some.inj head)
      rcases letter with rfl | rfl <;> cases blank
  · refine iff_of_true ?_ (.inr ?_)
    · cases lines with
      | nil => exact nil_prefix
      | cons t ts =>
        obtain ⟨n, eq⟩ := Nat.exists_eq_succ_of_ne_zero top
        rw [eq]
        exact ((lead_begins t).trans (prefix_append ..)).trans (prefix_append ..)
    · by_contra none
      refine top (zero.2 fun t ht => ?_)
      simpa using fun h => none ⟨t, ht, h⟩

/-- **What stands before the program stays before it, unless a new line goes to the top.** -/
theorem touchImport_head (h : Planted f ts) (done : touchImport package what i f = .ok () g) :
    ∃ root, programOf i f = .ok root f ∧
      let program := (f.view root).children
      let place := importPlace program
      (g = f ∨ g.text root = Tree.textAll (program.take place) ++
        (importText package what ++ Tree.textAll (program.drop place))) ∧
      ((∀ t, program.getLast? = some t → isImportLine t = false) →
        Lexeme.headIs Lexeme.isNameStart (f.view root).lead = false →
        ((f.view root).lead <+: g.text root ↔ isImported package what root f = .ok true f ∨
          (f.view root).lead = [] ∨ ∃ t ∈ program, isImportLine t = true ∨ isStringLine t = true)) := by
  obtain ⟨root, above, kind, ⟨answer, rfl⟩ | answer⟩ := touchImport_cases done
  · exact ⟨root, above, .inl rfl, fun _ _ => iff_of_true (lead_begins _) (.inl answer)⟩
  · obtain ⟨-, whole, tag, view⟩ := touchImport_run h above answer done
    have text : g.text root = _ :=
      (congrArg Tree.text view).trans (textAll_importLine _ _ package what tag)
    refine ⟨root, above, .inr text, fun ended blank => ?_⟩
    have lead : (f.view root).lead = Tree.leadAll (f.view root).children := by
      rw [whole]
      rfl
    have new : isImported package what root f ≠ .ok true f := by
      rw [answer]
      nofun
    rw [text, or_iff_right new, lead]
    exact leadAll_prefix_iff ended (lead ▸ blank)

def sampleHead : Forest :=
  let name : Leaf := { kind := Kind.name, value := .text ['a'], lead := ['#', '\n'] }
  (Forest.ofTree (.node () fileInput [.node () simpleStmt [.leaf () name],
    .leaf () (.ofText Kind.endMarker [])])).2

/-- A new line goes before the comment at the top of a program. -/
theorem touchImport_head_comment : ∃ g, touchImport none ['x'] 0 sampleHead = .ok () g ∧
    ¬ (sampleHead.view 0).lead <+: g.text 0 := by
  obtain ⟨g, done⟩ : ∃ g, touchImport none ['x'] 0 sampleHead = .ok () g := ⟨_, rfl⟩
  obtain ⟨root, above, -, head⟩ := touchImport_head (planted_ofTree _) done
  obtain rfl : root = 0 := by
    cases above
    rfl
  refine ⟨g, done, fun kept => ?_⟩
  rcases (head (by decide +kernel) (by decide +kernel)).1 kept with h | h | h
  · cases h
  · exact absurd h (by decide +kernel)
  · exact absurd h (by decide +kernel)

end Build

end Retouch
