import Retouch.Proofs.FoundNodes
import Retouch.Proofs.RunOrder
import Retouch.Proofs.TidyTrees
import Retouch.Refactor.Program

/-!
# Runs of the fixers for spacing

A run of the fixers for spacing through a program makes its tree tidy (`Fixes.Spacer.rewriteTree_eq_tidy`),
and does not fail: no fixer asks for a node above the whole program, as none recognises that one.  The
tree stays the same, only blanks on one line are changed, and a second run leaves the text as it is
(`Tool.changeTree_settles`).
-/

namespace Retouch

open List

open Tree Forest

/-! ## Trees that are the same -/

theorem Tree.plain_eq_self (t : SyntaxTree) : t.plain = t := by
  induction t using induct with
  | leaf i l => rfl
  | node i k cs ih => rw [plain_node, map_congr_left ih, map_id']

variable {α : Type}

theorem Tree.text_plain (t : Tree α) : t.plain.text = t.text := by
  rw [text_eq_leaves, text_eq_leaves, plain, leaves_retag]

theorem Tree.forall_kind_of_bare {β : Type} {t : Tree α} {u : Tree β} (same : t.bare = u.bare)
    {P : Kind → Prop} (h : ∀ n ∈ u.nodes, P n.kind) : ∀ n ∈ t.nodes, P n.kind := by
  intro n hn
  have mem : n.bare ∈ u.bare.nodes := by
    rw [← same, nodes_bare]
    exact mem_map_of_mem hn
  rw [nodes_bare] at mem
  obtain ⟨m, hm, eq⟩ := mem_map.1 mem
  rw [← kind_bare, ← eq, kind_bare]
  exact h m hm

/-! ## Putting the fixers to work -/

theorem Worker.fixer_mem_of_number {n : Nat} {fs : List Fixer} {w : Worker} (h : w ∈ number n fs) :
    w.fixer ∈ fs := by
  induction fs generalizing n with
  | nil => cases h
  | cons f fs ih =>
    rcases mem_cons.1 h with rfl | h
    · exact mem_cons_self
    · exact mem_cons_of_mem _ (ih h)

theorem Team.ofFixers_eq {fs : List Fixer} {n : Nat} (post : ∀ f ∈ fs, f.order = .post)
    (rank : ∀ f ∈ fs, f.rank = n) : ofFixers fs = ⟨[], Worker.number 0 fs⟩ := by
  have none : fs.filter (fun f => f.order = .pre) = [] := by
    refine filter_eq_nil_iff.2 fun f hf => ?_
    simp [post f hf]
  have all : fs.filter (fun f => f.order = .post) = fs :=
    filter_eq_self.2 fun f hf => by simp [post f hf]
  have sorted : byRank fs = fs := by
    refine mergeSort_of_pairwise (pairwise_of_forall_mem_list fun f hf f' hf' => ?_)
    simp [rank f hf, rank f' hf']
  have empty : byRank [] = [] := mergeSort_nil
  simp [ofFixers, none, all, sorted, empty, Worker.number]

theorem beginAll_run {ws : List Worker} (idle : ∀ w ∈ ws, w.fixer.start = fun _ => pure ())
    (file : Text) (root : NodeId) (job : Job) :
    ∃ job₁, beginAll file root ws job = .ok () job₁ ∧ job₁.forest = job.forest := by
  induction ws generalizing job with
  | nil => exact ⟨job, rfl, rfl⟩
  | cons w ws ih =>
    obtain ⟨first, others⟩ := forall_mem_cons.1 idle
    have begun : ∃ job', w.atWork (do Fixer.begin file; w.fixer.start root) job = .ok () job' ∧
        job'.forest = job.forest := by
      rw [first]
      exact ⟨_, rfl, rfl⟩
    obtain ⟨job', begun, same⟩ := begun
    obtain ⟨job₁, run, same₁⟩ := ih others job'
    exact ⟨job₁, by rw [beginAll, Fix.bind_of_ok begun, run], same₁.trans same⟩

namespace Fixes.Spacer

/-! ## What the fixers mean at a node -/

def callAbove (path : Path Unit) : Bool := path.head?.any fun fr => ofCall fr.kind

variable {t : SyntaxTree} {path : Path Unit}

theorem spaced_of_not_asked {r : Spacer} (h : (decide (r = equal) && blankBefore t.children) = false)
    (inCall inCall' : Bool) : r.spaced inCall t = r.spaced inCall' t := by
  cases t with
  | leaf i l => rfl
  | node i k cs =>
    have around : r.aroundSign inCall cs = r.aroundSign inCall' cs := by
      cases r with
      | comma | operator => rfl
      | equal =>
        have unblank : blankBefore cs = false := h
        simp [aroundSign, unblank]
    rw [spaced, spaced, spacedAll, spacedAll, acts_congr around]

theorem meaning_run (r : Spacer) (below : path = [] → r.pattern.recognises t = false) (job : Job) :
    r.meaning path t job =
      .ok (if r.pattern.recognises t then some (r.spaced (callAbove path) t) else none) job := by
  rw [meaning]
  split
  · rename_i recognised
    cases asked : decide (r = equal) && blankBefore t.children with
    | false =>
      rw [spaced_of_not_asked asked (callAbove path) false]
      rfl
    | true =>
      cases path with
      | nil =>
        rw [below rfl] at recognised
        cases recognised
      | cons fr up =>
        rfl
  · rfl

theorem rewrite_run (r : Spacer) (w : Worker) (below : path = [] → r.pattern.recognises t = false)
    (job : Job) :
    ∃ job₁, w.rewrite r.meaning path t job =
      .ok (if r.pattern.recognises t then r.spaced (callAbove path) t else t) job₁ := by
  rw [Worker.rewrite, Worker.atWork_run, Fix.bind_of_ok (r.meaning_run below _)]
  by_cases recognised : r.pattern.recognises t = true
  · rw [if_pos recognised, if_pos recognised]
    cases path with
    | nil =>
      rw [below rfl] at recognised
      cases recognised
    | cons fr up => exact ⟨_, rfl⟩
  · rw [if_neg recognised, if_neg recognised]
    exact ⟨_, rfl⟩

def meanings (rs : List Spacer) (w : Worker) : Rewriter := (rs.getD w.slot comma).meaning

variable {rs : List Spacer}

theorem rewriteWith_run {us : List Spacer}
    (below : path = [] → ∀ r ∈ us, r.pattern.recognises t = false) {n : Nat}
    (same : ∀ i r, us[i]? = some r → rs[n + i]? = some r) (job : Job) :
    ∃ job₁, rewriteWith (meanings rs) (Worker.number n (us.map fixer)) path t job =
      .ok (spaceWith us (callAbove path) t) job₁ := by
  induction us generalizing n t job with
  | nil => exact ⟨job, rfl⟩
  | cons r us ih =>
    have here : meanings rs ⟨r.fixer, Worker.headsOf r.fixer, n⟩ = r.meaning := by
      have found : rs[n]? = some r := same 0 r rfl
      rw [meanings, getD_eq_getElem?_getD, found]
      rfl
    obtain ⟨job₁, rewritten⟩ := r.rewrite_run ⟨r.fixer, Worker.headsOf r.fixer, n⟩
      (fun root => below root r mem_cons_self) job
    have below' : path = [] → ∀ r' ∈ us, r'.pattern.recognises
        (if r.pattern.recognises t then r.spaced (callAbove path) t else t) = false := by
      intro root r' hr'
      rw [if_neg (Bool.eq_false_iff.1 (below root r mem_cons_self))]
      exact below root r' (mem_cons_of_mem _ hr')
    obtain ⟨job₂, later⟩ := ih below' (n := n + 1)
      (fun i r' hr' => by rw [add_right_comm]; exact same (i + 1) r' hr') job₁
    refine ⟨job₂, ?_⟩
    rw [map_cons, Worker.number, rewriteWith, here, Fix.bind_of_ok rewritten, later, spaceWith_cons]

theorem fixersFor_eq (rs : List Spacer) {k : Kind} (known : isProgramKind k = true) (n : Nat) :
    fixersFor (Worker.number n (rs.map fixer)) k = some (Worker.number n (rs.map fixer)) := by
  have every : ∀ w ∈ Worker.number n (rs.map fixer), w.seesAll = true := by
    induction rs generalizing n with
    | nil => exact nofun
    | cons r rs ih =>
      refine forall_mem_cons.2 ⟨?_, ih (n + 1)⟩
      have heads : Worker.headsOf r.fixer = r.pattern.heads := by
        rw [Worker.headsOf, r.pattern_fixer]
      rw [heads]
      cases r <;> rfl
  have none : (Worker.number n (rs.map fixer)).filter (Worker.asksFor k) = [] := by
    refine filter_eq_nil_iff.2 fun w hw => ?_
    rw [not_asksFor_of_seesAll (every w hw)]
    exact Bool.false_ne_true
  rw [fixersFor, if_pos known, none, nil_append, filter_eq_self.2 every]

theorem spaceWith_leaf (rs : List Spacer) (inCall : Bool) (l : Leaf) :
    spaceWith rs inCall (.leaf () l) = .leaf () l := by
  induction rs with
  | nil => rfl
  | cons r rs ih =>
    rw [spaceWith_cons]
    split <;> exact ih

/-! ## The whole program -/

theorem rewriteNode_run (known : isProgramKind t.kind = true)
    (below : path = [] → ∀ r ∈ rs, r.pattern.recognises t = false) (job : Job) :
    ∃ job₁, (do
      rewriteWith (meanings rs)
        (← orFault .unknown (fixersFor (Worker.number 0 (rs.map fixer)) t.kind)) path t : Fix SyntaxTree)
      job = .ok (spaceWith rs (callAbove path) t) job₁ := by
  rw [fixersFor_eq rs known 0]
  exact rewriteWith_run below (fun i r hr => by rwa [zero_add]) job

theorem rewriteAll_run {k : Kind} (path : Path Unit) {cs : List SyntaxTree}
    (each : ∀ c ∈ cs, ∀ (fr : Frame Unit) (job : Job), fr.kind = k → ∃ job₁,
      rewriteTree (meanings rs) (Worker.number 0 (rs.map fixer)) (fr :: path) c job =
        .ok (tidy rs (ofCall k) c) job₁) (done : List SyntaxTree) (job : Job) :
    ∃ job₁, rewriteAll (meanings rs) (Worker.number 0 (rs.map fixer)) path k done cs job =
      .ok (done ++ cs.map (tidy rs (ofCall k))) job₁ := by
  induction cs generalizing done job with
  | nil => exact ⟨job, by rw [map_nil, append_nil]; rfl⟩
  | cons c cs ih =>
    obtain ⟨job₁, first⟩ := each c mem_cons_self ⟨(), k, done, cs⟩ job rfl
    obtain ⟨job₂, later⟩ := ih (fun d hd => each d (mem_cons_of_mem _ hd))
      (done ++ [tidy rs (ofCall k) c]) job₁
    refine ⟨job₂, ?_⟩
    rw [rewriteAll, Fix.bind_of_ok first, later, append_assoc]
    rfl

/-- **Rewriting with the meanings of the fixers makes a tree tidy.** -/
theorem rewriteTree_eq_tidy (rs : List Spacer) (known : ∀ n ∈ t.nodes, isProgramKind n.kind = true)
    (path : Path Unit) (below : path = [] → ∀ r ∈ rs, r.pattern.recognises t = false) (job : Job) :
    ∃ job₁, rewriteTree (meanings rs) (Worker.number 0 (rs.map fixer)) path t job =
      .ok (tidy rs (callAbove path) t) job₁ := by
  induction t using induct generalizing path job with
  | leaf i l =>
    obtain ⟨job₁, run⟩ := rewriteNode_run (t := .leaf () l) (known _ (self_mem_nodes _)) below job
    refine ⟨job₁, ?_⟩
    rwa [spaceWith_leaf] at run
  | node i k cs ih =>
    have each : ∀ c ∈ cs, ∀ (fr : Frame Unit) (job : Job), fr.kind = k → ∃ job₁,
        rewriteTree (meanings rs) (Worker.number 0 (rs.map fixer)) (fr :: path) c job =
          .ok (tidy rs (ofCall k) c) job₁ := by
      rintro c hc fr job rfl
      refine ih c hc (fun n hn => ?_) (fr :: path) nofun job
      exact known n (mem_cons_of_mem _ (mem_nodesAll.2 ⟨c, hc, hn⟩))
    obtain ⟨job₁, children⟩ := rewriteAll_run path each [] job
    have same : (node () k (cs.map (tidy rs (ofCall k)))).bare = (node i k cs).bare := by
      rw [bare_node, bare_node, map_map]
      exact congrArg _ (map_congr_left fun c _ => bare_tidy rs (ofCall k) c)
    have kind := known _ (self_mem_nodes _)
    obtain ⟨job₂, run⟩ := rewriteNode_run (t := .node () k (cs.map (tidy rs (ofCall k)))) kind
      (fun root r hr => (r.recognises_of_bare same).trans (below root r hr)) job₁
    exact ⟨job₂, by rw [rewriteTree, Fix.bind_of_ok children, tidy_node]; exact run⟩

theorem actsAs_meanings {us : List Spacer} {n : Nat}
    (same : ∀ i r, us[i]? = some r → rs[n + i]? = some r) :
    ∀ w ∈ Worker.number n (us.map fixer), w.fixer.ActsAs (meanings rs w) := by
  induction us generalizing n with
  | nil => exact nofun
  | cons r us ih =>
    refine forall_mem_cons.2 ⟨?_, ih fun i r' hr' => ?_⟩
    · have found : rs[n]? = some r := same 0 r rfl
      rw [meanings, getD_eq_getElem?_getD, found]
      exact r.actsAs
    · rw [add_right_comm]
      exact same (i + 1) r' hr'

theorem ordinary (r : Spacer) :
    r.fixer.order = .post ∧ r.fixer.rank = 5 ∧ r.fixer.start = fun _ => pure () := by
  cases r <;> exact ⟨rfl, rfl, rfl⟩

theorem team_eq (rs : List Spacer) :
    Team.ofFixers (rs.map fixer) = ⟨[], Worker.number 0 (rs.map fixer)⟩ := by
  refine Team.ofFixers_eq (n := 5) ?_ ?_
  · rintro f hf
    obtain ⟨r, -, rfl⟩ := mem_map.1 hf
    exact r.ordinary.1
  · rintro f hf
    obtain ⟨r, -, rfl⟩ := mem_map.1 hf
    exact r.ordinary.2.1

/-- **A run of the fixers through a program makes it tidy.** -/
theorem change_run (rs : List Spacer) {job : Job} {t : Tree NodeId} (whole : Whole job.forest t)
    (known : ∀ n ∈ t.plain.nodes, isProgramKind n.kind = true)
    (root : ∀ r : Spacer, r.pattern.recognises t.plain = false) (file : Text) :
    ∃ changed job' t', (Team.ofFixers (rs.map fixer)).change file t.tag job = .ok changed job' ∧
      Whole job'.forest t' ∧ t'.tag = t.tag ∧ t'.plain = tidy rs false t.plain := by
  have idle : ∀ w ∈ Worker.number 0 (rs.map fixer), w.fixer.start = fun _ => pure () := by
    intro w hw
    obtain ⟨r, -, eq⟩ := mem_map.1 (Worker.fixer_mem_of_number hw)
    rw [← eq]
    exact r.ordinary.2.2
  have acts := @actsAs_meanings rs rs 0 fun i r hr => by rwa [zero_add]
  obtain ⟨job₁, begun, forest⟩ := beginAll_run idle file t.tag
    { job with shelf := (Worker.number 0 (rs.map fixer)).map fun _ => {} }
  have here := forest ▸ whole
  have kinds := forall_kind_of_bare (P := fun k => isProgramKind k = true) (bare_retag _ t).symm known
  obtain ⟨_, rewritten⟩ := rewriteTree_eq_tidy rs known [] (fun _ r _ => root r) job₁.aside
  obtain ⟨_, job', offered, t', plain, became⟩ :=
    (offerEach_agrees acts t [] job₁ here).exists_of_right rewritten
  refine ⟨job'.forest.isChanged t.tag, job', t', ?_, became.whole, became.root, plain⟩
  rw [team_eq, change_of_known here begun (leads_of_acts acts) kinds, Fix.bind_of_ok offered]
  rfl

end Fixes.Spacer

/-! ## Parsed programs -/

theorem isProgramKind_of_derives {g : Grammar} (hg : g ∈ Language.grammars) {shape : Shape}
    {t : SyntaxTree} (h : Derives g shape g.start t) : ∀ n ∈ t.nodes, isProgramKind n.kind = true := by
  have symbols : ∀ n ∈ t.nodes, n.isLeaf = true ∨ isProgramKind n.kind = true := by
    refine h.forall_nodes (fun _ => .inl rfl) ?_
    intro k _ _ children q entry _ _ _ _
    obtain ⟨name, named⟩ := Language.exists_symbolName hg entry
    refine .inr ?_
    show (_ || _) = true
    rw [show kind (.node () k children) = k from rfl, named]
    rfl
  intro n hn
  rcases symbols n hn with leaf | known
  · cases n with
    | node i k cs => cases leaf
    | leaf i l =>
      have token : isProgramToken l.kind = true := by
        rcases h.kind_of_leaf l (leaves_subset_of_mem_nodes hn mem_cons_self) with name | ⟨i, found⟩
        · rw [name]
          decide
        · exact (Language.has_tokens_iff hg).1 (Option.isSome_iff_exists.2 ⟨i, found⟩)
      show (_ || _) = true
      rw [show kind (.leaf i l) = l.kind from rfl, token, Bool.or_true]
  · exact known

/-- **A run of the fixers through a parsed program makes it tidy.** -/
theorem Fixes.Spacer.change_ofTree (rs : List Spacer) {g : Grammar} (hg : g ∈ Language.grammars)
    {shape : Shape} {t : SyntaxTree} (derived : Derives g shape g.start t) (job : Job)
    (planted : job.forest = (ofTree t).2) (file : Text) :
    ∃ changed job' t', (Team.ofFixers (rs.map fixer)).change file (ofTree t).1 job =
        .ok changed job' ∧
      Whole job'.forest t' ∧ t'.tag = (ofTree t).1 ∧ t'.plain = tidy rs false t := by
  have root : (ofTree t).1 = (t.numbered 0).tag := by
    obtain ⟨root, -, -⟩ := plant_spec {} none t
    rwa [tag_numbered]
  have plain := (plain_numbered 0 t).trans t.plain_eq_self
  have run := @change_run rs job (t.numbered 0) (planted ▸ whole_ofTree t)
  rw [plain, ← root] at run
  exact run (isProgramKind_of_derives hg derived) (not_recognises_root hg derived) file

/-- Before the leaf stands what stood there, or a blank or nothing where there were only blanks on one
line. -/
def Leaf.OnlyBlanks (l l' : Leaf) : Prop :=
  l'.lead = l.lead ∨ Fixes.isOpen l.lead = true ∧ (l'.lead = [] ∨ l'.lead = [' '])

theorem Leaf.Touched.onlyBlanks {l l' : Leaf} (h : l.Touched l') : l.OnlyBlanks l' := by
  obtain ⟨a, rfl⟩ := h
  cases a with
  | keep => exact .inl rfl
  | strip =>
    by_cases opened : Fixes.isOpen l.lead = true
    · exact .inr ⟨opened, .inl (if_pos opened)⟩
    · exact .inl (if_neg opened)
  | space =>
    by_cases opened : Fixes.isOpen l.lead = true
    · exact .inr ⟨opened, .inr (if_pos opened)⟩
    · exact .inl (if_neg opened)

theorem Tool.changeSource_eq_ok {tool : Tool} {job : Job} {file : Text} {s : Source} {p : Program}
    (h : (tool.changeSource job file s).result = .ok p) :
    ∃ changed job', tool.team.change file (ofTree s.tree).1
        { job with forest := (ofTree s.tree).2, names := s.names } = .ok changed job' ∧
      p = ⟨(ofTree s.tree).1, job'.forest⟩ := by
  unfold changeSource changeTree at h
  simp only [EStateM.run] at h
  split at h
  · rename_i changed job' run
    cases h
    exact ⟨changed, job', run, rfl⟩
  · cases h

theorem Tool.changeTree_of_ok {tool : Tool} {job job' : Job} {file : Text} {root : NodeId} {changed : Bool}
    (h : tool.team.change file root job = .ok changed job') :
    tool.changeTree job file root = (.ok changed, job') := by
  unfold changeTree
  rw [EStateM.run, h]

/-- **The fixers for spacing change blanks on one line and nothing else, and once is enough.**  A run
through a parsed program does not fail, whichever of the fixers are tried and in whichever order.  The
tree stays the same, with the blanks before its leaves changed to one or none at most.  A second run does
not fail either and leaves the text as it is. -/
theorem Tool.changeTree_settles {tool : Tool} {rs : List Fixes.Spacer}
    (team : tool.team = Team.ofFixers (rs.map Fixes.Spacer.fixer)) {g : Grammar}
    (hg : g ∈ Language.grammars) {shape : Shape} {lines : List Text} {s : Source}
    (parsed : Source.parseLines g shape lines = .ok s) (job : Job) (file : Text) :
    ∃ changed job', tool.changeTree { job with forest := (Forest.ofTree s.tree).2 } file
        (Forest.ofTree s.tree).1 = (.ok changed, job') ∧
      ∃ t : SyntaxTree, (job'.forest.view (Forest.ofTree s.tree).1).plain = t ∧
        t.same s.tree = true ∧ List.Forall₂ Leaf.OnlyBlanks s.tree.leaves t.leaves ∧
        ∀ (job₂ : Job) (file₂ : Text), job₂.forest = job'.forest →
          ∃ changed₂ job₂', tool.changeTree job₂ file₂ (Forest.ofTree s.tree).1 =
              (.ok changed₂, job₂') ∧
            (job₂'.forest.view (Forest.ofTree s.tree).1).text = t.text := by
  obtain ⟨derived, -⟩ := Source.parseScan_ok (Language.closed_of_mem hg).predictive parsed
  have known := isProgramKind_of_derives hg derived
  have unmixed := Fixes.Spacer.unmixed_of_derives hg derived
  have top := Fixes.Spacer.not_recognises_root hg derived
  obtain ⟨changed, job', t, run, whole, tag, tidied⟩ := Fixes.Spacer.change_ofTree rs hg derived
    { job with forest := (Forest.ofTree s.tree).2 } rfl file
  have bare : t.plain.bare = s.tree.bare := by rw [tidied, Fixes.Spacer.bare_tidy]
  rw [← team] at run
  refine ⟨changed, job', Tool.changeTree_of_ok run, t.plain, ?_, same_of_bare bare, ?_, ?_⟩
  · rw [← tag, whole.stands.view_eq]
  · rw [tidied]
    exact (Fixes.Spacer.leaves_tidy rs false s.tree).imp fun _ _ touched => touched.onlyBlanks
  · intro job₂ file₂ same
    obtain ⟨changed₂, job₂', t₂, run₂, whole₂, tag₂, tidied₂⟩ := Fixes.Spacer.change_run rs (same ▸ whole)
      (forall_kind_of_bare (P := fun k => isProgramKind k = true) bare known)
      (fun r => (r.recognises_of_bare bare).trans (top r)) file₂
    rw [← team, tag] at run₂
    refine ⟨changed₂, job₂', Tool.changeTree_of_ok run₂, ?_⟩
    rw [← tag, ← tag₂, whole₂.stands.view_eq, ← t₂.text_plain, tidied₂, tidied,
      Fixes.Spacer.tidy_tidy rs false unmixed]

def Language.spacingFixers : List Fixer := [Fixes.wsComma, Fixes.wsEqual, Fixes.wsOperator]

def Language.spacingTool : Tool := { team := ⟨[], Worker.number 0 spacingFixers⟩ }

open Retouch.Language (spacingTool sampleSource)

def Language.tidySample : Text :=
  ['x', ' ', '=', '\\', '\n', ' ', 'f', '(', 'a', ',', ' ', 'b', '=', '1', ' ', '-', ' ', '2', ')', ' ',
    '#', '!', '\n']

open Retouch.Language (tidySample)

theorem changeSource_sampleSource : ∃ p,
    (spacingTool.changeSource { features := some [] } [] sampleSource).result = .ok p ∧
      p.text = tidySample := by
  have check : (spacingTool.changeSource { features := some [] } [] sampleSource).result.toOption.any
      (fun p => p.text == tidySample) = true := by decide +kernel
  cases changed : (spacingTool.changeSource { features := some [] } [] sampleSource).result with
  | error e =>
    rw [changed] at check
    cases check
  | ok p =>
    rw [changed] at check
    exact ⟨p, rfl, eq_of_beq check⟩

def Language.sampleJob : Job where
  forest := (Forest.ofTree sampleSource.tree).2
  names := sampleSource.names
  features := some []

/-- The sample is tidied by a first run, and a second run leaves it. -/
theorem Tool.changeTree_settles_sample : ∃ root changed job' changed₂ job₂,
    Language.spacingTool.changeTree Language.sampleJob [] root = (.ok changed, job') ∧
      (job'.forest.view root).text = Language.tidySample ∧
      Language.spacingTool.changeTree job' [] root = (.ok changed₂, job₂) ∧
      (job₂.forest.view root).text = Language.tidySample := by
  obtain ⟨-, -, parsed⟩ := Language.ofText_grammarText
  obtain ⟨changed, job', run, t, view, -, -, again⟩ := @changeTree_settles Language.spacingTool
    [.comma, .equal, .operator] (Fixes.Spacer.team_eq [.comma, .equal, .operator]).symm _
    mem_cons_self _ _ _ parsed Language.sampleJob []
  have tidied : t.text = Language.tidySample := by
    obtain ⟨p, changed, text⟩ := changeSource_sampleSource
    obtain ⟨_, _, run', rfl⟩ := Tool.changeSource_eq_ok changed
    cases run.symm.trans (Tool.changeTree_of_ok run')
    rw [← view, text_plain]
    exact text
  obtain ⟨changed₂, job₂, run₂, same⟩ := again job' [] rfl
  refine ⟨_, changed, job', changed₂, job₂, run, ?_, run₂, same.trans tidied⟩
  rw [← text_plain, view, tidied]

end Retouch
