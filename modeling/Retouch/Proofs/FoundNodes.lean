import Retouch.Proofs.Collapsing
import Retouch.Proofs.TableForms
import Retouch.Proofs.WrittenPatterns

/-!
# Patterns that find their node

The command that finds patterns writes a text for a node of a program, and the text should be compiled
to a pattern that matches the node.  What comes of it depends on the leaves of the node
(`Command.patternText_finds`).  The text is compiled unless a leaf has no characters, as the marks for
the end of a block and of the text do.  Then the pattern matches the node if and only if all leaves are
legible: their literals stand for their characters and for their kind (`Command.Legible`).
-/

namespace Retouch

open List OrderedMap

namespace Command

open Pattern Pattern.Language

variable {α : Type}

/-! ## Matching the pattern that repeats a tree -/

/-- The literal of the leaf stands for it.  Characters that cannot be printed are read back only if
they are among the first 256, and what begins with a letter stands for a name. -/
def Legible (l : Leaf) : Prop :=
  (∀ c ∈ l.value.shown, Text.isReread c = true) ∧
    (Lexeme.headIs Text.isLetter l.value.shown = true → l.kind = Kind.name)

instance (l : Leaf) : Decidable (Legible l) := @instDecidableAnd _ _ (List.decidableBAll _ _) inferInstance

def Readable (t : Tree α) : Prop := ∀ l ∈ t.leaves, Legible l

instance (t : Tree α) : Decidable (Readable t) := inferInstanceAs (Decidable (∀ l ∈ t.leaves, _))

theorem readable_node_iff {tag : α} {k : Kind} {cs : List (Tree α)} :
    Readable (.node tag k cs) ↔ ∀ c ∈ cs, Readable c :=
  forall_leaves_node_iff

def Telling (l : Leaf) : Prop := ∀ k, Kind.ofOperator? l.value.shown = some k → l.kind = k

theorem leafFits_iff {l : Leaf} {v : Text} (value : l.value = .text v) (telling : Telling l) (tag : α) :
    leafFits (guessedKind (v.flatMap Text.reread)) (some (v.flatMap Text.reread)) (.leaf tag l) = true ↔
      Legible l := by
  have shown : l.value.shown = v := by rw [value]; rfl
  have text : (Tree.leaf tag l).isText (v.flatMap Text.reread) = true ↔
      ∀ c ∈ v, Text.isReread c = true := by
    show Value.is (v.flatMap Text.reread) l.value = true ↔ _
    rw [value, ← Text.flatMap_reread_eq_iff]
    exact beq_iff_eq.trans eq_comm
  rw [Legible, shown]
  simp only [leafFits, Tree.isLeaf, true_and, Bool.and_eq_true, text]
  refine and_comm.trans (and_congr_right fun reread => ?_)
  rw [Text.flatMap_reread_eq_iff.2 reread, guessedKind]
  rw [Telling, shown] at telling
  by_cases letter : Lexeme.headIs Text.isLetter v = true
  · simp [letter, kindFits, Tree.kind]
  · rw [if_neg letter]
    refine iff_of_true ?_ fun begins => absurd begins letter
    cases found : Kind.ofOperator? v with
    | none => rfl
    | some k => simp [kindFits, Tree.kind, telling k found]

theorem ways_choice_one {ps : List Pattern} {ts : List (Tree α)} {n : Nat} {P : Prop} [Decidable P]
    (option : seqWays ps ts = if P then .only n [] else .done) :
    (choice [ps] 1 1 none).ways ts = if P then .only n [] else .done := by
  have bound : turnBound 1 1 ts.length = ts.length + 1 + 2 := rfl
  rw [ways, bound]
  simp only [turns, optionWays, option]
  by_cases taken : P
  · simp [taken, Matches.only, Matches.append, Matches.bind, canIdle, patience, Matches.after,
      Matches.map, Matches.recover, naming, Bindings.bind, update]
  · simp [taken, Matches.append, Matches.bind, Matches.recover, naming, Matches.map]

def TakesItself (t : Tree α) : Prop := ∀ rest,
  (exactPattern t).ways (t :: rest) = if Readable t then .only 1 [] else .done

theorem seqWays_exactPatterns {cs : List (Tree α)} (each : ∀ c ∈ cs, TakesItself c) (nonempty : cs ≠ []) :
    seqWays (exactPatterns cs) cs = if ∀ c ∈ cs, Readable c then .only cs.length [] else .done := by
  induction cs with
  | nil => exact absurd rfl nonempty
  | cons c cs ih =>
    obtain ⟨first, others⟩ := forall_mem_cons.1 each
    rw [exactPatterns, seqWays, first cs]
    cases cs with
    | nil =>
      rw [exactPatterns]
      simp
    | cons d cs =>
      rw [if_neg (by rw [exactPatterns]; simp)]
      by_cases readable : Readable c
      · rw [if_pos readable]
        have later := ih others (cons_ne_nil d cs)
        simp only [Matches.only, Matches.bind, drop_succ_cons, drop_zero, later]
        by_cases all : ∀ e ∈ d :: cs, Readable e
        · rw [if_pos all, if_pos (forall_mem_cons.2 ⟨readable, all⟩)]
          simp [Matches.after, Matches.map, Matches.append, update, add_comm]
        · rw [if_neg all, if_neg fun h => all (forall_mem_cons.1 h).2]
          rfl
      · rw [if_neg readable, if_neg fun h => readable (forall_mem_cons.1 h).1]
        rfl

variable {t n : Tree α}

theorem takesItself_of_writable (h : Writable t) (telling : ∀ l ∈ t.leaves, Telling l) :
    TakesItself t := by
  induction h with
  | @leaf tag l v value =>
    intro rest
    have fits := @leafFits_iff α l v value (telling l (mem_singleton_self l)) tag
    have shown : l.value.shown = v := by rw [value]; rfl
    have readable : Readable (.leaf tag l) ↔ Legible l := forall_mem_singleton
    rw [exactPattern, ways, firstTree, shown]
    by_cases legible : Legible l
    · rw [if_pos (fits.2 legible), if_pos (readable.2 legible)]
      rfl
    · rw [if_neg fun h => legible (fits.1 h), if_neg fun h => legible (readable.1 h)]
  | @node tag k cs name many _ _ ih =>
    intro rest
    have each := fun c hc =>
      ih c hc (forall_leaves_node_iff.1 telling c hc)
    have nonempty : cs ≠ [] := by
      rintro rfl
      cases many
    have option := seqWays_exactPatterns each nonempty
    have fits : kindFits (some k) (.node tag k cs) = true := by simp [kindFits, Tree.kind]
    have wild : [choice [exactPatterns cs] 1 1 none].any isWild = true := rfl
    rw [exactPattern, ways, if_pos fits, if_pos wild, seqWays,
      Tree.children, ways_choice_one option]
    by_cases all : ∀ c ∈ cs, Readable c
    · rw [if_pos all, if_pos (readable_node_iff.2 all)]
      simp [Matches.exactly, Matches.only, nameTree, Bindings.bind, Matches.ofVerdict]
    · rw [if_neg all, if_neg fun h => all (readable_node_iff.1 h)]
      rfl

theorem matchTree_exactPattern (h : TakesItself t) (wanted : Bool) :
    (exactPattern t).matchTree t wanted = if Readable t then .yes [] else .no := by
  have positive : (exactPattern t).isNegated = false := by cases t <;> rfl
  rw [matchTree, positive, h []]
  by_cases readable : Readable t
  · rw [if_pos readable, if_pos readable]
    rfl
  · rw [if_neg readable, if_neg readable]
    rfl

/-! ## Nodes of programs -/

theorem mem_innerNodes : n ∈ innerNodes t ↔ n ∈ t.nodes ∧ n.isLeaf = false := by
  have all : ∀ {cs : List (Tree α)}, n ∈ innerNodesOf cs ↔ ∃ c ∈ cs, n ∈ innerNodes c := by
    intro cs
    induction cs with
    | nil => simp [innerNodesOf]
    | cons c cs ih => simp [innerNodesOf, ih]
  induction t using Tree.induct with
  | leaf tag l =>
    refine iff_of_false not_mem_nil ?_
    rintro ⟨mem, inner⟩
    cases mem_singleton.1 mem
    cases inner
  | node tag k cs ih =>
    rw [innerNodes, mem_append, mem_singleton, all, Tree.nodes, mem_cons, Tree.mem_nodesAll]
    constructor
    · rintro (⟨c, hc, mem⟩ | rfl)
      · obtain ⟨below, inner⟩ := (ih c hc).1 mem
        exact ⟨.inr ⟨c, hc, below⟩, inner⟩
      · exact ⟨.inl rfl, rfl⟩
    · rintro ⟨rfl | ⟨c, hc, below⟩, inner⟩
      · exact .inr rfl
      · exact .inl ⟨c, hc, (ih c hc).2 ⟨below, inner⟩⟩

theorem Writable.of_mem_nodes (h : Writable t) (mem : n ∈ t.nodes) : Writable n := by
  induction h with
  | leaf value =>
    rw [mem_singleton.1 mem]
    exact .leaf value
  | node many named below ih =>
    rw [Tree.nodes, mem_cons, Tree.mem_nodesAll] at mem
    rcases mem with rfl | ⟨c, hc, mem⟩
    · exact .node many named below
    · exact ih c hc mem

theorem writable_of_nodes {t : SyntaxTree} (text : ∀ l ∈ t.leaves, ∃ v, l.value = .text v)
    (branches : t.Branches)
    (named : ∀ n ∈ t.nodes, n.isLeaf = true ∨ ∃ name, Language.symbolName? n.kind = some name) :
    Writable t := by
  induction t using Tree.induct with
  | leaf tag l =>
    obtain ⟨v, value⟩ := text l (mem_singleton_self l)
    exact .leaf value
  | node tag k cs ih =>
    have self := Tree.self_mem_nodes (Tree.node tag k cs)
    obtain ⟨name, eq⟩ := (named _ self).resolve_left nofun
    refine .node ((branches _ self).resolve_left nofun) eq fun c hc => ?_
    have mem : c ∈ (Tree.node tag k cs).nodes := Tree.child_mem_nodes self hc
    have below : ∀ n ∈ c.nodes, n ∈ (Tree.node tag k cs).nodes := by
      intro n hn
      rw [Tree.nodes, mem_cons, Tree.mem_nodesAll]
      exact .inr ⟨c, hc, hn⟩
    exact ih c hc (fun l hl => text l (Tree.leaves_subset_of_mem_nodes mem hl))
      (fun n hn => branches n (below n hn)) fun n hn => named n (below n hn)

end Command

namespace Language

variable {g : Grammar}

theorem tables_dropKeyword (h : keys g.entries = g.symbols.map Prod.snd) (word : Text) :
    keys (g.dropKeyword word).entries = (g.dropKeyword word).symbols.map Prod.snd := h

theorem exists_symbolName (hg : g ∈ grammars) {k : Kind} {table : Grammar.Entry}
    (entry : get? g.entries k = some table) : ∃ name, symbolName? k = some name := by
  have tables : keys g.entries = g.symbols.map Prod.snd := by
    obtain ⟨_, -, made⟩ := Grammar.ofText_madeFrom ofText_grammarText.1
    rw [grammars, mem_pair] at hg
    rcases hg with hg | hg
    · rw [hg]
      exact made.tables
    · rw [hg]
      exact tables_dropKeyword made.tables _
  have mem : k ∈ keys g.entries := mem_map_of_mem (mem_of_get? entry)
  rw [tables] at mem
  obtain ⟨e, he, rfl⟩ := mem_map.1 mem
  obtain ⟨-, -, -, -, -, names, -⟩ := checked_of_mem hg
  exact Option.isSome_iff_exists.1 (all_eq_true.1 names e he)

end Language

namespace Command

variable {g : Grammar}

theorem writable_of_parse (hg : g ∈ Language.grammars) {lines : List Text} {source : Source}
    (parsed : Source.parseLines g .collapsed lines = .ok source) : Writable source.tree := by
  have predictive := (Language.closed_of_mem hg).predictive
  obtain ⟨derived, -⟩ := Source.parseScan_ok predictive parsed
  refine writable_of_nodes (fun l hl => ?_) derived.branches ?_
  · obtain ⟨t, -, -, becomes⟩ := Source.value_of_leaf predictive parsed l hl
    exact ⟨t.text, becomes.value⟩
  · refine derived.forall_nodes (fun _ => .inl rfl) ?_
    intro k _ _ _ q entry _ _ _ _
    exact .inr (Language.exists_symbolName hg entry)

/-- **What comes of the text written for a node of a program.**  It is compiled unless a leaf of the node
has no characters; if it is, the pattern matches the node exactly if all leaves of the node are legible,
and binds no names.  The text of a whole program is never compiled, as the mark of the end has no
characters. -/
theorem patternText_finds (hg : g ∈ Language.grammars) {lines : List Text} {source : Source}
    (parsed : Source.parseLines g .collapsed lines = .ok source) {n : SyntaxTree}
    (hn : n ∈ innerNodes source.tree) :
    (Filled n → ∃ p, Pattern.compile (patternText n) = .ok p ∧
      ∀ wanted, p.matchTree n wanted = if Readable n then .yes [] else .no) ∧
    (¬ Filled n → Pattern.compile (patternText n) = .error .emptyLiteral) ∧
    (n = source.tree → ¬ Filled n) := by
  obtain ⟨mem, -⟩ := mem_innerNodes.1 hn
  have writable := (writable_of_parse hg parsed).of_mem_nodes mem
  have compiled := compile_patternText writable
  refine ⟨fun filled => ?_, fun empty => ?_, ?_⟩
  · rw [if_pos filled] at compiled
    refine ⟨exactPattern n, compiled, matchTree_exactPattern ?_⟩
    refine takesItself_of_writable writable fun l hl k found => ?_
    exact Source.kind_of_ofOperator? hg parsed (Tree.leaves_subset_of_mem_nodes mem hl) found
  · rw [if_neg empty] at compiled
    exact compiled
  · rintro rfl filled
    obtain ⟨l, hl, none⟩ := Source.exists_leaf_shown_eq_nil hg parsed
    exact filled l hl none

/-- The text written for the difference in the sample finds it. -/
theorem patternText_finds_difference : ∃ source n p,
    Source.parse Language.grammar .collapsed Language.sample = .ok source ∧ n ∈ innerNodes source.tree ∧
      n.leaves.map (fun l => l.value.shown) = [['1'], ['-'], ['2']] ∧
      Pattern.compile (patternText n) = .ok p ∧ p.matchTree n true = .yes [] := by
  obtain ⟨-, -, parsed⟩ := Language.ofText_grammarText
  have mem : Language.sampleDifference ∈ innerNodes Language.sampleSource.tree :=
    mem_innerNodes.2 ⟨by decide, rfl⟩
  have good : ∀ l ∈ Language.sampleDifference.leaves, l.value.shown ≠ [] ∧ Legible l := by decide
  obtain ⟨found, -⟩ := patternText_finds mem_cons_self parsed mem
  obtain ⟨p, compiled, matches'⟩ := found fun l hl => (good l hl).1
  have readable : Readable Language.sampleDifference := fun l hl => (good l hl).2
  exact ⟨_, _, p, parsed, mem, rfl, compiled, by rw [matches', if_pos readable]⟩

/-- The sample is parsed, but the text written for all of it is not compiled. -/
theorem compile_patternText_sample : ∃ source,
    Source.parse Language.grammar .collapsed Language.sample = .ok source ∧
      source.tree ∈ innerNodes source.tree ∧
      Pattern.compile (patternText source.tree) = .error .emptyLiteral := by
  obtain ⟨-, -, parsed⟩ := Language.ofText_grammarText
  refine ⟨_, parsed, mem_innerNodes.2 ⟨Tree.self_mem_nodes _, rfl⟩, ?_⟩
  rw [compile_patternText (writable_of_parse mem_cons_self parsed), if_neg]
  intro filled
  obtain ⟨l, hl, none⟩ := Source.exists_leaf_shown_eq_nil mem_cons_self parsed
  exact filled l hl none

end Command

end Retouch
