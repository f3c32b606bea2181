import Retouch.Proofs.SpacingRules
import Retouch.Proofs.TidyRuns

/-!
# Tidy programs

The fixers for commas, equal signs and operators change the blanks of a program and nothing else: what
they make of it is parsed by the same grammar to the same tree (`Tool.changeText_tidies`).  The tree of
a program is orderly (`orderly_of_parse`), so the blanks that are changed to make it tidy may be changed,
and a run makes it tidy (`Tool.changeSource_eq_tidy`).
-/

namespace Retouch

open List

open Tree Retouch.Language
open Scan (IsLine)

/-! ## The tree of a program is orderly -/

section Orderly

variable {g : Grammar} {lines : List Text} {s : Source}

theorem Scan.exists_piece_of_mem_offered {lead : Text} {ps : List Piece} {t : Input}
    (h : t ∈ offered lead ps) :
    ∃ p ∈ ps, p.isTrivia = false ∧ t.kind = p.parserKind ∧ t.value = p.text := by
  induction ps generalizing lead with
  | nil => cases h
  | cons p ps ih =>
    unfold offered at h
    split at h
    · obtain ⟨q, hq, found⟩ := ih h
      exact ⟨q, mem_cons_of_mem _ hq, found⟩
    · rename_i other
      rcases mem_cons.1 h with rfl | h
      · exact ⟨p, mem_cons_self, by simpa using other, rfl, rfl⟩
      · obtain ⟨q, hq, found⟩ := ih h
        exact ⟨q, mem_cons_of_mem _ hq, found⟩

theorem exists_piece_of_leaf (hg : g ∈ grammars) (hl : ∀ l ∈ lines, IsLine l)
    (h : Source.parseLines g .collapsed lines = .ok s) {l : Leaf} (mem : l ∈ s.tree.leaves) :
    ∃ p : Scan.Piece, p.Regular ∧ p.isTrivia = false ∧ l.kind = p.parserKind ∧
      l.value.shown = p.text := by
  obtain ⟨-, -, ps, _, scans, given, leaves, -⟩ := Source.parseLines_ok (closed_of_mem hg) hl h
  rw [leaves] at mem
  obtain ⟨t, ht, rfl⟩ := mem_map.1 mem
  have offered := given ▸ mem_map_of_mem ht
  obtain ⟨p, hp, other, kind, text⟩ := Scan.exists_piece_of_mem_offered offered
  exact ⟨p, scans.regular (.inl rfl) hl rfl p hp, other, kind, text⟩

variable {t : SyntaxTree}

theorem isChain_bare {R : Kind → Kind → Prop} (h : t.leaves.IsChain fun l r => R l.kind r.kind) :
    t.bare.leaves.IsChain fun l r => R l.kind r.kind := by
  rw [leaves_bare]
  exact (isChain_map _).2 h

theorem endsWith_of_bare {p : Kind → Bool} (h : EndsWith p t.bare) : EndsWith p t := by
  obtain ⟨_, found, hp⟩ := h
  rw [leaves_bare, getLast?_map] at found
  obtain ⟨l, last, rfl⟩ := Option.map_eq_some_iff.1 found
  exact ⟨l, last, hp⟩

theorem isLone_of_bare {p : Kind → Bool} (h : IsLone p t.bare) : IsLone p t := by
  obtain ⟨l, eq, hp⟩ := h
  cases t with
  | leaf i l' =>
    cases eq
    exact ⟨l', rfl, hp⟩
  | node i k cs => cases eq

/-- **The tree of a parsed program is orderly.** -/
theorem orderly_of_parse (hg : g ∈ grammars) (hl : ∀ l ∈ lines, IsLine l)
    (h : Source.parseLines g .collapsed lines = .ok s) : Orderly s.tree.bare := by
  have derived := (Source.parseLines_ok (closed_of_mem hg) hl h).1
  obtain ⟨marks, first⟩ := isChain_layout_mark hg derived
  have piece : ∀ {l : Leaf}, l ∈ s.tree.bare.leaves → ∃ p : Scan.Piece, p.Regular ∧
      p.isTrivia = false ∧ l.kind = p.parserKind ∧ l.value.shown = p.text := by
    intro _ mem
    rw [leaves_bare] at mem
    obtain ⟨l, leaf, rfl⟩ := mem_map.1 mem
    exact exists_piece_of_leaf (l := l) hg hl h leaf
  constructor
  case first =>
    intro _ found
    rw [leaves_bare, head?_map] at found
    obtain ⟨l, head, rfl⟩ := Option.map_eq_some_iff.1 found
    exact first l head
  case marks =>
    exact isChain_bare (R := fun k k' => ¬(isLayout k = true ∧ isMark k' = true)) marks
  case operators =>
    intro n hn
    rw [nodes_bare] at hn
    obtain ⟨m, hm, rfl⟩ := mem_map.1 hn
    rw [children_bare]
    refine (isChain_map _).2 ((isChain_layout_operator hg derived m hm).imp fun c d apart both => ?_)
    exact apart ⟨endsWith_of_bare both.1, isLone_of_bare both.2⟩
  case joined =>
    exact isChain_bare (R := fun k k' => ¬(joinsEqual k = true ∧ (k' == .equal) = true))
      (isChain_joins_equal hg derived)
  case doubled =>
    exact isChain_bare (R := fun k k' => ¬((k == .equal) = true ∧ beginsEqual k' = true))
      (isChain_equal_begins hg derived)
  case full =>
    intro n hn
    rw [nodes_bare] at hn
    obtain ⟨m, hm, rfl⟩ := mem_map.1 hn
    rw [leaves_bare, ne_eq, map_eq_nil_iff]
    exact derived.leaves_nodes_ne_nil m hm
  case joins =>
    intro l mem joins
    obtain ⟨p, regular, other, kind, text⟩ := piece mem
    rw [kind]
    exact regular.joins other (text ▸ joins)
  case begins =>
    intro l mem begins
    obtain ⟨p, regular, other, kind, text⟩ := piece mem
    rw [kind]
    exact regular.begins other (text ▸ begins)

end Orderly

/-! ## The text of a tidy program -/

variable {file : Text} {job : Job} {s : Source} {tool : Tool}

theorem Leaf.Respaced.mem_text {prev : Option Leaf} {ls ls' : List Leaf} (h : Respaced prev ls ls')
    {c : Char} (mem : c ∈ (ls'.map text).flatten) : c = ' ' ∨ c ∈ (ls.map text).flatten := by
  induction h with
  | nil => cases mem
  | @cons _ l lead ls ls' change _ ih =>
    simp only [map_cons, flatten_cons, mem_append, text] at mem ih ⊢
    rcases mem with (mem | mem) | mem
    · rcases change with rfl | ⟨-, u, -, -, rfl | ⟨rfl, -⟩⟩
      · exact .inr (.inl (.inl mem))
      · exact .inl (mem_singleton.1 mem)
      · cases mem
    · exact .inr (.inl (.inr mem))
    · exact (ih mem).imp_right .inr

theorem Source.parse_respacedLeaves {g : Grammar} (hg : g ∈ grammars) {t : Text} (ends : Text.Ended t)
    (newlines : ∀ c ∈ t, Text.isLineEnd c = true → c = '\n') (h : parse g .collapsed t = .ok s)
    {ls : List Leaf} (respaced : Leaf.Respaced none s.tree.leaves ls) :
    ∃ s', parse g .collapsed (ls.map Leaf.text).flatten = .ok s' ∧ s'.tree.same s.tree = true := by
  have isLine := Text.isLine_newlineLines ends
  rw [parse, Text.lines_eq_newlineLines (Text.plain_of_newlines newlines)] at h
  obtain ⟨-, text, -⟩ := parseLines_ok (closed_of_mem hg) isLine h
  obtain ⟨_, s', isLine', text', parsed, same⟩ :=
    parseLines_respacedLeaves (closed_of_mem hg) isLine h respaced
  have newlines' : ∀ c ∈ (ls.map Leaf.text).flatten, Text.isLineEnd c = true → c = '\n' := by
    intro c mem ends
    rcases respaced.mem_text mem with rfl | mem
    · cases ends
    · rw [← text_eq_leaves, text, Text.flatten_newlineLines] at mem
      exact newlines c mem ends
  refine ⟨s', ?_, same⟩
  rw [parse, Text.lines_eq_newlineLines (Text.plain_of_newlines newlines'), ← text',
    Text.newlineLines_flatten isLine', parsed]

theorem Tool.grammarFor_mem (tool : Tool) (features : List Text) :
    tool.grammarFor features ∈ grammars := by
  unfold grammarFor
  split
  · exact mem_cons_of_mem _ mem_cons_self
  · exact mem_cons_self

theorem exists_spacers {fixers : List Fixer} (chosen : ∀ f ∈ fixers, f ∈ spacingFixers) :
    ∃ rs : List Fixes.Spacer, fixers = rs.map Fixes.Spacer.fixer := by
  induction fixers with
  | nil => exact ⟨[], rfl⟩
  | cons f fixers ih =>
    obtain ⟨first, later⟩ := forall_mem_cons.1 chosen
    obtain ⟨r, -, rfl⟩ : ∃ r ∈ [.comma, .equal, .operator], Fixes.Spacer.fixer r = f := mem_map.1 first
    obtain ⟨rs, rfl⟩ := ih later
    exact ⟨r :: rs, rfl⟩

/-- **What the fixers for spacing make of a parsed program is tidy.** -/
theorem Tool.changeSource_eq_tidy {rs : List Fixes.Spacer}
    (team : tool.team = Team.ofFixers (rs.map Fixes.Spacer.fixer)) {g : Grammar} (hg : g ∈ grammars)
    {shape : Shape} (derived : Derives g shape g.start s.tree) {p : Program}
    (h : (tool.changeSource job file s).result = .ok p) :
    p.tree.plain = Fixes.Spacer.tidy rs false s.tree := by
  obtain ⟨_, _, ran, rfl⟩ := changeSource_eq_ok h
  obtain ⟨_, _, t, run, whole, tag, tidied⟩ := Fixes.Spacer.change_ofTree rs hg derived
    { job with forest := (Forest.ofTree s.tree).2, names := s.names } rfl file
  rw [← team] at run
  cases run.symm.trans ran
  rw [Program.tree, ← tag, whole.stands.view_eq, tidied]

/-- **Changing blanks keeps the program.**  What the fixers for spacing make of a program, in whichever
order they are tried, is parsed by the same grammar, and to the same tree as the program itself. -/
theorem Tool.changeText_tidies {tool : Tool} {fixers : List Fixer}
    (chosen : ∀ f ∈ fixers, f ∈ spacingFixers) (team : tool.team = Team.ofFixers fixers) {job : Job}
    {file t : Text} (ends : t.getLast? = some '\n')
    (newlines : ∀ c ∈ t, Text.isLineEnd c = true → c = '\n') {p : Program}
    (h : (tool.changeText job file t).result = .ok p) :
    ∃ features s s', Features.detect t = .ok features ∧
      Source.parse (tool.grammarFor features) .collapsed t = .ok s ∧
      Source.parse (tool.grammarFor features) .collapsed p.text = .ok s' ∧
      s'.tree.same s.tree = true := by
  obtain ⟨rs, rfl⟩ := exists_spacers chosen
  unfold changeText at h
  split at h
  · cases h
  · rename_i features detected
    split at h
    · cases h
    · rename_i s parsed
      have hg := tool.grammarFor_mem features
      have lines : Source.parseLines (tool.grammarFor features) .collapsed t.newlineLines = .ok s := by
        rwa [← Text.lines_eq_newlineLines (Text.plain_of_newlines newlines)]
      have isLine := Text.isLine_newlineLines (.inr ends)
      cases changed : (tool.changeSource { job with features := some features } file s).result with
      | error e =>
        simp only [changed] at h
        cases h
      | ok p' =>
        simp only [changed] at h
        cases h
        have derived := (Source.parseLines_ok (closed_of_mem hg) isLine lines).1
        have respaced := @Fixes.Spacer.respaced_tidy [] rs false _ (orderly_of_parse hg isLine lines)
        rw [← Tool.changeSource_eq_tidy team hg derived changed] at respaced
        obtain ⟨s', parsed', same⟩ :=
          Source.parse_respacedLeaves hg (.inr ends) newlines parsed respaced
        refine ⟨features, s, s', detected, parsed, ?_, same⟩
        rwa [Program.text, ← text_plain, text_eq_leaves]

theorem Tool.changeText_of_parse {t : Text} {features : List Text}
    (detected : Features.detect t = .ok features)
    (parsed : Source.parse (tool.grammarFor features) .collapsed t = .ok s) :
    (tool.changeText job file t).result =
      (tool.changeSource { job with features := some features } file s).result.mapError .faulty := by
  unfold changeText
  rw [detected]
  simp [parsed]

/-- The sample is tidied, and the tidy sample has the tree of the sample. -/
theorem Tool.changeText_tidies_sample : ∃ p s s',
    (spacingTool.changeText {} [] sample).result = .ok p ∧ p.text = tidySample ∧
      Source.parse grammar .collapsed sample = .ok s ∧
      Source.parse grammar .collapsed tidySample = .ok s' ∧ s'.tree.same s.tree = true := by
  have detected : Features.detect sample = .ok [] := by decide +kernel
  have newlines : ∀ c ∈ sample, Text.isLineEnd c = true → c = '\n' :=
    Lexeme.forall_mem_of_all (by decide)
  have plain : spacingTool.grammarFor [] = grammar := by simp [grammarFor, spacingTool]
  have team : spacingTool.team = Team.ofFixers spacingFixers :=
    (Fixes.Spacer.team_eq [.comma, .equal, .operator]).symm
  obtain ⟨_, _, parsed⟩ := ofText_grammarText
  obtain ⟨p, changed, text⟩ := changeSource_sampleSource
  have run : (spacingTool.changeText {} [] sample).result = .ok p := by
    rw [changeText_of_parse detected (plain ▸ parsed), changed]
    rfl
  obtain ⟨features, s, s', found, parsed, parsed', same⟩ :=
    changeText_tidies (fun _ h => h) team (t := sample) rfl newlines run
  cases found.symm.trans detected
  rw [plain] at parsed parsed'
  rw [text] at parsed'
  exact ⟨p, s, s', run, text, parsed, parsed', same⟩

end Retouch
