import Retouch.Proofs.PatternCompiling
import Retouch.Proofs.PatternSpelling

/-!
# The pattern written for a tree

The text written for a tree is compiled to the pattern that repeats the tree: a node of its kind with
the patterns of its children in order, and for a leaf the literal of its characters
(`Command.exactPattern`).  It is compiled unless one of the leaves has no characters
(`Command.compile_patternText`).

The tokens of the text leave the parser no choice.  A unit of the language is followed by the start of
another one or by the end of its alternative, and neither can be taken for a part of the unit.  So
whatever tree the parser finds for the tokens, its units are those that were written, one for every
tree (`Command.found_of_writable`).
-/

namespace Retouch

open List

namespace Command

open Grammar
open Pattern (languageGrammar)
open Pattern.Language
open Source (Becomes)

/-! ## The words of trees -/

def wordOf (l : Leaf) : Kind × Text := (l.kind, l.value.shown)

def words (cs : List SyntaxTree) : List (Kind × Text) := (Tree.leavesAll cs).map wordOf

theorem words_append (cs ds : List SyntaxTree) : words (cs ++ ds) = words cs ++ words ds := by
  simp [words]

theorem words_cons (c : SyntaxTree) (cs : List SyntaxTree) :
    words (c :: cs) = words [c] ++ words cs :=
  words_append [c] cs

@[simp] theorem words_nil : words [] = [] := rfl

@[simp] theorem words_node (k : Kind) (cs : List SyntaxTree) : words [.node () k cs] = words cs := by
  simp [words, Tree.leavesAll, Tree.leaves]

variable {c u a : SyntaxTree} {k : Kind} {rest ws rest' : List (Kind × Text)}
  {basic us : List SyntaxTree} {v name : Text} {cs : List (Tree α)} {tag : α} {t : Tree α}

theorem words_isToken (h : IsToken k c) : words [c] = [(k, leafText c)] := by
  obtain ⟨t, rfl, rfl⟩ := h
  rfl

def Begins (ks : List Kind) (ws : List (Kind × Text)) : Prop := ∃ w rest, ws = w :: rest ∧ w.1 ∈ ks

section Begins

variable {ks ks' : List Kind} {ws : List (Kind × Text)}

theorem begins_cons {k : Kind} (mem : k ∈ ks) (v : Text) (ws : List (Kind × Text)) :
    Begins ks ((k, v) :: ws) :=
  ⟨_, _, rfl, mem⟩

theorem Begins.append (h : Begins ks ws) (ws' : List (Kind × Text)) : Begins ks (ws ++ ws') := by
  obtain ⟨w, rest, rfl, mem⟩ := h
  exact ⟨w, rest ++ ws', rfl, mem⟩

theorem Begins.mono (h : Begins ks ws) (sub : ks ⊆ ks') : Begins ks' ws := by
  obtain ⟨w, rest, rfl, mem⟩ := h
  exact ⟨w, rest, rfl, sub mem⟩

theorem Begins.disjoint (h : Begins ks ws) (h' : Begins ks' ws) (apart : ∀ k ∈ ks, k ∉ ks') : False := by
  obtain ⟨w, _, rfl, mem⟩ := h
  obtain ⟨_, _, eq, mem'⟩ := h'
  obtain ⟨rfl, rfl⟩ := cons.inj eq
  exact apart _ mem mem'

end Begins

def unitHeads : List Kind := [Kind.name, Kind.string, Kind.leftParen, Kind.leftBracket]

def closers : List Kind := [Kind.endMarker, 18, 21]

def repeaterHeads : List Kind := [Kind.star, Kind.plus, 26]

def Stops (ws : List (Kind × Text)) : Prop := Begins (unitHeads ++ closers) ws

variable {g : Grammar}

def IsUnit (g : Grammar) (u : SyntaxTree) : Prop := Is g unit u ∨ Is g negatedUnit u

theorem begins_isToken {ks : List Kind} (h : IsToken k c) (mem : k ∈ ks) (cs : List SyntaxTree) :
    Begins ks (words (c :: cs)) := by
  rw [words_cons, words_isToken h]
  exact begins_cons mem _ _

theorem begins_basic {cs : List SyntaxTree} (h : Basic g cs) : Begins unitHeads (words cs) := by
  cases h with
  | string string => exact begins_isToken string (by decide) []
  | name name => exact begins_isToken name (by decide) []
  | details name => exact begins_isToken name (by decide) _
  | bracketed opening _ _ kind =>
    have brackets : ∀ k ∈ [.leftParen, .leftBracket], k ∈ unitHeads := by decide
    exact begins_isToken opening (brackets _ kind) _

section

variable (made : Made g)
include made

theorem begins_repeater {r : SyntaxTree} (h : Is g repeater r) :
    Begins repeaterHeads (words [r]) := by
  obtain ⟨cs, rfl, repeats⟩ := made.repeater_children h
  rw [words_node]
  cases repeats with
  | star mark | plus mark => exact begins_isToken mark (by decide) []
  | exactly opening | between opening => exact begins_isToken opening (by decide) _

theorem begins_unit (h : IsUnit g u) : Begins unitHeads (words [u]) := by
  rcases h with derived | derived
  · obtain ⟨_, _, _, rfl, unit⟩ := made.unit_children derived
    rw [words_node, words_append, words_append]
    rcases unit.front with rfl | ⟨n, e, rfl, name, -⟩
    · exact (begins_basic unit.basic).append _
    · exact (begins_isToken name (by decide) _).append _
  · obtain ⟨c, cs, rfl, ⟨name, -⟩, -⟩ := made.negatedUnit_children derived
    rw [words_node]
    exact begins_isToken name (by decide) cs

/-! ## Units found in words -/

theorem exists_plain (h : IsUnit g u) {w : Kind × Text} (same : words [u] ++ rest = w :: ws)
    (other : w ≠ (Kind.name, "not".toList)) (unnamed : ¬ Begins [Kind.equal] ws) :
    ∃ basic back, u = .node () unit (basic ++ back) ∧ UnitOf g [] basic back ∧
      words basic ++ (words back ++ rest) = w :: ws := by
  rcases h with derived | derived
  · obtain ⟨_, basic, back, rfl, unit⟩ := made.unit_children derived
    rw [words_node, words_append, words_append, append_assoc, append_assoc] at same
    rcases unit.front with rfl | ⟨n, e, rfl, name, equal⟩
    · exact ⟨basic, back, rfl, unit, same⟩
    · rw [words_cons, words_isToken name, words_isToken equal] at same
      refine absurd ?_ unnamed
      rw [← (cons.inj same).2]
      exact begins_cons (by decide) _ _
  · obtain ⟨c, cs, rfl, ⟨name, word⟩, -⟩ := made.negatedUnit_children derived
    rw [words_node, words_cons, words_isToken name, word] at same
    exact absurd (cons.inj same).1.symm other

theorem back_eq_nil {back : List SyntaxTree} (h : UnitOf g [] basic back)
    (same : words back ++ rest = rest') (stops : Stops rest') : back = [] := by
  rcases h.back with rfl | ⟨r, rfl, derived⟩
  · rfl
  · rw [← same] at stops
    exact (((begins_repeater made derived).append rest).disjoint stops (by decide)).elim

theorem exists_string (h : IsUnit g u) (same : words [u] ++ rest = (Kind.string, v) :: rest')
    (stops : Stops rest') :
    rest = rest' ∧ ∃ q, u = .node () unit [q] ∧ UnitOf g [] [q] [] ∧ IsToken Kind.string q ∧
      leafText q = v := by
  have kinds : .string ≠ Kind.name := by decide
  obtain ⟨_, _, rfl, unit, same⟩ := exists_plain made h same
    (fun eq => kinds (congrArg Prod.fst eq)) fun equal => equal.disjoint stops (by decide)
  cases unit.basic with
  | @string q string =>
    rw [words_isToken string] at same
    obtain ⟨word, later⟩ := cons.inj same
    obtain rfl := back_eq_nil made unit later stops
    exact ⟨later, q, rfl, unit, string, congrArg Prod.snd word⟩
  | name name =>
    rw [words_isToken name] at same
    exact absurd (congrArg Prod.fst (cons.inj same).1).symm kinds
  | details name =>
    rw [words_cons, words_isToken name] at same
    exact absurd (congrArg Prod.fst (cons.inj same).1).symm kinds
  | bracketed opening _ _ kind =>
    have brackets : ∀ k ∈ [.leftParen, Kind.leftBracket], k ≠ .string := by decide
    rw [words_cons, words_isToken opening] at same
    exact absurd (congrArg Prod.fst (cons.inj same).1) (brackets _ kind)

theorem exists_details (h : IsUnit g u)
    (same : words [u] ++ rest = (Kind.name, name) :: (20, v) :: ws) (other : name ≠ "not".toList)
    (stops : Stops rest) :
    ∃ n a b c back, u = .node () unit ([n, .node () details [a, b, c]] ++ back) ∧
      UnitOf g [] [n, .node () details [a, b, c]] back ∧ IsToken Kind.name n ∧
      leafText n = name ∧ Is g alternatives b ∧ IsToken 21 c ∧
      words [b] ++ ((21, leafText c) :: (words back ++ rest)) = ws := by
  have angle : Begins [20] ((20, v) :: ws) := begins_cons (by decide) v ws
  obtain ⟨_, back, rfl, unit, same⟩ := exists_plain made h same
    (fun eq => other (congrArg Prod.snd eq)) fun equal => equal.disjoint angle (by decide)
  cases unit.basic with
  | string string =>
    have kinds : Kind.string ≠ .name := by decide
    rw [words_isToken string] at same
    exact absurd (congrArg Prod.fst (cons.inj same).1) kinds
  | name token =>
    -- The bracket would begin a repeater or what comes after the unit.
    rw [words_isToken token, singleton_append] at same
    have later := (cons.inj same).2
    rcases unit.back with rfl | ⟨r, rfl, derived⟩
    · rw [words_nil, nil_append] at later
      exact (angle.disjoint (later ▸ stops) (by decide)).elim
    · have begins := (begins_repeater made derived).append rest
      exact (angle.disjoint (later ▸ begins) (by decide)).elim
  | @details n d token inside =>
    obtain ⟨a, b, c, rfl, opening, inside, closing⟩ := made.details_children inside
    rw [words_cons, words_isToken token, words_node, words_cons a, words_isToken opening, words_cons b,
      words_isToken closing] at same
    simp only [cons_append, nil_append, append_assoc, cons.injEq] at same
    obtain ⟨word, -, later⟩ := same
    exact ⟨n, a, b, c, back, rfl, unit, token, congrArg Prod.snd word, inside, closing, later⟩
  | bracketed opening _ _ kind =>
    have brackets : ∀ k ∈ [.leftParen, Kind.leftBracket], k ≠ .name := by decide
    rw [words_cons, words_isToken opening] at same
    exact absurd (congrArg Prod.fst (cons.inj same).1) (brackets _ kind)

theorem exists_alternative (h : Is g alternatives a) :
    ∃ us later, a = .node () alternatives (.node () alternative us :: later) ∧
      (∀ u ∈ us, IsUnit g u) ∧ (later = [] ∨ Begins [18] (words later)) := by
  obtain ⟨cs, rfl, alternated⟩ := made.alternatives_children h
  cases alternated with
  | one first =>
    obtain ⟨us, rfl, units⟩ := made.alternative_children first
    exact ⟨us, [], rfl, units, .inl rfl⟩
  | more first bar =>
    obtain ⟨us, rfl, units⟩ := made.alternative_children first
    exact ⟨us, _, rfl, units, .inr (begins_isToken bar (by decide) _)⟩

/-! ## Compiling units -/

variable {fuel : Nat}

theorem compileTree_plain (h : UnitOf g [] basic []) :
    compileTree (fuel + 1) (.node () unit basic) = compileBasic fuel basic >>= optimized := by
  obtain ⟨named, split⟩ := h.splits made
  rw [append_nil, nil_append] at named
  rw [append_nil] at split
  rw [compileTree_unit, named, split]
  rfl

end

theorem compileTree_single (kind : k = alternatives ∨ k = alternative) (c : SyntaxTree) :
    compileTree (fuel + 2) (.node () k [c]) = compileTree fuel c := by
  have last : compileAll fuel [] = .ok [] := by cases fuel <;> rfl
  rcases kind with rfl | rfl
  all_goals
    show bind (bind (compileTree fuel c) fun p => bind (compileAll fuel []) _) _ = _
    rw [last]
    cases compileTree fuel c <;> rfl

theorem compileTree_matcher (cs : List SyntaxTree) (z : SyntaxTree) :
    compileTree (fuel + 1) (.node () matcher [.node () alternatives cs, z]) =
      compileTree (fuel + 1) (.node () alternatives cs) :=
  rfl

theorem compileTree_alternative {ps : List Pattern} (many : 2 ≤ ps.length)
    (units : compileAll fuel us = .ok ps) :
    compileTree (fuel + 1) (.node () alternative us) = .ok (.choice [ps] 1 1 none) := by
  show bind (compileAll fuel us) _ = _
  rw [units]
  match ps, many with
  | _ :: _ :: _, _ => rfl

theorem compileTree_alternative_error {e : PatternError} (units : compileAll fuel us = .error e) :
    compileTree (fuel + 1) (.node () alternative us) = .error e := by
  show bind (compileAll fuel us) _ = _
  rw [units]
  rfl

theorem compileBasic_details {n b : SyntaxTree} (token : IsToken Kind.name n)
    (text : leafText n = name) (named : Language.symbolName? k = some name) :
    compileBasic (fuel + 1) [n, .node () details [a, b, c]] =
      (compileTree fuel b).map fun p => .within (some k) [p] none := by
  obtain ⟨plain, symbol, -⟩ := plainName_of_symbolName? named
  obtain ⟨t, rfl, kind⟩ := token
  have string : t.leaf.kind ≠ .string := by
    rw [show t.leaf.kind = t.kind from rfl, kind]
    decide
  have known : checkSymbol name = .ok () := by
    rw [checkSymbol, if_neg]
    rintro ⟨-, -, none⟩
    cases symbol.symm.trans none
  have made : ∀ p, ofSymbol name (some p) = .ok (.within (some k) [p] none) := by
    intro p
    rw [ofSymbol, plain.visible, if_neg Bool.false_ne_true]
    simp only [if_neg plain.other.2, symbol]
  rw [compileBasic, if_neg string, if_pos (show t.leaf.kind = .name from kind)]
  simp only [text, plain.small, known, content?, Tree.children,
    getElem?_cons_succ, getElem?_cons_zero, made]
  cases compileTree fuel b <;> rfl

/-! ## The pattern that repeats a tree -/

variable {α : Type}

mutual
def exactPattern : Tree α → Pattern
  | .leaf _ l =>
    .leaf (guessedKind (l.value.shown.flatMap Text.reread)) (some (l.value.shown.flatMap Text.reread)) none
  | .node _ k cs => .within (some k) [.choice [exactPatterns cs] 1 1 none] none

def exactPatterns : List (Tree α) → List Pattern
  | [] => []
  | t :: ts => exactPattern t :: exactPatterns ts
end

theorem length_exactPatterns (cs : List (Tree α)) : (exactPatterns cs).length = cs.length := by
  induction cs with
  | nil => rfl
  | cons c cs ih => rw [exactPatterns, length_cons, length_cons, ih]

theorem ofLiteral_quoted (v : Text) : ofLiteral (Text.quoted v) =
    if v = [] then .error .emptyLiteral
    else .ok (.leaf (guessedKind (v.flatMap Text.reread)) (some (v.flatMap Text.reread)) none) := by
  rw [ofLiteral, Text.Literal.value_quoted]
  by_cases empty : v = []
  · rw [empty]
    rfl
  · have reread := fun nil => empty (Text.flatMap_reread_eq_nil_iff.1 nil)
    obtain ⟨c, cs, eq⟩ := exists_cons_of_ne_nil reread
    rw [if_neg empty, eq]

theorem forall_leaves_node_iff {P : Leaf → Prop} :
    (∀ l ∈ (Tree.node tag k cs).leaves, P l) ↔ ∀ c ∈ cs, ∀ l ∈ c.leaves, P l := by
  simp only [Tree.leaves, Tree.leavesAll_eq_flatMap, mem_flatMap, forall_exists_index, and_imp]
  exact ⟨fun h c hc l hl => h l c hc hl, fun h l c hc hl => h c hc l hl⟩

def Filled (t : Tree α) : Prop := ∀ l ∈ t.leaves, l.value.shown ≠ []

instance (t : Tree α) : Decidable (Filled t) := inferInstanceAs (Decidable (∀ l ∈ t.leaves, _))

theorem filled_node_iff : Filled (.node tag k cs) ↔ ∀ c ∈ cs, Filled c :=
  forall_leaves_node_iff

/-- The unit is compiled to the pattern that repeats the tree, unless a leaf has no characters. -/
def Compiles (t : Tree α) (u : SyntaxTree) : Prop :=
  ∀ fuel, 8 * (patternText t).length ≤ fuel →
    compileTree fuel u = if Filled t then .ok (exactPattern t) else .error .emptyLiteral

theorem compileAll_eq {cs : List (Tree α)} {us : List SyntaxTree} (h : Forall₂ Compiles cs us)
    {fuel : Nat} (enough : ∀ c ∈ cs, 8 * (patternText c).length + cs.length ≤ fuel) :
    compileAll fuel us =
      if ∀ c ∈ cs, Filled c then .ok (exactPatterns cs) else .error .emptyLiteral := by
  induction h generalizing fuel with
  | nil => rw [compileAll, if_pos nofun, exactPatterns]
  | @cons c u cs us first _ ih =>
    simp only [forall_mem_cons, length_cons] at enough
    cases fuel with
    | zero => omega
    | succ fuel =>
      have head := first fuel (by omega)
      have tail := @ih fuel fun d hd => by
        have := enough.2 d hd
        omega
      rw [compileAll, head, tail]
      by_cases filled : Filled c
      · by_cases others : ∀ d ∈ cs, Filled d
        · rw [if_pos filled, if_pos others, if_pos (forall_mem_cons.2 ⟨filled, others⟩)]
          rfl
        · rw [if_pos filled, if_neg others, if_neg fun all => others (forall_mem_cons.1 all).2]
          rfl
      · rw [if_neg filled, if_neg fun all => filled (forall_mem_cons.1 all).1]
        rfl

theorem compiles_leaf (made : Made g) {q : SyntaxTree} (unit : UnitOf g [] [q] [])
    (string : IsToken Kind.string q) {l : Leaf} (value : l.value = .text v)
    (text : leafText q = Text.quoted v) :
    Compiles (.leaf tag l) (.node () Pattern.Language.unit [q]) := by
  intro fuel _
  have shown : l.value.shown = v := by rw [value]; rfl
  have length : 2 ≤ (patternText (.leaf tag l)).length := by
    rw [patternText, value]
    simp [Value.quoted, Text.quoted]
  obtain ⟨fuel, rfl⟩ : ∃ n, fuel = n + 2 := ⟨fuel - 2, by omega⟩
  obtain ⟨t, rfl, kind⟩ := string
  have filled : Filled (.leaf tag l) ↔ v ≠ [] := by
    rw [Filled, Tree.leaves, forall_mem_singleton, shown]
  rw [compileTree_plain made unit, compileBasic, if_pos (show t.leaf.kind = .string from kind), text,
    ofLiteral_quoted, exactPattern, shown]
  by_cases empty : v = []
  · rw [if_pos empty, if_neg fun h => filled.1 h empty]
    rfl
  · rw [if_neg empty, if_pos (filled.2 empty)]
    rfl

theorem length_patternText_node {tag : α} {k : Kind} {cs : List (Tree α)} :
    ∀ c ∈ cs, (patternText c).length + cs.length + 3 ≤ (patternText (.node tag k cs)).length := by
  intro c hc
  have joined := @Text.length_join " " rfl _ _ (mem_map_of_mem hc : patternText c ∈ cs.map patternText)
  have opening : "< ".toList.length = 2 := rfl
  have closing : " >".toList.length = 2 := rfl
  rw [length_map] at joined
  rw [patternText, patternTexts_eq_map, length_append, length_append, length_append]
  omega

theorem compiles_node (made : Made g) {n : SyntaxTree}
    (unit : UnitOf g [] [n, .node () details [a, .node () alternatives [.node () alternative us], c]] [])
    (token : IsToken Kind.name n) (text : leafText n = name)
    (named : Language.symbolName? k = some name) (many : 2 ≤ cs.length)
    (units : Forall₂ Compiles cs us) :
    Compiles (.node tag k cs) (.node () Pattern.Language.unit
      [n, .node () details [a, .node () alternatives [.node () alternative us], c]]) := by
  intro fuel _
  have longer := @length_patternText_node _ tag k cs
  have some' : ∃ d, d ∈ cs := exists_mem_of_length_pos (by omega)
  obtain ⟨d, hd⟩ := some'
  have := longer d hd
  obtain ⟨fuel, rfl⟩ : ∃ n, fuel = n + 5 := ⟨fuel - 5, by omega⟩
  have all := @compileAll_eq _ cs us units fuel fun e he => by
    have := longer e he
    omega
  rw [compileTree_plain made unit, compileBasic_details token text named,
    compileTree_single (.inl rfl)]
  by_cases filled : ∀ c ∈ cs, Filled c
  · rw [if_pos filled] at all
    rw [compileTree_alternative (by rwa [length_exactPatterns]) all, if_pos (filled_node_iff.2 filled)]
    rfl
  · rw [if_neg filled] at all
    rw [compileTree_alternative_error all, if_neg fun h => filled (filled_node_iff.1 h)]
    rfl

/-! ## The text is compiled -/

theorem begins_spelling (t : Tree α) : Begins [Kind.name, Kind.string] (spelling t) := by
  cases t with
  | leaf | node => exact begins_cons (by decide) _ _

theorem stops_spellings (cs : List (Tree α)) (ends : Begins closers rest) :
    Stops (spellings cs ++ rest) := by
  cases cs with
  | nil => exact ends.mono (by decide)
  | cons c cs =>
    rw [spellings, append_assoc]
    exact ((begins_spelling c).append _).mono (by decide)

theorem stops_units (made : Made g) (units : ∀ u ∈ us, IsUnit g u) (ends : Begins closers rest) :
    Stops (words us ++ rest) := by
  cases us with
  | nil => exact ends.mono (by decide)
  | cons u us =>
    rw [words_cons, append_assoc]
    exact ((begins_unit made (units u mem_cons_self)).append _).mono (by decide)

/-- Whatever unit is found at the words written for the tree ends with them and is compiled to the
pattern that repeats the tree. -/
def Found (g : Grammar) (t : Tree α) : Prop :=
  ∀ {u : SyntaxTree} {rest rest' : List (Kind × Text)}, IsUnit g u →
    words [u] ++ rest = spelling t ++ rest' → Stops rest → Stops rest' → rest = rest' ∧ Compiles t u

theorem compiles_units (made : Made g) (each : ∀ c ∈ cs, Found g c) (units : ∀ u ∈ us, IsUnit g u)
    (same : words us ++ rest = spellings cs ++ rest') (ends : Begins closers rest)
    (ends' : Begins closers rest') : rest = rest' ∧ Forall₂ Compiles cs us := by
  induction cs generalizing us with
  | nil =>
    cases us with
    | nil => exact ⟨same, .nil⟩
    | cons u us =>
      have begins := (begins_unit made (units u mem_cons_self)).append (words us ++ rest)
      rw [← append_assoc, ← words_cons, same] at begins
      exact (begins.disjoint ends' (by decide)).elim
  | cons c cs ih =>
    cases us with
    | nil =>
      have begins := (begins_spelling c).append (spellings cs ++ rest')
      rw [← append_assoc, ← spellings, ← same] at begins
      exact (begins.disjoint ends (by decide)).elim
    | cons u us =>
      obtain ⟨first, others⟩ := forall_mem_cons.1 each
      obtain ⟨unit, later⟩ := forall_mem_cons.1 units
      rw [words_cons, spellings, append_assoc, append_assoc] at same
      obtain ⟨same, compiles⟩ :=
        first unit same (stops_units made later ends) (stops_spellings cs ends')
      obtain ⟨same, all⟩ := ih others later same
      exact ⟨same, .cons compiles all⟩

/-- No bar is written, so that there is one alternative. -/
theorem compiles_alternatives (made : Made g) (each : ∀ c ∈ cs, Found g c) {b : SyntaxTree}
    (inside : Is g alternatives b) (same : words [b] ++ rest = spellings cs ++ rest')
    (ends : Begins closers rest) (ends' : Begins [Kind.endMarker, 21] rest') :
    rest = rest' ∧ ∃ us, b = .node () alternatives [.node () alternative us] ∧
      Forall₂ Compiles cs us := by
  obtain ⟨us, _, rfl, units, last⟩ := exists_alternative made inside
  rw [words_node, words_cons, words_node, append_assoc] at same
  rcases last with rfl | bar
  · obtain ⟨same, compiles⟩ := compiles_units made each units same ends (ends'.mono (by decide))
    exact ⟨same, us, rfl, compiles⟩
  · have begins := bar.append rest
    obtain ⟨same, -⟩ := compiles_units made each units same (begins.mono (by decide))
      (ends'.mono (by decide))
    rw [same] at begins
    exact (begins.disjoint ends' (by decide)).elim

theorem found_of_writable (made : Made g) (h : Writable t) : Found g t := by
  induction h with
  | @leaf tag l v value =>
    intro u rest rest' unit same _ stops'
    rw [spelling, value] at same
    obtain ⟨later, q, rfl, plain, string, text⟩ := exists_string made unit same stops'
    exact ⟨later, compiles_leaf made plain string value text⟩
  | @node tag k cs name many named _ ih =>
    intro u rest rest' unit same stops stops'
    have other := (plainName_of_symbolName? named).1.other.1
    rw [spelling, named, append_assoc, append_assoc] at same
    obtain ⟨n, a, b, c, _, rfl, plain, token, text, inside, -, later⟩ :=
      exists_details made unit same other stops
    obtain ⟨closed, us, rfl, units⟩ := compiles_alternatives made ih inside later
      (begins_cons (by decide) _ _) (begins_cons (by decide) _ _)
    have after := (cons.inj closed).2
    obtain rfl := back_eq_nil made plain after stops'
    exact ⟨after, compiles_node made plain token text named many units⟩

def tokenWord (t : Token) : Kind × Text := ((Source.parserKind t).toOption.getD 0, t.text)

theorem Shows.word {t : Token} {w : Kind × Text} (h : Shows t w) : tokenWord t = w := by
  rw [tokenWord, h.kind, h.text]
  rfl

theorem wordOf_of_becomes {t : Token} {l : Leaf} (h : Becomes t l) : tokenWord t = wordOf l := by
  rw [tokenWord, wordOf, h.kind, h.value]
  rfl

theorem words_of_parse (h : Writable t) {tree : SyntaxTree}
    (parsed : Pattern.Language.parse (patternText t) = .ok tree) :
    ∃ rest, words [tree] ++ rest = spelling t ++ [(Kind.endMarker, [])] := by
  obtain ⟨ts, shows', -, tokens⟩ := tokens_patternText h
  unfold Pattern.Language.parse parseBy at parsed
  split at parsed
  · rename_i source run
    cases parsed
    obtain ⟨pre, ⟨post, before⟩, becomes⟩ := Source.leaves_of_parseScan made_languageGrammar.predictive run
    have leaves : pre.map tokenWord = words [source.tree] := by
      rw [words, Tree.leavesAll, Tree.leavesAll, append_nil]
      exact map_eq_map_of_forall₂ becomes fun _ _ => wordOf_of_becomes
    have spelled : ts.map tokenWord = spelling t := by
      rw [@map_eq_map_of_forall₂ _ _ _ _ _ _ tokenWord id shows' fun _ _ shown => shown.word, map_id]
    refine ⟨post.map tokenWord, ?_⟩
    rw [← leaves, ← map_append, before, ← spelled]
    rw [show Source.parsed (scanned (patternText t)).tokens = ts ++ [lastToken] from tokens,
      map_append]
    rfl
  · cases parsed

/-- The text of a tree is compiled to the pattern that repeats the tree, unless one of the leaves has
no characters. -/
theorem compile_patternText (h : Writable t) : Pattern.compile (patternText t) =
    if Filled t then .ok (exactPattern t) else .error .emptyLiteral := by
  have made := made_languageGrammar
  obtain ⟨_, parsed⟩ := exists_parse h
  obtain ⟨_, same⟩ := words_of_parse h parsed
  obtain ⟨a, z, rfl, inside, last⟩ := made.matcher_children (made.derives_of_parseBy parsed)
  rw [words_node, words_cons, words_isToken last, append_assoc] at same
  have alone : spellings [t] = spelling t := append_nil _
  rw [← alone] at same
  obtain ⟨-, us, rfl, units⟩ := compiles_alternatives made
    (forall_mem_singleton.2 (found_of_writable made h)) inside same
    (begins_cons (by decide) _ _) (begins_cons (by decide) _ _)
  obtain ⟨u, _, compiles, others, rfl⟩ := forall₂_cons_left_iff.1 units
  obtain rfl := forall₂_nil_left_iff.1 others
  have fuel : 8 * ((patternText t).length + 4) = 8 * (patternText t).length + 28 + 2 + 2 := by omega
  rw [Pattern.compile, parsed, fuel]
  show compileTree _ _ = _
  rw [compileTree_matcher, compileTree_single (.inl rfl), compileTree_single (.inr rfl)]
  exact compiles _ (by omega)

end Command

end Retouch
