import Retouch.Command.Explore
import Retouch.Proofs.LeafTokens
import Retouch.Proofs.LexemeGaps
import Retouch.Proofs.QuotedLiterals

/-!
# The text of the pattern of a tree

The text of the pattern of a tree (`Command.patternText`) has the tokens that one expects: a string for
a leaf, and for a node its name and, between angle brackets, the tokens of its children
(`Command.spelling`).  It is scanned into these tokens (`Command.scan_patternText`) and they derive from
the rules of the language of patterns, so that the text is parsed (`Command.exists_parse`).

The trees are those in which every node has at least two children and a name, as it is in the collapsed
tree of a program (`Command.Writable`).
-/

namespace Retouch

open List

/-! ## Names and angle brackets as lexemes -/

namespace Lexeme

open Retouch.Text (isWord)

variable {c : Char} {rest : Text}

/-- A name is a lexeme before a character that cannot go on with it, if it is not taken for the letters
before a string. -/
theorem lexes_name {gap w : Text} {d : Char} (blank : IsGap gap)
    (start : headIs (fun c => isNameStart c && isWordHead c) w = true)
    (word : ∀ c ∈ w, isWord c = true) (stop : isWord d = false)
    (inside : stringLetters (w ++ [d]) < (w ++ [d]).length)
    (plain : headIs isQuote ((w ++ [d]).drop (stringLetters (w ++ [d]))) = false) :
    Lexes gap w (d :: rest) := by
  cases w with
  | nil => cases start
  | cons c w =>
    obtain ⟨begins, head⟩ := Bool.and_eq_true_iff.1 start
    have split : c :: w ++ d :: rest = (c :: w ++ [d]) ++ rest := by simp
    obtain ⟨triple, string⟩ := @quoteless (c :: w ++ d :: rest) (by
      rw [split, stringLetters_append (.inl inside), headIs_append_of_lt inside, plain])
    have size : span isWord (w ++ d :: rest) = w.length :=
      span_append_of_all (fun e he => word e (mem_cons_of_mem c he)) stop
    refine ⟨blank, cons_ne_nil _ _, ?_⟩
    have begins : headIs isNameStart (c :: (w ++ d :: rest)) = true := begins
    rw [cons_append] at triple string ⊢
    rw [size?_word head, triple, string, name?, if_pos begins, drop_succ_cons, drop_zero, size,
      add_comm]
    rfl
def Apart (rest : Text) : Prop := rest = [] ∨ ∃ cs, rest = ' ' :: cs

theorem Apart.stop (h : Apart rest) {p : Char → Bool} (blank : p ' ' = false) :
    headIs p rest = false := by
  rcases h with rfl | ⟨cs, rfl⟩
  · rfl
  · exact blank

theorem lexes_angle {gap : Text} (blank : IsGap gap) (angle : c = '<' ∨ c = '>')
    (apart : Apart rest) : Lexes gap [c] rest := by
  refine ⟨blank, cons_ne_nil _ _, ?_⟩
  rcases apart with rfl | ⟨cs, rfl⟩
  · rcases angle with rfl | rfl <;> decide
  · rcases angle with rfl | rfl <;> cases cs <;> rfl

end Lexeme

/-! ## Words and the tokens that show them -/

namespace Command

open Lexeme (Apart IsGap Lexes headIs isNameStart)
open Scan (scanFrom State isString plainKind depthChange)
open Text (isWord isPrintable quoted)

/-- The token has the kind by which the parser knows it, and the characters, and is no layout. -/
structure Shows (t : Token) (w : Kind × Text) : Prop where
  solid : t.kind = Kind.name ∨ t.kind = Kind.string ∨ t.kind = Kind.operator
  kind : Source.parserKind t = .ok w.1
  text : t.text = w.2

/-- Scanning the characters outside brackets gives tokens that show the words, and goes on with the
rest. -/
def ScansTo (cs : Text) (ws : List (Kind × Text)) (rest : Text) : Prop :=
  ∀ line (s : State) col, s.depth = 0 → ∃ ts col', List.Forall₂ Shows ts ws ∧
    scanFrom line s col cs = (ts ++ (scanFrom line s col' rest).1, (scanFrom line s col' rest).2)

variable {rest gap : Text} {k : Kind}

theorem ScansTo.trans {cs mid : Text} {ws ws' : List (Kind × Text)} (h : ScansTo cs ws mid)
    (h' : ScansTo mid ws' rest) : ScansTo cs (ws ++ ws') rest := by
  intro line s col depth
  obtain ⟨ts, col', shows', scanned⟩ := h line s col depth
  obtain ⟨ts', col'', shows'', scanned'⟩ := h' line s col' depth
  refine ⟨ts ++ ts', col'', rel_append shows' shows'', ?_⟩
  rw [scanned, scanned', append_assoc]

theorem scansTo_quoted (blank : IsGap gap) (v : Text) (apart : Apart rest) :
    ScansTo (gap ++ (quoted v ++ rest)) [(Kind.string, quoted v)] rest := by
  intro line s col _
  obtain ⟨triple, string, last⟩ := Scan.isString_quoted v
  have step := Scan.scanFrom_lexes (Lexeme.lexes_quoted blank v (apart.stop rfl)) line s col
  rw [triple, string, if_neg last] at step
  exact ⟨[_], _, .cons ⟨.inr (.inl rfl), rfl, rfl⟩ .nil, step⟩

theorem scansTo_plain {x : Text} (lexes : Lexes gap x rest) (string : isString x = false)
    (still : depthChange x = 0) (mark : headIs (· == '\\') x = false)
    (kind : plainKind 0 x = Kind.name ∧ k = Kind.name ∨
      plainKind 0 x = Kind.operator ∧ Kind.ofOperator? x = some k) :
    ScansTo (gap ++ (x ++ rest)) [(k, x)] rest := by
  intro line s col depth
  have triple : Scan.isTripleOpening x = false := by
    by_contra triple
    rw [Scan.isString_of_triple (Bool.not_eq_false _ ▸ triple)] at string
    cases string
  have same : s.past x = s := by rw [Scan.State.past, still, mark, add_zero, Bool.or_false]
  have step := Scan.scanFrom_lexes lexes line s col
  rw [triple, string, same, depth] at step
  refine ⟨[_], _, .cons ⟨?_, ?_, rfl⟩ .nil, step⟩
  · rcases kind with ⟨name, -⟩ | ⟨operator, -⟩
    · exact .inl name
    · exact .inr (.inr operator)
  · rcases kind with ⟨name, rfl⟩ | ⟨operator, found⟩
    · simp only [name]
      rfl
    · simp [Source.parserKind, operator, found]

theorem scansTo_less (blank : IsGap gap)
    (apart : Apart rest) : ScansTo (gap ++ (['<'] ++ rest)) [(20, ['<'])] rest :=
  scansTo_plain (Lexeme.lexes_angle blank (.inl rfl) apart) rfl rfl rfl (.inr ⟨by decide, by decide⟩)

theorem scansTo_greater (blank : IsGap gap) (apart : Apart rest) :
    ScansTo (gap ++ (['>'] ++ rest)) [(21, ['>'])] rest :=
  scansTo_plain (Lexeme.lexes_angle blank (.inr rfl) apart) rfl rfl rfl (.inr ⟨by decide, by decide⟩)

/-! ## Names of symbols -/

/-- What is used of the names of symbols: they are words in small letters, and mean themselves. -/
@[mk_iff]
structure PlainName (name : Text) : Prop where
  start : headIs isNameStart name = true
  word : name.all isWord = true
  printable : name.all isPrintable = true
  string : isString name = false
  still : depthChange name = 0
  mark : headIs (· == '\\') name = false
  kind : plainKind 0 name = Kind.name
  other : name ≠ "not".toList ∧ name ≠ "any".toList
  small : Text.allUpper name = false
  visible : Pattern.Language.isHidden name = false

instance (name : Text) : Decidable (PlainName name) := decidable_of_iff _ (plainName_iff name).symm

theorem symbolNames_plain : ∀ name ∈ Language.symbolNames, PlainName name := by decide +kernel

theorem symbolNames_numbered : ∀ i < Language.symbolNames.length,
    (Language.symbolNames[i]?.bind Language.symbol?) = some (Kind.firstSymbol + i) := by
  decide +kernel

theorem symbolNames_heads : ∀ name ∈ Language.symbolNames,
    headIs (fun c => isNameStart c && Lexeme.isWordHead c) name = true ∧
      Lexeme.stringLetters (name ++ ['<']) < (name ++ ['<']).length ∧
      headIs Lexeme.isQuote ((name ++ ['<']).drop (Lexeme.stringLetters (name ++ ['<']))) = false := by
  decide +kernel

theorem plainName_of_symbolName? {name : Text} (h : Language.symbolName? k = some name) :
    PlainName name ∧ Language.symbol? name = some k ∧ ∀ {gap : Text} (rest : Text),
      IsGap gap → Lexes gap name ('<' :: rest) := by
  unfold Language.symbolName? at h
  split at h
  · cases h
  · rename_i symbol
    have numbered := symbolNames_numbered _ (List.getElem?_eq_some_iff.1 h).1
    rw [h, Nat.add_sub_cancel' (Nat.le_of_not_lt symbol)] at numbered
    have plain := symbolNames_plain name (mem_of_getElem? h)
    obtain ⟨start, inside, quote⟩ := symbolNames_heads name (mem_of_getElem? h)
    exact ⟨plain, numbered, fun rest blank =>
      Lexeme.lexes_name blank start (all_eq_true.1 plain.word) (by decide) inside quote⟩

/-! ## The tokens of the text of a tree -/

variable {α : Type}

/-- Every node has at least two children and a name, and every leaf has characters. -/
inductive Writable : Tree α → Prop
  | leaf {tag : α} {l : Leaf} {v : Text} (value : l.value = .text v) : Writable (.leaf tag l)
  | node {tag : α} {k : Kind} {cs : List (Tree α)} {name : Text} (many : 2 ≤ cs.length)
      (named : Language.symbolName? k = some name) (below : ∀ c ∈ cs, Writable c) :
      Writable (.node tag k cs)

mutual
def spelling : Tree α → List (Kind × Text)
  | .leaf _ l => [(Kind.string, l.value.quoted)]
  | .node _ k cs =>
    [(Kind.name, (Language.symbolName? k).getD []), (20, ['<'])] ++ (spellings cs ++ [(21, ['>'])])

def spellings : List (Tree α) → List (Kind × Text)
  | [] => []
  | t :: ts => spelling t ++ spellings ts
end

/-- The text of a node, as what follows one upon the other. -/
theorem patternText_node {tag : α} {cs : List (Tree α)} {name : Text}
    (named : Language.symbolName? k = some name) (rest : Text) :
    patternText (.node tag k cs) ++ rest =
      name ++ (['<'] ++ ([' '] ++ (Text.join [' '] (patternTexts cs) ++ ([' '] ++ (['>'] ++ rest))))) := by
  rw [patternText, named]
  simp

theorem blank_space : IsGap [' '] := forall_mem_singleton.2 rfl

theorem scansTo_children {cs : List (Tree α)}
    (each : ∀ c ∈ cs, ∀ {gap rest : Text}, IsGap gap → Apart rest →
      ScansTo (gap ++ (patternText c ++ rest)) (spelling c) rest) (nonempty : cs ≠ [])
    (apart : Apart rest) :
    ScansTo ([' '] ++ (Text.join [' '] (patternTexts cs) ++ rest)) (spellings cs) rest := by
  induction cs with
  | nil => exact absurd rfl nonempty
  | cons c cs ih =>
    obtain ⟨first, others⟩ := forall_mem_cons.1 each
    cases cs with
    | nil =>
      rw [spellings, spellings, append_nil]
      exact first blank_space apart
    | cons d cs =>
      have later := ih others (cons_ne_nil _ _)
      have text : Text.join [' '] (patternTexts (c :: d :: cs)) ++ rest =
          patternText c ++ ([' '] ++ (Text.join [' '] (patternTexts (d :: cs)) ++ rest)) := by
        simp [patternTexts, Text.join]
      rw [text]
      exact (first blank_space (.inr ⟨_, rfl⟩)).trans later

theorem scansTo_patternText {t : Tree α} (h : Writable t) :
    ∀ {gap rest : Text}, IsGap gap → Apart rest →
      ScansTo (gap ++ (patternText t ++ rest)) (spelling t) rest := by
  induction h with
  | @leaf _ l v value =>
    intro gap rest blank apart
    rw [patternText, spelling, value]
    exact scansTo_quoted blank v apart
  | @node _ k cs name many named below ih =>
    intro gap rest blank apart
    obtain ⟨plain, -, lexes⟩ := plainName_of_symbolName? named
    have nonempty : cs ≠ [] := ne_nil_of_length_pos (by omega)
    rw [patternText_node named, spelling, named]
    have word := fun more => scansTo_plain (lexes more blank) plain.string plain.still plain.mark
        (.inl ⟨plain.kind, rfl⟩)
    have opening := fun more => @scansTo_less _ [] nofun (.inr ⟨more, rfl⟩)
    have inside : ScansTo _ (spellings cs) ([' '] ++ (['>'] ++ rest)) :=
      scansTo_children ih nonempty (.inr ⟨_, rfl⟩)
    exact ((word _).trans (opening _)).trans (inside.trans (scansTo_greater blank_space apart))

end Command

/-! ## The whole text -/

namespace Text

theorem lines_eq_singleton {t : Text} (nonempty : t ≠ []) (plain : ∀ c ∈ t, isLineEnd c = false) :
    lines t = [t] := by
  induction t with
  | nil => exact absurd rfl nonempty
  | cons c cs ih =>
    obtain ⟨first, others⟩ := forall_mem_cons.1 plain
    have step : lines (c :: cs) = consLine c (lines cs) := by
      rw [lines, first, if_neg Bool.false_ne_true]
      rintro _ rfl _
      cases first
    cases cs with
    | nil => exact step
    | cons d cs =>
      rw [step, ih (cons_ne_nil _ _) others]
      rfl

theorem mem_join {sep : Text} {ts : List Text} {c : Char} (h : c ∈ join sep ts) :
    c ∈ sep ∨ ∃ t ∈ ts, c ∈ t := by
  fun_induction join sep ts with
  | case1 => cases h
  | case2 t => exact .inr ⟨t, mem_singleton_self _, h⟩
  | case3 t ts _ ih =>
    rw [append_assoc, mem_append, mem_append] at h
    rcases h with h | h | h
    · exact .inr ⟨t, mem_cons_self, h⟩
    · exact .inl h
    · exact (ih h).imp_right fun ⟨u, hu, hc⟩ => ⟨u, mem_cons_of_mem t hu, hc⟩

theorem length_join {sep : Text} (one : sep.length = 1) {ts : List Text} :
    ∀ t ∈ ts, t.length + ts.length ≤ (join sep ts).length + 1 := by
  fun_induction join sep ts with
  | case1 => nofun
  | case2 t => simp
  | case3 t ts nonempty ih =>
    obtain ⟨u, hu⟩ := exists_mem_of_ne_nil ts nonempty
    have later := ih u hu
    intro x hx
    rw [length_append, length_append, length_cons]
    rcases mem_cons.1 hx with rfl | hx
    · omega
    · have := ih x hx
      omega

end Text

namespace Command

open Lexeme (headIs isNameStart isQuote forall_mem_of_all)
open Pattern.Language (tokens tokenLabel scanned isLayout)

variable {α : Type}

theorem patternTexts_eq_map (cs : List (Tree α)) : patternTexts cs = cs.map patternText := by
  induction cs with
  | nil => rfl
  | cons c cs ih => rw [patternTexts, ih, map_cons]

variable {t : Tree α}

theorem isPrintable_patternText (h : Writable t) : ∀ c ∈ patternText t, Text.isPrintable c = true := by
  have marks : ∀ c ∈ ['<', ' ', '>'], Text.isPrintable c = true :=
    forall_mem_of_all (by decide)
  induction h with
  | leaf value =>
    rw [patternText, value]
    exact Text.isPrintable_of_mem_quoted _
  | @node _ k cs name _ named _ ih =>
    intro c hc
    rw [← append_nil (patternText _), patternText_node named] at hc
    simp only [mem_append, mem_singleton, not_mem_nil, or_false] at hc
    rcases hc with hc | rfl | rfl | hc | rfl | rfl
    · exact all_eq_true.1 (plainName_of_symbolName? named).1.printable c hc
    · exact marks _ (by decide)
    · exact marks _ (by decide)
    · rcases Text.mem_join hc with hc | ⟨x, hx, hc⟩
      · exact marks c (by rw [mem_singleton.1 hc]; decide)
      · rw [patternTexts_eq_map] at hx
        obtain ⟨d, hd, rfl⟩ := mem_map.1 hx
        exact ih d hd c hc
    · exact marks _ (by decide)
    · exact marks _ (by decide)

theorem head_patternText (h : Writable t) :
    ∃ c cs, patternText t = c :: cs ∧ (isQuote c = true ∨ isNameStart c = true) := by
  cases h with
  | @leaf _ l v value =>
    rw [patternText, value]
    exact ⟨_, _, rfl, .inl (Text.isQuote_quoteFor v)⟩
  | @node _ k cs name _ named =>
    have start := (plainName_of_symbolName? named).1.start
    rw [← append_nil (patternText _), patternText_node named]
    cases name with
    | nil => cases start
    | cons c name => exact ⟨c, _, rfl, .inr start⟩

theorem scanLine_start {c : Char} {cs : Text} (start : isQuote c = true ∨ isNameStart c = true) :
    Scan.scanLine {} (c :: cs) = ((Scan.scanFrom (c :: cs) { row := 1 } 0 (c :: cs)).1,
      .next (Scan.scanFrom (c :: cs) { row := 1 } 0 (c :: cs)).2) := by
  have others : ∀ d ∈ [' ', '\t', '\x0c', '#', '\r', '\n'], c ≠ d := by
    rintro d hd rfl
    have none : ∀ d ∈ [' ', '\t', '\x0c', '#', '\r', '\n'], isQuote d = false ∧ isNameStart d = false :=
      forall_mem_of_all (by decide)
    rw [(none c hd).1, (none c hd).2] at start
    rcases start with start | start <;> cases start
  have blanks : Scan.leadingBlanks 0 0 (c :: cs) = (0, 0) := by
    simp [Scan.leadingBlanks, others]
  have begins : Scan.isBlankRest (c :: cs) = false := by
    simp [Scan.isBlankRest, headIs, others]
  unfold Scan.scanLine
  simp only [blanks, drop_zero, begins]
  rfl

def lastToken : Token := ⟨Kind.endMarker, [], ⟨2, 0⟩, ⟨2, 0⟩, []⟩

theorem scan_patternText (h : Writable t) : ∃ ts, Forall₂ Shows ts (spelling t) ∧
    scan (Text.lines (patternText t)) = ⟨ts ++ [lastToken], none⟩ := by
  have printable := isPrintable_patternText h
  have scansTo := @scansTo_patternText _ _ h [] [] nofun (.inl rfl)
  obtain ⟨c, cs, eq, start⟩ := head_patternText h
  rw [nil_append, append_nil] at scansTo
  rw [eq] at scansTo printable ⊢
  obtain ⟨ts, _, shows', scanned⟩ := scansTo (c :: cs) { row := 1 } 0 rfl
  rw [Scan.scanFrom, append_nil] at scanned
  have lines := Text.lines_eq_singleton (cons_ne_nil c cs) fun d hd =>
    Text.isLineEnd_of_isPrintable (printable d hd)
  refine ⟨ts, shows', ?_⟩
  rw [lines, scan, Scan.scanFromState, scanLine_start start, scanned]
  rfl

theorem Shows.kept {t : Token} {w : Kind × Text} (h : Shows t w) :
    isLayout t = false ∧ Source.isTrivia t = false := by
  rcases h.solid with kind | kind | kind <;> rw [isLayout, Source.isTrivia, kind] <;> exact ⟨rfl, rfl⟩

theorem tokens_patternText (h : Writable t) : ∃ ts, Forall₂ Shows ts (spelling t) ∧
    (scanned (patternText t)).failure = none ∧ tokens (patternText t) = ts ++ [lastToken] := by
  obtain ⟨ts, shows', eq⟩ := scan_patternText h
  have kept : ∀ u ∈ ts, isLayout u = false ∧ Source.isTrivia u = false := by
    intro u hu
    obtain ⟨w, -, shown⟩ := Grammar.exists_of_forall₂_left shows' hu
    exact shown.kept
  refine ⟨ts, shows', ?_, ?_⟩
  · rw [scanned, eq]
  · rw [tokens, scanned, eq, Source.parsed, filter_filter]
    refine filter_eq_self.2 fun u hu => ?_
    rcases mem_append.1 hu with hu | hu
    · obtain ⟨layout, trivia⟩ := kept u hu
      rw [layout, trivia]
      rfl
    · rw [mem_singleton.1 hu]
      rfl

end Command

/-! ## The text is parsed -/

namespace Grammar

variable {rules : List Rule}

theorem Expands.append {w v w' v' : List Label} (h : Expands rules w v) (h' : Expands rules w' v') :
    Expands rules (w ++ w') (v ++ v') := by
  induction h with
  | nil => exact h'
  | terminal terminal _ ih => exact .terminal terminal ih
  | rule mem word inside _ _ ih =>
    rw [append_assoc]
    exact .rule mem word inside ih

theorem Expands.of_rule {i : Nat} {name : Label} {rhs : Ebnf} {w v : List Label}
    (rule : rules[i]? = some ⟨name, rhs⟩) (word : w ∈ rhs.language) (inside : Expands rules w v) :
    Expands rules [name] v := by
  have alone := Expands.rule (mem_of_getElem? rule) word inside .nil
  rwa [append_nil] at alone

end Grammar

namespace Command

open Grammar
open Pattern (languageRules)
open Pattern.Language (tokens tokenLabel scanned LabelsToken labelsToken labels_name labels_string)

variable {α : Type}

theorem expands_token {l : Label} {k : Kind} (h : LabelsToken l k) : Expands languageRules [l] [l] :=
  .terminal h.1 .nil

def wordLabel (w : Kind × Text) : Label := Pattern.Language.label ⟨w.1, w.2, [], ⟨0, 0⟩⟩

theorem map_eq_map_of_forall₂ {β γ δ : Type} {R : β → γ → Prop} {as : List β} {bs : List γ} {f : β → δ}
    {f' : γ → δ} (h : Forall₂ R as bs) (same : ∀ a b, R a b → f a = f' b) :
    as.map f = bs.map f' := by
  induction h with
  | nil => rfl
  | cons first _ ih => rw [map_cons, map_cons, same _ _ first, ih]

theorem Shows.label {t : Token} {w : Kind × Text} (h : Shows t w) : tokenLabel t = wordLabel w := by
  rw [tokenLabel, h.kind, wordLabel, ← h.text]
  rfl

theorem wordLabel_string (v : Text) : wordLabel (Kind.string, v) = "STRING" := by
  have label : Pattern.Language.kindLabel Kind.string = "STRING" := by decide
  rw [wordLabel, Pattern.Language.label, if_neg (by simp [Kind.string, Kind.name]), label]

theorem wordLabel_name {name : Text} (h : name ≠ "not".toList) :
    wordLabel (Kind.name, name) = "NAME" := by
  have label : Pattern.Language.kindLabel .name = "NAME" := by decide
  rw [wordLabel, Pattern.Language.label, if_neg fun word => h word.2, label]

variable {vs : List (List Label)}

theorem expands_replicate {l : Label}
    (h : ∀ v ∈ vs, Expands languageRules [l] v) :
    Expands languageRules (replicate vs.length l) vs.flatten := by
  induction vs with
  | nil => exact .nil
  | cons v vs ih =>
    obtain ⟨first, others⟩ := forall_mem_cons.1 h
    exact first.append (ih others)

theorem spellings_eq (cs : List (Tree α)) : spellings cs = (cs.map spelling).flatten := by
  induction cs with
  | nil => rfl
  | cons c cs ih => rw [spellings, ih, map_cons, flatten_cons]

theorem expands_alternatives (nonempty : vs ≠ [])
    (h : ∀ v ∈ vs, Expands languageRules ["Unit".toList] v) :
    Expands languageRules ["Alternatives".toList] vs.flatten := by
  obtain ⟨n, length⟩ := Nat.exists_eq_succ_of_ne_zero (length_pos_iff.2 nonempty).ne'
  have units := expands_replicate h
  rw [length] at units
  have word : replicate n "Unit".toList ∈
      KStar.kstar (Ebnf.alternatives [.label "Unit", .label "NegatedUnit"]).language := by
    refine Language.mem_kstar.2 ⟨replicate n ["Unit".toList], by simp, fun y hy => ?_⟩
    rw [eq_of_mem_replicate hy]
    exact .inl rfl
  have alternative : Expands languageRules ["Alternative".toList] vs.flatten :=
    @Expands.of_rule _ 2 _ _ _ _ rfl ⟨["Unit"], .inl rfl, _, word, rfl⟩ units
  exact @Expands.of_rule _ 1 _ _ _ _ rfl ⟨["Alternative"], rfl, [], Language.nil_mem_kstar _, rfl⟩
    alternative

theorem expands_spelling {t : Tree α} (h : Writable t) :
    Expands languageRules ["Unit".toList] ((spelling t).map wordLabel) := by
  induction h with
  | leaf =>
    rw [spelling, map_singleton, wordLabel_string]
    exact @Expands.of_rule _ 3 _ _ _ _ rfl
      ⟨[], .inl rfl, _, .inl ⟨["STRING"], rfl, [], .inl rfl, rfl⟩, rfl⟩ (expands_token labels_string)
  | @node tag k cs name many named _ ih =>
    have nonempty : cs ≠ [] := by
      rintro rfl
      cases many
    have inside : Expands languageRules ["Alternatives".toList] ((spellings cs).map wordLabel) := by
      rw [spellings_eq, map_flatten]
      refine expands_alternatives (by simpa using nonempty) fun v hv => ?_
      rw [map_map] at hv
      obtain ⟨c, hc, rfl⟩ := mem_map.1 hv
      exact ih c hc
    have details : Expands languageRules ["Details".toList]
        (["'<'".toList] ++ ((spellings cs).map wordLabel ++ ["'>'".toList])) :=
      @Expands.of_rule _ 6 _ _ _ _ rfl ⟨_, ⟨_, rfl, _, rfl, rfl⟩, _, rfl, rfl⟩
        ((expands_token (labelsToken 8 rfl)).append
          (inside.append (expands_token (labelsToken 9 rfl))))
    have labels : (spelling (.node tag k cs)).map wordLabel = ["NAME".toList] ++
        (["'<'".toList] ++ ((spellings cs).map wordLabel ++ ["'>'".toList])) := by
      rw [spelling, named, Option.getD_some, map_append, map_append, map_cons,
        wordLabel_name (plainName_of_symbolName? named).1.other.1]
      rfl
    rw [labels]
    exact @Expands.of_rule _ 3 _ _ _ _ rfl
      ⟨[], .inl rfl, _, .inr (.inl ⟨_, ⟨["NAME"], rfl, _, .inr rfl, rfl⟩, [], .inl rfl, rfl⟩), rfl⟩
      ((expands_token labels_name).append details)

theorem exists_parse {t : Tree α} (h : Writable t) :
    ∃ tree, Pattern.Language.parse (patternText t) = .ok tree := by
  obtain ⟨ts, shows', failure, tokens⟩ := tokens_patternText h
  refine (Pattern.Language.made_languageGrammar.parseBy_exact _).1.2 ⟨failure, ?_⟩
  have labels : ts.map tokenLabel = (spelling t).map wordLabel := by
    exact map_eq_map_of_forall₂ shows' fun _ _ shown => shown.label
  have alone := @expands_alternatives [(spelling t).map wordLabel] (cons_ne_nil _ _) fun v hv => by
    rw [mem_singleton.1 hv]
    exact expands_spelling h
  rw [tokens, map_append, labels]
  refine ⟨_, mem_of_getElem? (@rfl _ languageRules[0]?), rfl, _, ⟨_, rfl, _, rfl, rfl⟩, ?_⟩
  rw [flatten_singleton] at alone
  exact alone.append (expands_token (labelsToken 3 rfl))

end Command

end Retouch
