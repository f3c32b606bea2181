import Retouch.Proofs.LexemeStops
import Retouch.Text.Lines
import Retouch.Text.Literal

/-!
# Quoted texts as literals

A quoted text is a string literal.  Its value is the text in which every character that is neither
printable nor numbered below 256 is replaced by its escape (`Literal.value_quoted`), as literals have no
escapes for such characters.  So the value is the text exactly if there is no such character
(`Literal.value_quoted_self_iff`).

A quoted text is a single lexeme wherever no quote comes after it (`Lexeme.lexes_quoted`), and all its
characters are printable, so that it ends no line (`isPrintable_of_mem_quoted`).
-/

namespace Retouch.Text

open List

open Lexeme (isQuote forall_mem_of_all)

/-! ## Escapes -/

def escapeDigits : List Char :=
  ['0', '1', '2', '3', '4', '5', '6', '7', '8', '9', 'a', 'b', 'c', 'd', 'e', 'f']

theorem mem_toDigits (n : Nat) : ∀ c ∈ Nat.toDigits 16 n, c ∈ escapeDigits := by
  have digit : ∀ d < 16, d.digitChar ∈ escapeDigits := by decide
  induction n using Nat.strongRecOn with
  | _ n ih =>
    intro c hc
    rw [Nat.toDigits_eq_if (by decide)] at hc
    split at hc
    · rename_i small
      rw [mem_singleton.1 hc]
      exact digit n small
    · rcases mem_append.1 hc with hc | hc
      · exact ih (n / 16) (by omega) c hc
      · rw [mem_singleton.1 hc]
        exact digit (n % 16) (Nat.mod_lt n (by decide))

theorem mem_hex {width n : Nat} : ∀ c ∈ hex width n, c ∈ escapeDigits := by
  intro c hc
  rcases mem_append.1 hc with hc | hc
  · rw [eq_of_mem_replicate hc]
    decide
  · exact mem_toDigits n c hc

theorem escapeDigits_plain : ∀ c ∈ escapeDigits, isPrintable c = true ∧ c ≠ '\\' ∧ isQuote c = false :=
  forall_mem_of_all (by decide)

/-- The escape of a character that is not printable and not numbered below 256. -/
def wideEscape (c : Char) : Text :=
  if c.toNat < 65536 then '\\' :: 'u' :: hex 4 c.toNat else '\\' :: 'U' :: hex 8 c.toNat

theorem wideEscape_eq (c : Char) :
    ∃ d ds, wideEscape c = '\\' :: d :: ds ∧ (d = 'u' ∨ d = 'U') ∧ ∀ e ∈ ds, e ∈ escapeDigits := by
  unfold wideEscape
  split
  · exact ⟨'u', _, rfl, .inl rfl, mem_hex⟩
  · exact ⟨'U', _, rfl, .inr rfl, mem_hex⟩

/-- How a character is written between quotes. -/
inductive Escaped (q : Char) : Char → Text → Prop
  | plain {c : Char} (printable : isPrintable c = true) (quote : c ≠ q) (backslash : c ≠ '\\') :
      Escaped q c [c]
  | simple {c d : Char} (escape : Literal.simpleEscape? d = some c) (narrow : c.toNat < 256)
      (printable : isPrintable d = true) : Escaped q c ['\\', d]
  | narrow {c : Char} (narrow : c.toNat < 256) : Escaped q c ('\\' :: 'x' :: hex 2 c.toNat)
  | wide {c : Char} (unprintable : isPrintable c = false) (wide : ¬ c.toNat < 256) :
      Escaped q c (wideEscape c)

variable {q c : Char}

theorem isQuote_iff : isQuote q = true ↔ q = '\'' ∨ q = '"' := by
  rw [isQuote, Bool.or_eq_true, beq_iff_eq, beq_iff_eq]

theorem escaped_escapeChar (quote : isQuote q = true) (c : Char) : Escaped q c (escapeChar q c) := by
  unfold escapeChar
  split
  · rename_i special
    have cases : c = '\'' ∨ c = '"' ∨ c = '\\' := by
      rw [Bool.or_eq_true, decide_eq_true_iff, decide_eq_true_iff] at special
      rcases special with rfl | rfl
      · rcases isQuote_iff.1 quote with rfl | rfl <;> simp
      · simp
    rcases cases with rfl | rfl | rfl <;> exact .simple rfl (by decide) (by decide)
  · rename_i special
    rw [Bool.or_eq_true, decide_eq_true_iff, decide_eq_true_iff, not_or] at special
    rw [← wideEscape]
    split_ifs with newline back tab printable narrow
    · exact newline ▸ .simple rfl (by decide) (by decide)
    · exact back ▸ .simple rfl (by decide) (by decide)
    · exact tab ▸ .simple rfl (by decide) (by decide)
    · exact .plain printable special.1 special.2
    · exact .narrow narrow
    · exact .wide (Bool.eq_false_iff.2 printable) narrow

theorem isQuote_quoteFor (t : Text) : isQuote (quoteFor t) = true := by
  unfold quoteFor
  split <;> rfl

theorem Escaped.head {x : Text} (h : Escaped q c x) (quote : isQuote q = true) :
    ∃ d ds, x = d :: ds ∧ d ≠ q := by
  have backslash : '\\' ≠ q := by
    rintro rfl
    cases quote
  cases h with
  | plain _ other => exact ⟨c, [], rfl, other⟩
  | simple | narrow => exact ⟨_, _, rfl, backslash⟩
  | wide =>
    obtain ⟨d, ds, eq, -⟩ := wideEscape_eq c
    exact ⟨_, _, eq, backslash⟩

theorem Escaped.printable {x : Text} (h : Escaped q c x) : ∀ d ∈ x, isPrintable d = true := by
  have marks : ∀ d ∈ ['\\', 'x', 'u', 'U'], isPrintable d = true :=
    forall_mem_of_all (by decide)
  have digits := fun d hd => (escapeDigits_plain d hd).1
  cases h with
  | plain printable => exact forall_mem_singleton.2 printable
  | simple _ _ printable => simpa using ⟨marks '\\' (by decide), printable⟩
  | narrow =>
    refine forall_mem_cons.2 ⟨marks _ (by decide), forall_mem_cons.2 ⟨marks _ (by decide), ?_⟩⟩
    exact fun d hd => digits d (mem_hex d hd)
  | wide =>
    obtain ⟨d, ds, eq, letter, all⟩ := wideEscape_eq c
    rw [eq]
    refine forall_mem_cons.2 ⟨marks _ (by decide), forall_mem_cons.2 ⟨marks _ ?_, ?_⟩⟩
    · rcases letter with rfl | rfl <;> decide
    · exact fun d hd => digits d (all d hd)

theorem isLineEnd_of_isPrintable (h : isPrintable c = true) : isLineEnd c = false := by
  have ends : ∀ c ∈ ['\n', '\r', '\x0b', '\x0c', '\x1c', '\x1d', '\x1e', '\x85', '\u2028', '\u2029'],
      isPrintable c = false := forall_mem_of_all (by decide +kernel)
  by_contra lineEnd
  have mem : c ∈ ['\n', '\r', '\x0b', '\x0c', '\x1c', '\x1d', '\x1e', '\x85', '\u2028', '\u2029'] := by
    rw [Bool.not_eq_false] at lineEnd
    simpa [isLineEnd, or_assoc] using lineEnd
  rw [ends c mem] at h
  cases h

/-- A quoted text has printable characters only. -/
theorem isPrintable_of_mem_quoted (t : Text) : ∀ c ∈ quoted t, isPrintable c = true := by
  have quotes : isPrintable (quoteFor t) = true := by
    rcases isQuote_iff.1 (isQuote_quoteFor t) with eq | eq <;> rw [eq] <;> decide
  intro c hc
  unfold quoted at hc
  simp only [cons_append, mem_cons, mem_append, mem_flatMap, not_mem_nil, or_false] at hc
  rcases hc with rfl | ⟨d, -, hc⟩ | rfl
  · exact quotes
  · exact (escaped_escapeChar (isQuote_quoteFor t) d).printable c hc
  · exact quotes

/-! ## Values of quoted texts -/

def isReread (c : Char) : Bool := isPrintable c || c.toNat < 256

def reread (c : Char) : Text := if isReread c then [c] else wideEscape c

theorem reread_length_pos (c : Char) : 0 < (reread c).length := by
  unfold reread
  split
  · exact Nat.one_pos
  · obtain ⟨d, ds, eq, -⟩ := wideEscape_eq c
    rw [eq]
    exact Nat.succ_pos _

theorem length_le_flatMap_reread (t : Text) : t.length ≤ (t.flatMap reread).length := by
  induction t with
  | nil => exact le_refl 0
  | cons c t ih =>
    have pos := reread_length_pos c
    rw [flatMap_cons, length_append, length_cons]
    omega

theorem flatMap_reread_eq_nil_iff {t : Text} : t.flatMap reread = [] ↔ t = [] := by
  constructor
  · intro none
    have size := length_le_flatMap_reread t
    rw [none] at size
    exact length_eq_zero_iff.1 (Nat.le_zero.1 size)
  · rintro rfl
    rfl

/-- A text is the value of its quoted form exactly if each of its characters is. -/
theorem flatMap_reread_eq_iff {t : Text} : t.flatMap reread = t ↔ ∀ c ∈ t, isReread c = true := by
  induction t with
  | nil => exact iff_of_true rfl nofun
  | cons c t ih =>
    rw [flatMap_cons, forall_mem_cons, ← ih, reread]
    cases narrow : isReread c with
    | true => simp
    | false =>
      -- the escape is longer than the character
      obtain ⟨d, ds, eq, -⟩ := wideEscape_eq c
      simp only [Bool.false_eq_true, if_false, false_and, iff_false]
      intro same
      have size := congrArg length same
      have later := length_le_flatMap_reread t
      rw [eq, length_append] at size
      simp only [length_cons] at size
      omega

namespace Literal

theorem hexPair?_hex : ∀ n < 256, (match hex 2 n with
    | [a, b] => a != '\n' && b != '\n' && hexPair? a b == some (.ofNat n)
    | _ => false) = true := by
  decide +kernel

theorem unescape_backslash (d : Char) (cs : Text) : unescape 0 ('\\' :: d :: cs) =
    match simpleEscape? d with
    | some v => (unescape 0 cs).map (v :: ·)
    | none =>
      if d = 'x' then
        match (cs.take 2).takeWhile (· != '\n') with
        | [a, b] =>
          match hexPair? a b with
          | some (.ofNat n) => (unescape 2 cs).map (Char.ofNat n :: ·)
          | some (.negSucc _) => .error .negative
          | none => .error (.hexEscape ['x', a, b])
        | short => .error (.hexEscape ('x' :: short))
      else
        match octalDigits (d :: cs) with
        | [] => (unescape 0 (d :: cs)).map ('\\' :: ·)
        | ds => (unescape ds.length (d :: cs)).map (Char.ofNat (octalValue ds) :: ·) := rfl

variable {c : Char}

theorem unescape_of_ne (other : c ≠ '\\') (cs : Text) :
    unescape 0 (c :: cs) = (unescape 0 cs).map (c :: ·) := by
  rw [unescape, if_neg other]
  rfl

theorem unescape_plain {ds : Text} (plain : ∀ c ∈ ds, c ≠ '\\') (rest : Text) :
    unescape 0 (ds ++ rest) = (unescape 0 rest).map (ds ++ ·) := by
  induction ds with
  | nil =>
    rw [nil_append]
    cases unescape 0 rest <;> rfl
  | cons c ds ih =>
    obtain ⟨first, others⟩ := forall_mem_cons.1 plain
    rw [cons_append, unescape_of_ne first, ih others]
    cases unescape 0 rest <;> rfl

theorem unescape_wide (c : Char) (rest : Text) :
    unescape 0 (wideEscape c ++ rest) = (unescape 0 rest).map (wideEscape c ++ ·) := by
  obtain ⟨d, ds, eq, letter, digits⟩ := wideEscape_eq c
  have plain : ∀ e ∈ d :: ds, e ≠ '\\' := by
    refine forall_mem_cons.2 ⟨?_, fun e he => (escapeDigits_plain e (digits e he)).2.1⟩
    rcases letter with rfl | rfl <;> decide
  have step : unescape 0 ('\\' :: d :: (ds ++ rest)) =
      (unescape 0 (d :: ds ++ rest)).map ('\\' :: ·) := by
    rcases letter with rfl | rfl <;> exact unescape_backslash _ _
  rw [eq, cons_append, cons_append, step, unescape_plain plain]
  cases unescape 0 rest <;> rfl

theorem unescape_narrow (narrow : c.toNat < 256) (rest : Text) :
    unescape 0 ('\\' :: 'x' :: hex 2 c.toNat ++ rest) = (unescape 0 rest).map (c :: ·) := by
  have digits := hexPair?_hex c.toNat narrow
  split at digits
  · rename_i a b eq
    rw [Bool.and_eq_true, Bool.and_eq_true, beq_iff_eq] at digits
    obtain ⟨⟨first, second⟩, pair⟩ := digits
    rw [eq, cons_append, cons_append, unescape_backslash]
    simp only [cons_append, if_true, take_succ_cons,
      take_zero, takeWhile_cons, takeWhile_nil, first, second, pair, Char.ofNat_toNat]
    rfl
  · cases digits

theorem unescape_escaped {q : Char} {x : Text} (h : Escaped q c x) (rest : Text) :
    unescape 0 (x ++ rest) = (unescape 0 rest).map (reread c ++ ·) := by
  cases h with
  | plain printable _ backslash =>
    rw [reread, isReread, printable]
    exact unescape_plain (forall_mem_singleton.2 backslash) rest
  | simple escape narrow =>
    rw [reread, isReread, decide_eq_true narrow, Bool.or_true, cons_append,
      cons_append, unescape_backslash, escape]
    rfl
  | narrow narrow =>
    rw [reread, isReread, decide_eq_true narrow, Bool.or_true]
    exact unescape_narrow narrow rest
  | wide unprintable wide =>
    rw [reread, isReread, unprintable, decide_eq_false wide]
    exact unescape_wide c rest

theorem unescape_flatMap {q : Char} (quote : isQuote q = true) (t : Text) :
    unescape 0 (t.flatMap (escapeChar q)) = .ok (t.flatMap reread) := by
  induction t with
  | nil => rfl
  | cons c t ih =>
    rw [flatMap_cons, unescape_escaped (escaped_escapeChar quote c), ih]
    rfl

theorem opening?_quoted (t : Text) : opening? (quoted t) = some [quoteFor t] := by
  have quote := isQuote_quoteFor t
  have single : startsWith [quoteFor t, quoteFor t]
      (t.flatMap (escapeChar (quoteFor t)) ++ [quoteFor t]) = false := by
    cases t with
    | nil => rfl
    | cons c t =>
      obtain ⟨d, ds, eq, other⟩ := (escaped_escapeChar quote c).head quote
      rw [flatMap_cons, eq, startsWith, append_assoc, cons_append, isPrefixOf,
        beq_false_of_ne (symm other), Bool.false_and]
  rw [quoted, cons_append, opening?, if_pos (isQuote_iff.1 quote), single,
    if_neg Bool.false_ne_true]

/-- **The value of a quoted text** is the text, but for the characters that have no escape in
literals. -/
theorem value_quoted (t : Text) : value (quoted t) = .ok (t.flatMap reread) := by
  have last : endsWith [quoteFor t] (quoted t) = true := by
    rw [endsWith, isSuffixOf_iff_suffix]
    exact suffix_append _ _
  have size : (quoted t).length = (t.flatMap (escapeChar (quoteFor t))).length + 2 := by
    simp [quoted]
  have inside : ((quoted t).drop 1).take ((quoted t).length - 2) =
      t.flatMap (escapeChar (quoteFor t)) := by
    rw [size, Nat.add_sub_cancel, quoted, cons_append, drop_succ_cons, drop_zero, take_left]
  rw [value, opening?_quoted]
  simp only [last, length_singleton, inside]
  rw [if_neg (by simp [size]), unescape_flatMap (isQuote_quoteFor t)]

/-- **A text is the value of its quoted form** exactly if every character of it is printable or numbered
below 256. -/
theorem value_quoted_self_iff (s : Text) :
    value (quoted s) = .ok s ↔ ∀ c ∈ s, isPrintable c = true ∨ c.toNat < 256 := by
  rw [value_quoted, Except.ok.injEq, flatMap_reread_eq_iff]
  simp only [isReread, Bool.or_eq_true, decide_eq_true_iff]

end Literal

end Retouch.Text

/-! ## Quoted texts as lexemes -/

namespace Retouch.Lexeme

open List Retouch.Text

variable {q : Char}

theorem stringRest?_plain {ds : Text} (plain : ∀ c ∈ ds, c ≠ q ∧ c ≠ '\n' ∧ c ≠ '\\') (escaped : Bool)
    (rest : Text) : ∃ escaped',
    stringRest? q escaped (ds ++ rest) = (stringRest? q escaped' rest).map (· + ds.length) := by
  induction ds generalizing escaped with
  | nil =>
    refine ⟨escaped, ?_⟩
    rw [nil_append]
    cases stringRest? q escaped rest <;> rfl
  | cons c ds ih =>
    obtain ⟨⟨quote, newline, backslash⟩, others⟩ := forall_mem_cons.1 plain
    obtain ⟨escaped', step⟩ := ih others false
    refine ⟨escaped', ?_⟩
    rw [cons_append, stringRest?.eq_def]
    simp only [quote, newline, backslash]
    rw [step, Option.map_map]
    rfl

theorem stringRest?_escaped {c : Char} {x : Text} (h : Escaped q c x) (quote : isQuote q = true)
    (escaped : Bool) (rest : Text) : ∃ escaped',
    stringRest? q escaped (x ++ rest) = (stringRest? q escaped' rest).map (· + x.length) := by
  have newline : ∀ {d : Char}, isPrintable d = true → d ≠ '\n' := by
    rintro d printable rfl
    cases printable
  have special : ('\\' : Char) ≠ q ∧ ('\\' : Char) ≠ '\n' := by
    refine ⟨?_, by decide⟩
    rintro rfl
    cases quote
  -- a backslash and the character after it
  have pair : ∀ d ds, isPrintable d = true → stringRest? q escaped ('\\' :: d :: ds) =
      (stringRest? q (d == '\r') ds).map (· + 2) := by
    intro d ds printable
    rw [stringRest?.eq_def]
    simp [special, newline printable]
  have digits : ∀ ds : Text, (∀ e ∈ ds, e ∈ escapeDigits) → ∀ e ∈ ds, e ≠ q ∧ e ≠ '\n' ∧ e ≠ '\\' := by
    intro ds all e he
    obtain ⟨printable, backslash, other⟩ := escapeDigits_plain e (all e he)
    refine ⟨?_, newline printable, backslash⟩
    rintro rfl
    rw [quote] at other
    cases other
  have escape : ∀ d ds, isPrintable d = true → (∀ e ∈ ds, e ∈ escapeDigits) → ∃ escaped',
      stringRest? q escaped ('\\' :: d :: ds ++ rest) =
        (stringRest? q escaped' rest).map (· + ('\\' :: d :: ds).length) := by
    intro d ds printable all
    obtain ⟨escaped', step⟩ := stringRest?_plain (digits ds all) (d == '\r') rest
    refine ⟨escaped', ?_⟩
    rw [cons_append, cons_append, pair d _ printable, step, Option.map_map]
    rfl
  cases h with
  | plain printable other backslash =>
    exact stringRest?_plain (forall_mem_singleton.2 ⟨other, newline printable, backslash⟩) escaped rest
  | simple _ _ printable => exact escape _ [] printable (forall_mem_nil _)
  | narrow => exact escape 'x' _ (by decide) mem_hex
  | wide =>
    obtain ⟨d, ds, eq, letter, all⟩ := wideEscape_eq c
    rw [eq]
    refine escape d ds ?_ all
    rcases letter with rfl | rfl <;> decide

theorem stringRest?_quoted (quote : isQuote q = true) (t : Text) (escaped : Bool) (rest : Text) :
    stringRest? q escaped (t.flatMap (escapeChar q) ++ q :: rest) =
      some ((t.flatMap (escapeChar q)).length + 1) := by
  induction t generalizing escaped with
  | nil =>
    rw [stringRest?.eq_def]
    simp
  | cons c t ih =>
    rw [flatMap_cons, append_assoc]
    obtain ⟨escaped', step⟩ := stringRest?_escaped (escaped_escapeChar quote c) quote escaped
      (t.flatMap (escapeChar q) ++ q :: rest)
    rw [step, ih escaped', length_append, Option.map_some]
    congr 1
    omega

theorem stringLetters_quote (quote : isQuote q = true) (cs : Text) : stringLetters (q :: cs) = 0 := by
  rcases isQuote_iff.1 quote with rfl | rfl <;> rfl

theorem tripleOpening?_quoted (t : Text) {rest : Text} (stop : headIs isQuote rest = false) :
    tripleOpening? (quoted t ++ rest) = none := by
  have quote := isQuote_quoteFor t
  refine Option.eq_none_iff_forall_ne_some.2 fun n triple => ?_
  obtain ⟨q, more, opening, -, -⟩ := tripleOpening?_eq_some.1 triple
  simp only [quoted, cons_append, stringLetters_quote quote] at opening
  injection opening with first later
  cases t with
  | nil =>
    injection later with _ later
    have later : rest = q :: more := later
    rw [later, ← first] at stop
    rw [headIs, quote] at stop
    cases stop
  | cons d t =>
    obtain ⟨e, es, escape, other⟩ := (escaped_escapeChar quote d).head quote
    rw [flatMap_cons, escape] at later
    injection later with second _
    exact other (second.trans first.symm)

/-- A quoted text is a lexeme if no quote comes after it. -/
theorem lexes_quoted {gap : Text} (blank : IsGap gap) (t : Text) {rest : Text}
    (stop : headIs isQuote rest = false) : Lexes gap (quoted t) rest := by
  have quote := isQuote_quoteFor t
  refine ⟨blank, cons_ne_nil _ _, ?_⟩
  have string : string? (quoted t ++ rest) = some (quoted t).length := by
    unfold string? quoted?
    simp only [quoted, cons_append, stringLetters_quote quote, drop_zero, quote, if_true,
      append_assoc, nil_append, stringRest?_quoted quote t false rest]
    simp only [Option.map_some, length_cons, length_append, length_nil]
    congr 1
    omega
  have begins : headIs isQuote ((quoted t ++ rest).drop (stringLetters (quoted t ++ rest))) = true := by
    simp only [quoted, cons_append, stringLetters_quote quote]
    exact quote
  rw [size?_of_quote begins, tripleOpening?_quoted t stop, string]
  rfl

end Retouch.Lexeme

namespace Retouch.Scan

open List

theorem isString_quoted (t : Text) : isTripleOpening (Text.quoted t) = false ∧
    isString (Text.quoted t) = true ∧ (Text.quoted t).getLast? ≠ some '\n' := by
  have quote := Text.isQuote_quoteFor t
  refine ⟨?_, ?_, ?_⟩
  · have none := @Lexeme.tripleOpening?_quoted t [] rfl
    rw [append_nil] at none
    rw [isTripleOpening, none]
    rfl
  · rwa [isString, Text.quoted, cons_append, Lexeme.stringLetters_quote quote]
  · rw [Text.quoted, getLast?_concat]
    rcases Text.isQuote_iff.1 quote with eq | eq <;> rw [eq] <;> decide

end Retouch.Scan
