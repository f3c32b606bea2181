import Mathlib.Tactic.FinCases
import Retouch.Proofs.LexemeLocality

/-!
# What can stand right after a lexeme

Blanks, commas, colons and equal signs are stops: a lexeme does not go on over one, apart from strings
and comments, and from operators that an equal sign joins.  So whatever came after a lexeme before, it
is found again if a stop comes after it (`size?_stop`).
-/

namespace Retouch.Lexeme

open List

/-! ## Characters that end a lexeme -/

def isStop (c : Char) : Bool := c == ' ' || c == ',' || c == ':' || c == '='

variable {c : Char} {p : Char → Bool} {cs b w : Text} {n : Nat}

theorem isStop_iff : isStop c = true ↔ c = ' ' ∨ c = ',' ∨ c = ':' ∨ c = '=' := by
  simp [isStop, or_assoc]

theorem eq_false_of_stop (stop : isStop c = true)
    (none : p ' ' = false ∧ p ',' = false ∧ p ':' = false ∧ p '=' = false) : p c = false := by
  rcases isStop_iff.1 stop with rfl | rfl | rfl | rfl
  · exact none.1
  · exact none.2.1
  · exact none.2.2.1
  · exact none.2.2.2

theorem Takes.le_of_stop (h : Takes p (w ++ c :: b) n) (stop : isStop c = true)
    (none : p ' ' = false ∧ p ',' = false ∧ p ':' = false ∧ p '=' = false) : n ≤ w.length := by
  refine h.le_of_head (q := (· == c)) ?_ fun d hd => ?_
  · rw [drop_left]
    exact beq_self_eq_true c
  · rw [eq_of_beq hd]
    exact eq_false_of_stop stop none

def isNumberChar (c : Char) : Bool :=
  isFloatChar c || isHex c || isOctal c || ('1' ≤ c && c ≤ '9') ||
    "0xXoObBlLjJ".toList.contains c

theorem withLongMark_takes {k : Nat} (h : Takes p cs k) (long : ∀ c, isLongMark c = true → p c = true) :
    Takes p cs (withLongMark cs k) :=
  h.add ((takes_optional isLongMark _).mono long)

theorem imaginary?_takes (h : imaginary? cs = some n) : Takes isNumberChar cs n := by
  have imaginary : ∀ c, isImaginaryMark c = true → isNumberChar c = true :=
    forall_either (by decide) (by decide)
  have float : ∀ c, isFloatChar c = true → isNumberChar c = true := fun c hc => by
    simp [isNumberChar, hc]
  rcases orElse_eq_some h with h | ⟨-, h⟩
  · obtain ⟨-, k, found, rfl⟩ := afterDigits?_eq_some.1 h
    obtain ⟨mark, ⟨⟩⟩ := Option.ite_none_right_eq_some.1 found
    refine .add ((takes_span Text.isDecimal cs).mono ?_) ((takes_head mark).mono imaginary)
    exact fun c hc => float c (by simp [isFloatChar, hc])
  · obtain ⟨k, hk, mark, rfl⟩ := markedFloat?_eq_some.1 h
    exact ((float?_takes hk).mono float).add ((takes_head mark).mono imaginary)

theorem integer?_takes (h : integer? cs = some n) : Takes isNumberChar cs n := by
  have long : ∀ c, isLongMark c = true → isNumberChar c = true :=
    forall_either (by decide) (by decide)
  have zero : ∀ c : Char, (c == '0') = true → isNumberChar c = true := by
    intro c hc
    rw [eq_of_beq hc]
    decide
  rcases orElse_eq_some h with h | ⟨-, h⟩
  · obtain ⟨heads, ⟨⟩⟩ := Option.ite_none_right_eq_some.1 h
    obtain ⟨first, second⟩ := Bool.and_eq_true_iff.1 heads
    refine (((takes_head first).mono zero).add ((takes_head second).mono ?_)).add
      ((takes_span _ _).mono ?_)
    · exact forall_either (by decide) (by decide)
    · exact forall_either (by decide) (by decide)
  rcases orElse_eq_some h with h | ⟨-, h⟩
  · obtain ⟨heads, ⟨⟩⟩ := Option.ite_none_right_eq_some.1 h
    obtain ⟨first, second⟩ := Bool.and_eq_true_iff.1 heads
    refine withLongMark_takes ((((takes_head first).mono zero).add
      ((takes_head second).mono ?_)).add ((takes_span isHex _).mono ?_)) long
    · exact forall_either (by decide) (by decide)
    · exact fun c hc => by simp [isNumberChar, hc]
  rcases orElse_eq_some h with h | ⟨-, h⟩
  · obtain ⟨first, ⟨⟩⟩ := Option.ite_none_right_eq_some.1 h
    refine withLongMark_takes ((((takes_head first).mono zero).add
      ((takes_optional _ _).mono ?_)).add ((takes_span isOctal _).mono ?_)) long
    · exact forall_either (by decide) (by decide)
    · exact fun c hc => by simp [isNumberChar, hc]
  · obtain ⟨first, ⟨⟩⟩ := Option.ite_none_right_eq_some.1 h
    refine withLongMark_takes (((takes_head first).mono ?_).add
      ((takes_span Text.isDecimal _).mono ?_)) long
    · exact fun c hc => by rw [isNumberChar, hc]; simp
    · exact fun c hc => by simp [isNumberChar, isFloatChar, hc]

theorem number?_takes (h : number? cs = some n) : Takes isNumberChar cs n := by
  rcases orElse_eq_some h with h | ⟨_, h⟩
  · exact imaginary?_takes h
  · rcases orElse_eq_some h with h | ⟨_, h⟩
    · exact (float?_takes h).mono fun c hc => by simp [isNumberChar, hc]
    · exact integer?_takes h

theorem lineEnd?_takes (h : lineEnd? cs = some n) : Takes (fun c => c == '\r' || c == '\n') cs n := by
  unfold lineEnd? at h
  split at h <;> cases h
  all_goals
    intro c hc
    simp at hc
    simp [hc]

theorem continuation?_takes (h : continuation? cs = some n) :
    Takes (fun c => c == '\\' || c == '\r' || c == '\n') cs n := by
  obtain ⟨_, k, rfl, found, rfl⟩ := continuation?_eq_some.1 h
  intro c hc
  rw [take_succ_cons, mem_cons] at hc
  rcases hc with rfl | hc
  · rfl
  · have := lineEnd?_takes found c hc
    simp only [Bool.or_eq_true, or_assoc] at this ⊢
    exact .inr this

def isStringLetter (c : Char) : Bool := "uUbBrR".toList.contains c

theorem stringLetters_takes (cs : Text) : Takes isStringLetter cs (stringLetters cs) := by
  refine ((takes_optional _ cs).mono ?_).add ((takes_optional _ _).mono ?_)
  all_goals
    intro c hc
    simp only [Bool.or_eq_true, beq_iff_eq] at hc
  · rcases hc with ((rfl | rfl) | rfl) | rfl <;> decide
  · rcases hc with rfl | rfl <;> decide

theorem tripleOpening?_takes (h : tripleOpening? cs = some n) :
    Takes (fun c => isStringLetter c || isQuote c) cs n := by
  obtain ⟨q, _, opening, quote, rfl⟩ := tripleOpening?_eq_some.1 h
  refine ((stringLetters_takes cs).mono fun c hc => by simp [hc]).add ?_
  rw [opening]
  intro c hc
  simp at hc
  simp [hc, quote]

theorem name?_takes (h : name? cs = some n) : Takes (fun c => isNameStart c || Text.isWord c) cs n := by
  obtain ⟨start, ⟨⟩⟩ := Option.ite_none_right_eq_some.1 h
  exact ((takes_head start).mono fun c hc => by simp [hc]).add
    ((takes_span Text.isWord _).mono fun c hc => by simp [hc])

/-! ## A stop right after a lexeme -/

/-- An equals sign right after the operator would join it. -/
def joins : Text → Bool
  | [c] => isAssignable c
  | [c, d] => isDoubled c d
  | _ => false

def joiners : List Text :=
  [['+'], ['-'], ['*'], ['/'], ['%'], ['&'], ['|'], ['^'], ['='], ['<'], ['>'], ['*', '*'], ['<', '<'],
    ['>', '>'], ['/', '/']]

theorem mem_joiners (h : joins w = true) : w ∈ joiners := by
  match w, h with
  | [c], h => simpa [joins, isAssignable, joiners, or_assoc] using h
  | [c, d], h =>
    obtain ⟨same, h⟩ := Bool.and_eq_true_iff.1 h
    rw [eq_of_beq same] at h ⊢
    simpa [joiners, or_assoc] using h

theorem size?_of_joins (h : joins w = true) : size? w = some w.length := by
  have mem := mem_joiners h
  fin_cases mem <;> decide

theorem optional_le_one (p : Char → Bool) (cs : Text) : optional p cs ≤ 1 := by
  unfold optional
  split <;> omega

/-- An operator takes a stop only if that is an equals sign. -/
theorem operator?_stop (hw : 0 < w.length) (stop : isStop c = true)
    (h : operator? (w ++ c :: b) = some n) : n ≤ w.length ∨ c = '=' ∧ (joins w = true ∨ w = ['!']) := by
  have sign : c = '=' ∨ optional (· == '=') (c :: b) = 0 := by
    by_cases equals : c = '='
    · exact .inl equals
    · exact .inr (by simp [optional, headIs, equals])
  rcases orElse_eq_some h with h | ⟨-, h⟩
  · obtain ⟨pair, ⟨⟩⟩ := Option.ite_none_right_eq_some.1 h
    rcases w with _ | ⟨x, _ | ⟨y, _ | ⟨z, w⟩⟩⟩
    · cases hw
    · rcases isStop_iff.1 stop with rfl | rfl | rfl | rfl
      all_goals
        simp only [singleton_append, pairIs, isDoubled, Bool.and_eq_true, beq_iff_eq] at pair
        obtain ⟨rfl, doubled⟩ := pair
        cases doubled
    · rcases sign with equals | none
      · exact .inr ⟨equals, .inl pair⟩
      · exact .inl (le_of_eq (congrArg (2 + ·) none))
    · have := optional_le_one (· == '=') ((x :: y :: z :: w ++ c :: b).drop 2)
      exact .inl (by simp only [length_cons]; omega)
  rcases orElse_eq_some h with h | ⟨-, h⟩
  · obtain ⟨pair, ⟨⟩⟩ := Option.ite_none_right_eq_some.1 h
    rcases w with _ | ⟨x, _ | ⟨_, w⟩⟩
    · cases hw
    · rcases isStop_iff.1 stop with rfl | rfl | rfl | rfl
      all_goals simp [pairIs, isPaired] at pair
      exact .inr ⟨rfl, .inr (by rw [pair])⟩
    · exact .inl (by simp)
  rcases orElse_eq_some h with h | ⟨-, h⟩
  · obtain ⟨head, ⟨⟩⟩ := Option.ite_none_right_eq_some.1 h
    rcases w with _ | ⟨x, _ | ⟨y, w⟩⟩
    · cases hw
    · rcases sign with equals | none
      · exact .inr ⟨equals, .inl head⟩
      · exact .inl (le_of_eq (congrArg (1 + ·) none))
    · have := optional_le_one (· == '=') ((x :: y :: w ++ c :: b).drop 1)
      exact .inl (by simp only [length_cons]; omega)
  · obtain ⟨-, ⟨⟩⟩ := Option.ite_none_right_eq_some.1 h
    exact .inl hw

def isWordHead (c : Char) : Bool :=
  isPlainHead c && !(isMark c || c == '\\' || c == '\r' || c == '\n')

theorem size?_word (h : isWordHead c = true) (cs : Text) :
    size? (c :: cs) = (tripleOpening? (c :: cs) <|> string? (c :: cs) <|> name? (c :: cs)) := by
  simp only [isWordHead, Bool.and_eq_true, Bool.not_eq_true', Bool.or_eq_false_iff,
    beq_eq_false_iff_ne] at h
  obtain ⟨plain, ⟨⟨mark, backslash⟩, back⟩, newline⟩ := h
  obtain ⟨comment, number, operator⟩ := classes_of_plainHead plain cs
  have continuation : continuation? (c :: cs) = none := by
    unfold continuation?
    split
    · rename_i eq
      exact absurd (cons.inj eq).1 backslash
    · rfl
  have lineEnd : lineEnd? (c :: cs) = none := by
    unfold lineEnd?
    split
    · rename_i eq
      exact absurd (cons.inj eq).1 newline
    · rename_i eq
      exact absurd (cons.inj eq).1 back
    · rfl
  simp [size?, mark?, continuation, comment, number, operator, lineEnd, single?, headIs, mark]

theorem size?_of_quote (h : headIs isQuote (cs.drop (stringLetters cs)) = true) :
    size? cs = (tripleOpening? cs <|> string? cs <|> name? cs) := by
  cases cs with
  | nil => cases h
  | cons c cs =>
    have heads : ∀ c ∈ "uUbBrR'\"".toList, isWordHead c = true := forall_mem_of_all (by decide)
    refine size?_word (heads c ?_) cs
    by_cases none : stringLetters (c :: cs) = 0
    · rw [none] at h
      have h : isQuote c = true := h
      simp_all [isQuote]
    · have := stringLetters_takes (c :: cs) c (by
        obtain ⟨k, hk⟩ := Nat.exists_eq_succ_of_ne_zero none
        rw [hk]
        exact mem_cons_self)
      simp_all [isStringLetter]
      tauto

theorem string?_of_tripleOpening? (h : tripleOpening? cs = some (n + 1)) : string? cs = some n := by
  obtain ⟨q, rest, opening, quote, eq⟩ := tripleOpening?_eq_some.1 h
  refine quoted?_eq_some.2 ⟨q, q :: q :: rest, 1, opening, quote, ?_, by omega⟩
  unfold stringRest?
  rw [if_pos rfl]

/-- What begins with a quote, after letters, is a string that ends on the line. -/
def QuoteClosed (cs : Text) : Prop :=
  headIs isQuote (cs.drop (stringLetters cs)) = true → (string? cs).isSome = true

theorem string?_stop {a : Text} {m : Nat} (stop : isStop c = true) (found : size? (w ++ a) = some n)
    (le : n ≤ w.length) (closed : QuoteClosed (w ++ a)) (h : string? (w ++ c :: b) = some m) :
    m ≤ w.length := by
  obtain ⟨q, _, k, opening, quote, _, eq⟩ := quoted?_eq_some.1 h
  have letters_le : stringLetters (w ++ c :: b) ≤ w.length :=
    (stringLetters_takes _).le_of_stop stop (by decide)
  have inside : stringLetters (w ++ c :: b) < w.length := by
    rcases lt_or_eq_of_le letters_le with lt | same
    · exact lt
    · rw [same, drop_left] at opening
      cases opening
      rw [eq_false_of_stop (p := isQuote) stop (by decide)] at quote
      cases quote
  have letters := @stringLetters_append w (c :: b) (.inr inside)
  have letters' := @stringLetters_append w a (.inl (letters ▸ inside))
  have head : headIs isQuote ((w ++ a).drop (stringLetters (w ++ a))) = true := by
    rwa [letters', headIs_append_of_lt (letters ▸ inside), ← letters,
      ← headIs_append_of_lt (a := c :: b) inside, opening]
  obtain ⟨j, hj⟩ := Option.isSome_iff_exists.1 (closed head)
  have j_le : j ≤ w.length := by
    rw [size?_of_quote head, hj] at found
    rcases orElse_eq_some found with triple | ⟨_, string⟩
    · cases n with
      | zero => exact absurd (tripleOpening?_eq_some.1 triple) (by rintro ⟨_, _, _, _, eq⟩; omega)
      | succ n =>
        rw [string?_of_tripleOpening? triple] at hj
        cases hj
        omega
    · cases string
      exact le
  have := string?_exact.append (c :: b) ((string?_exact.local string?_le).cut hj j_le)
  rw [h] at this
  cases this
  exact j_le

/-- **A lexeme is found again if a stop comes right after what is known of the line.**  An equals sign
must not join an operator, what begins like a string has to be one, and a comment takes all. -/
theorem size?_stop {a : Text} (hw : 0 < w.length) (stop : isStop c = true)
    (found : size? (w ++ a) = some n) (le : n ≤ w.length) (plain : headIs (· == '#') w = false)
    (closed : QuoteClosed (w ++ a)) (apart : c = '=' → n = w.length → joins w = false) :
    size? (w ++ c :: b) = some n := by
  have alone := size?_local.cut found le
  obtain ⟨m, hm⟩ := size?_local.grow (c :: b) alone
  have m_le : m ≤ w.length := by
    refine orElse_le (fun m h => ?_) (orElse_le (fun m h => ?_) (orElse_le (fun m h => ?_)
      (orElse_le (fun m h => ?_) (orElse_le (orElse_le (fun m h => ?_) (orElse_le (fun m h => ?_)
        (fun m h => ?_))) (orElse_le (fun m h => ?_) (fun m h => ?_)))))) m hm
    · exact (continuation?_takes h).le_of_stop stop (by decide)
    · simp [comment?, headIs_append hw, plain] at h
    · exact (tripleOpening?_takes h).le_of_stop stop (by decide)
    · exact (number?_takes h).le_of_stop stop (by decide)
    · rcases operator?_stop hw stop h with le | ⟨rfl, joined | rfl⟩
      · exact le
      · have same := size?_of_joins joined
        rw [alone] at same
        rw [apart rfl (Option.some.inj same)] at joined
        cases joined
      · cases alone
    · exact (lineEnd?_takes h).le_of_stop stop (by decide)
    · obtain ⟨-, ⟨⟩⟩ := Option.ite_none_right_eq_some.1 h
      exact hw
    · exact string?_stop stop found le closed h
    · exact (name?_takes h).le_of_stop stop (by decide)
  have same := size?_local.cut hm m_le
  rw [alone] at same
  rw [hm, same]

end Retouch.Lexeme
