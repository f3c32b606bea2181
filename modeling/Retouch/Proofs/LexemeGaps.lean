import Retouch.Proofs.LexemeStops

/-!
# Lexemes and the blanks between them

A lexeme is found again if the blanks after a later piece of the line are changed, as long as the piece
after them can stand where it does then (`laterAfter_change`).  Comments only depend on where the line
ends (`size?_comment`), and what begins like a string is one wherever the next lexeme is found
(`quoteClosed_of_next`).
-/

namespace Retouch.Lexeme

open List

/-! ## Lexemes that stay -/

/-- Whatever lexeme ends before `cs`, it is found again if `cs'` comes in its place. -/
def Later (cs cs' : Text) : Prop :=
  ∀ w n, 0 < n → headIs (· == '#') w = false → QuoteClosed (w ++ cs) →
    size? (w ++ cs) = some n → n ≤ w.length → size? (w ++ cs') = some n

/-- The same, where the piece `u` stands before `cs`: the lexeme ends before the piece or begins
with it. -/
def LaterAfter (u cs cs' : Text) : Prop :=
  ∀ w n, 0 < n → headIs (· == '#') (w ++ u) = false → QuoteClosed (w ++ (u ++ cs)) →
    size? (w ++ (u ++ cs)) = some n → (n ≤ w.length ∨ w = [] ∧ n ≤ u.length) →
    size? (w ++ (u ++ cs')) = some n

theorem Later.refl (cs : Text) : Later cs cs := fun _ _ _ _ _ h _ => h

theorem Later.after {cs cs' : Text} (h : Later cs cs') (u : Text) : LaterAfter u cs cs' := by
  intro w n pos plain closed found le
  rw [← append_assoc] at closed found ⊢
  exact h (w ++ u) n pos plain closed found (by rw [length_append]; omega)

variable {cs cs' u x : Text} {n : Nat} {p : Char → Bool}

theorem LaterAfter.later (h : LaterAfter u cs cs') : Later (u ++ cs) (u ++ cs') := by
  intro w n pos plain closed found le
  cases w with
  | nil => exact absurd pos (by simpa using le)
  | cons c w => exact h _ n pos plain closed found (.inl le)

theorem Later.append {cs cs' : Text} (h : Later cs cs') (gap : Text) :
    Later (gap ++ cs) (gap ++ cs') := by
  intro w n pos plain closed found le
  rw [← append_assoc] at closed found ⊢
  refine h (w ++ gap) n pos ?_ closed found (by rw [length_append]; omega)
  rwa [headIs_append (by omega)]

theorem LaterAfter.of_append {v : Text} (h : LaterAfter (u ++ v) cs cs') :
    LaterAfter u (v ++ cs) (v ++ cs') := by
  intro w n pos plain closed found within
  rw [← append_assoc u] at closed found ⊢
  refine h w n pos ?_ closed found ?_
  · rw [← append_assoc, headIs_append (by rw [length_append]; omega)]
    exact plain
  · rcases within with le | ⟨rfl, le⟩
    · exact .inl le
    · exact .inr ⟨rfl, by rw [length_append]; omega⟩

theorem LaterAfter.size (h : LaterAfter u cs cs') (pos : 0 < n) (le : n ≤ u.length)
    (plain : headIs (· == '#') u = false) (closed : QuoteClosed (u ++ cs))
    (found : size? (u ++ cs) = some n) : size? (u ++ cs') = some n :=
  h [] n pos plain closed found (.inr ⟨rfl, le⟩)

/-! ## Changed blanks -/

/-- Can the lexeme `x` stand right after the piece `u`? -/
def Touches (u x : Text) : Prop :=
  headIs (fun c => c == ',' || c == ':') x = true ∨
  (headIs (· == '=') x = true ∧ joins u = false) ∨
  (u = ['='] ∧ headIs (· == '=') x = false)

theorem size?_joins {w : Text} (h : joins w = true) (b : Text) :
    size? (w ++ '=' :: b) = some (w.length + 1) := by
  have mem := mem_joiners h
  fin_cases mem <;> cases b <;> rfl

theorem size?_equals {b : Text} (h : headIs (· == '=') b = false) : size? ('=' :: b) = some 1 := by
  have sign : optional (· == '=') b = 0 := by rw [optional, h]; rfl
  have operator : operator? ('=' :: b) = some 1 := by
    cases b with
    | nil => rfl
    | cons c b => simp [operator?, doubled?, paired?, assignable?, pairIs, isDoubled, isPaired, headIs, isAssignable, sign]
  have others : continuation? ('=' :: b) = none ∧ comment? ('=' :: b) = none ∧
      tripleOpening? ('=' :: b) = none ∧ number? ('=' :: b) = none := by
    refine ⟨rfl, rfl, ?_, rfl⟩
    rcases b with _ | ⟨_, _ | _⟩ <;> rfl
  simp [size?, mark?, operator, others]

/-- Blanks after a piece can be put, replaced by one blank or, if the next lexeme can stand right
after it, taken away. -/
theorem laterAfter_change {gap gap' : Text} (hu : 0 < u.length) (hx : x ≠ [])
    (change : gap' = [' '] ∨ gap' = [] ∧ Touches u x) :
    LaterAfter u (gap ++ (x ++ cs)) (gap' ++ (x ++ cs')) := by
  intro w n pos plain closed found within
  have le : n ≤ (w ++ u).length := by
    rw [length_append]
    rcases within with le | ⟨_, le⟩ <;> omega
  have hw := lt_of_lt_of_le pos le
  -- a stop `c` comes right after the piece
  have stop : ∀ {c : Char} {b : Text}, isStop c = true → (c = '=' → joins u = false) →
      size? (w ++ (u ++ c :: b)) = some n := by
    intro c b stop apart
    rw [← append_assoc] at closed found ⊢
    refine size?_stop hw stop found le plain closed fun equals whole => ?_
    rcases within with le | ⟨rfl, _⟩
    · rw [length_append] at whole
      omega
    · exact apart equals
  rcases change with rfl | ⟨rfl, mark | ⟨equals, apart⟩ | ⟨rfl, other⟩⟩
  · exact stop rfl (absurd · (by decide))
  · cases x with
    | nil => cases mark
    | cons c x =>
      simp only [headIs, Bool.or_eq_true, beq_iff_eq] at mark
      rcases mark with rfl | rfl
      · exact stop rfl (absurd · (by decide))
      · exact stop rfl (absurd · (by decide))
  · cases x with
    | nil => cases equals
    | cons c x =>
      simp only [headIs, beq_iff_eq] at equals
      subst equals
      exact stop rfl fun _ => apart
  · have other' : headIs (· == '=') (x ++ cs') = false := by
      rwa [headIs_append (length_pos_iff.2 hx)]
    rcases within with le | ⟨rfl, le⟩
    · have hw : 0 < w.length := by omega
      refine size?_stop hw rfl found le ?_ closed fun _ whole => ?_
      · rw [← headIs_append (a := ['=']) hw]
        exact plain
      · by_contra joined
        rw [singleton_append, size?_joins (by simpa using joined)] at found
        cases found
        omega
    · have one := le_antisymm le pos
      rw [one]
      exact size?_equals other'

/-! ## Comments, line ends and quotes -/

theorem headIs_eq_of_head? (h : cs'.head? = cs.head?) : headIs p cs' = headIs p cs := by
  cases cs <;> cases cs' <;> simp_all [headIs]

theorem headIs_mono {q : Char → Bool} (h : headIs p cs = true) (imp : ∀ c, p c = true → q c = true) :
    headIs q cs = true := by
  cases cs with
  | nil => cases h
  | cons c cs => exact imp c h

theorem span_eq_zero : span p cs = 0 ↔ headIs p cs = false := by
  cases cs with
  | nil => simp [span, headIs]
  | cons c cs => cases h : p c <;> simp [span, headIs]

theorem comment?_takes (h : comment? cs = some n) : Takes (fun c => c != '\n') cs n := by
  obtain ⟨mark, ⟨⟩⟩ := Option.ite_none_right_eq_some.1 h
  refine ((takes_head mark).mono fun c hc => ?_).add ((takes_span _ _).mono fun c hc => ?_)
  · rw [eq_of_beq hc]
    decide
  · simp_all

/-- A comment goes up to the end of the line, whatever comes on the next one. -/
theorem size?_comment (mark : headIs (· == '#') x = true) (found : size? (x ++ cs) = some x.length)
    (same : cs'.head? = cs.head?) : size? (x ++ cs') = some x.length := by
  cases x with
  | nil => cases mark
  | cons c x =>
    have hc : c = '#' := by simpa [headIs] using mark
    subst hc
    have comment : ∀ cs, size? ('#' :: x ++ cs) =
        some (1 + span (fun c => c != '\r' && c != '\n') (x ++ cs)) := fun _ => rfl
    rw [comment] at found ⊢
    have all : span (fun c => c != '\r' && c != '\n') (x ++ cs) = x.length := by
      have := Option.some.inj found
      rw [length_cons] at this
      omega
    rw [span_append] at all
    rw [span_append]
    split at all
    · rename_i whole
      rw [if_pos whole]
      have stop : span (fun c => c != '\r' && c != '\n') cs = 0 := by omega
      rw [span_eq_zero, ← headIs_eq_of_head? same, ← span_eq_zero] at stop
      rw [stop, length_cons, Nat.add_comm]
    · rename_i part
      exact absurd all part

theorem Takes.mem (h : Takes p (x ++ cs) x.length) : ∀ c ∈ x, p c = true := by
  intro c hc
  exact h c (by rw [take_left]; exact hc)

theorem operator?_takes (h : operator? cs = some n) :
    Takes (fun c => isAssignable c || c == '~' || c == '!') cs n := by
  have equals : ∀ c, (c == '=') = true → (isAssignable c || c == '~' || c == '!') = true := by
    intro c hc
    rw [eq_of_beq hc]
    decide
  have pair : ∀ {p : Char → Char → Bool} {cs : Text}, pairIs p cs = true →
      (∀ c d, p c d = true → (isAssignable c || c == '~' || c == '!') = true ∧
        (isAssignable d || d == '~' || d == '!') = true) →
      Takes (fun c => isAssignable c || c == '~' || c == '!') cs 2 := by
    intro p cs h both
    match cs, h with
    | c :: d :: cs, h =>
      intro e he
      simp only [take_succ_cons, take_zero, mem_cons, not_mem_nil, or_false] at he
      rcases he with rfl | rfl
      · exact (both _ _ h).1
      · exact (both _ _ h).2
  rcases orElse_eq_some h with h | ⟨-, h⟩
  · obtain ⟨double, ⟨⟩⟩ := Option.ite_none_right_eq_some.1 h
    refine (pair double fun c d h => ?_).add ((takes_optional _ _).mono equals)
    simp only [isDoubled, Bool.and_eq_true, beq_iff_eq, Bool.or_eq_true, or_assoc] at h
    obtain ⟨rfl, h⟩ := h
    rcases h with rfl | rfl | rfl | rfl <;> decide
  rcases orElse_eq_some h with h | ⟨-, h⟩
  · obtain ⟨double, ⟨⟩⟩ := Option.ite_none_right_eq_some.1 h
    refine pair double fun c d h => ?_
    simp only [isPaired, Bool.and_eq_true, beq_iff_eq, Bool.or_eq_true, or_assoc] at h
    rcases h with ⟨rfl, rfl⟩ | ⟨rfl, rfl⟩ | ⟨rfl, rfl⟩ <;> decide
  rcases orElse_eq_some h with h | ⟨-, h⟩
  · obtain ⟨head, ⟨⟩⟩ := Option.ite_none_right_eq_some.1 h
    exact ((takes_head head).mono fun c hc => by simp [hc]).add ((takes_optional _ _).mono equals)
  · obtain ⟨head, ⟨⟩⟩ := Option.ite_none_right_eq_some.1 h
    exact (takes_head head).mono fun c hc => by simp_all

theorem lineEnd?_head (h : lineEnd? cs = some n) :
    headIs (fun c => c == '\r' || c == '\n') cs = true := by
  unfold lineEnd? at h
  split at h <;> cases h <;> rfl

theorem newline_of_lexes (found : size? (x ++ cs) = some x.length) (hx : x ≠ [])
    (plain : headIs isQuote (x.drop (stringLetters x)) = false) (newline : '\n' ∈ x) :
    headIs (fun c => c == '\\' || c == '\r' || c == '\n') x = true := by
  have pos := length_pos_iff.2 hx
  rw [← headIs_append (a := cs) pos]
  have none : ∀ {p : Char → Bool}, Takes p (x ++ cs) x.length → p '\n' = true :=
    fun takes => takes.mem _ newline
  rcases orElse_eq_some found with h | ⟨-, found⟩
  · obtain ⟨rest, k, eq, _⟩ := continuation?_eq_some.1 h
    rw [eq]
    rfl
  rcases orElse_eq_some found with h | ⟨-, found⟩
  · exact absurd (none (comment?_takes h)) (by decide)
  rcases orElse_eq_some found with h | ⟨-, found⟩
  · exact absurd (none (tripleOpening?_takes h)) (by decide)
  rcases orElse_eq_some found with h | ⟨-, found⟩
  · exact absurd (none (number?_takes h)) (by decide)
  rcases orElse_eq_some found with h | ⟨-, found⟩
  · replace h := orElse_eq_some h
    rcases h with h | ⟨-, h⟩
    · exact absurd (none (operator?_takes h)) (by decide)
    rcases orElse_eq_some h with h | ⟨-, h⟩
    · exact headIs_mono (lineEnd?_head h) fun c hc => by rw [Bool.or_assoc, hc, Bool.or_true]
    · obtain ⟨mark, one⟩ := Option.ite_none_right_eq_some.1 h
      exact absurd (none (Option.some.inj one ▸ takes_head mark)) (by decide)
  rcases orElse_eq_some found with h | ⟨-, h⟩
  · obtain ⟨q, rest, k, opening, quote, _⟩ := quoted?_eq_some.1 h
    have inside : stringLetters (x ++ cs) < x.length := by omega
    have letters := @stringLetters_append x cs (.inr inside)
    rw [← headIs_append_of_lt (a := cs) (letters ▸ inside), ← letters, opening] at plain
    rw [headIs, quote] at plain
    cases plain
  · exact absurd (none (name?_takes h)) (by decide)

theorem quoteClosed_of_isString (found : size? (x ++ cs) = some x.length)
    (string : headIs isQuote (x.drop (stringLetters x)) = true) : QuoteClosed (x ++ cs) := by
  intro head
  rw [size?_of_quote head] at found
  rcases orElse_eq_some found with h | ⟨-, found⟩
  · obtain ⟨_, _, _, _, eq⟩ := tripleOpening?_eq_some.1 h
    rw [eq] at h
    rw [string?_of_tripleOpening? h]
    rfl
  rcases orElse_eq_some found with h | ⟨-, h⟩
  · rw [h]
    rfl
  · cases hd : x.drop (stringLetters x) with
    | nil => rw [hd] at string; cases string
    | cons q rest =>
      rw [hd] at string
      have mem := mem_of_mem_drop (hd ▸ mem_cons_self)
      have word := (name?_takes h).mem q mem
      simp only [headIs, isQuote, Bool.or_eq_true, beq_iff_eq] at string
      rcases string with rfl | rfl
      · exact absurd word (by decide)
      · exact absurd word (by decide)

theorem stringLetters_of_quote (h : headIs isQuote cs = true) : stringLetters cs = 0 := by
  cases cs with
  | nil => rfl
  | cons c cs =>
    simp only [headIs, isQuote, Bool.or_eq_true, beq_iff_eq] at h
    rcases h with rfl | rfl <;> rfl

theorem isWord_of_isStringLetter (c : Char) (h : isStringLetter c = true) : Text.isWord c = true := by
  have : c = 'u' ∨ c = 'U' ∨ c = 'b' ∨ c = 'B' ∨ c = 'r' ∨ c = 'R' := by
    simpa [isStringLetter] using h
  rcases this with rfl | rfl | rfl | rfl | rfl | rfl <;> decide

theorem exists_string_of_size? (h : headIs isQuote cs = true) (found : (size? cs).isSome = true) :
    ∃ n, string? cs = some n := by
  have letters := stringLetters_of_quote h
  obtain ⟨n, hn⟩ := Option.isSome_iff_exists.1 found
  rw [size?_of_quote (by rw [letters]; exact h)] at hn
  rcases orElse_eq_some hn with triple | ⟨-, hn⟩
  · obtain ⟨_, _, _, _, eq⟩ := tripleOpening?_eq_some.1 triple
    exact ⟨_, string?_of_tripleOpening? (eq ▸ triple)⟩
  rcases orElse_eq_some hn with string | ⟨-, name⟩
  · exact ⟨n, string⟩
  · cases cs with
    | nil => cases h
    | cons c cs =>
      simp only [headIs, isQuote, Bool.or_eq_true, beq_iff_eq] at h
      rcases h with rfl | rfl <;> cases name

theorem Takes.le_span_succ {p' : Char → Bool} (h : Takes p cs n) (fit : n ≤ cs.length)
    (imp : ∀ c, p c = true → p' c = true) : n ≤ 1 + span p' (cs.drop 1) := by
  cases n with
  | zero => omega
  | succ n =>
    cases cs with
    | nil => simp at fit
    | cons c cs =>
      have all := fun c hc =>
        imp c (h c (by rw [take_succ_cons]; exact mem_cons_of_mem _ hc))
      have : (cs.take n).length ≤ (cs.takeWhile p').length := by
        conv_rhs => rw [← take_append_drop n cs, takeWhile_append_of_pos all, length_append]
        exact Nat.le_add_right ..
      rw [length_take, min_eq_left (by simpa using fit)] at this
      simp only [drop_one, tail_cons, span]
      omega

/-- What begins like a string and is none is followed by a quote that begins no lexeme. -/
theorem quoteClosed_of_next (found : size? (x ++ cs) = some x.length)
    (next : headIs isQuote cs = true → (size? cs).isSome = true) : QuoteClosed (x ++ cs) := by
  intro head
  by_contra none
  rw [Bool.not_eq_true, Option.isSome_eq_false_iff, Option.isNone_iff_eq_none] at none
  rw [size?_of_quote head] at found
  rcases orElse_eq_some found with h | ⟨-, found⟩
  · obtain ⟨_, _, _, _, eq⟩ := tripleOpening?_eq_some.1 h
    rw [eq] at h
    rw [string?_of_tripleOpening? h] at none
    cases none
  rw [none] at found
  have name := found
  -- the name is just the letters
  have letters : stringLetters (x ++ cs) = x.length := by
    refine le_antisymm ?_ ((name?_takes name).le_of_head head (forall_either (by decide) (by decide)))
    · unfold name? at name
      split at name
      · have words := (stringLetters_takes (x ++ cs)).le_span_succ (stringLetters_le _)
          isWord_of_isStringLetter
        have := Option.some.inj name
        omega
      · cases name
  rw [letters, drop_left] at head
  obtain ⟨k, hk⟩ := exists_string_of_size? head (next head)
  obtain ⟨q, rest, j, opening, quote, closing, _⟩ := quoted?_eq_some.1 hk
  rw [stringLetters_of_quote head, drop_zero] at opening
  have string : string? (x ++ cs) = _ := quoted?_eq_some.2
    ⟨q, rest, j, by rw [letters, drop_left, opening], quote, closing, by rw [letters]⟩
  rw [none] at string
  cases string

end Retouch.Lexeme
