import Mathlib.Tactic.Common
import Retouch.Token.Scan

/-!
# Lexemes and what stands before them

No lexeme begins with a separator (`size?_separator`), so looking for the next lexeme after separators
finds it again (`Lexes.next?`).
-/

namespace Retouch.Lexeme

open List

/-! ## Counting characters -/

variable {cs : Text} {n : Nat} {p : Char → Bool} {quote : Char}

theorem lt_of_headIs_drop (h : headIs p (cs.drop n) = true) : n < cs.length := by
  by_contra hn
  rw [drop_eq_nil_of_le (Nat.le_of_not_lt hn)] at h
  cases h

theorem forall_either {P : Char → Prop} {a b : Char} (ha : P a) (hb : P b) (c : Char)
    (hc : (c == a || c == b) = true) : P c := by
  simp only [Bool.or_eq_true, beq_iff_eq] at hc
  rcases hc with rfl | rfl
  · exact ha
  · exact hb

theorem add_span_le (h : n ≤ cs.length) : n + span p (cs.drop n) ≤ cs.length := by
  have : span p (cs.drop n) ≤ (cs.drop n).length :=
    ( takeWhile_prefix p).length_le
  rw [length_drop] at this
  omega

theorem add_optional_le (h : n ≤ cs.length) : n + optional p (cs.drop n) ≤ cs.length := by
  unfold optional
  split
  · rename_i hp
    exact lt_of_headIs_drop hp
  · exact h

theorem span_le (p : Char → Bool) (cs : Text) : span p cs ≤ cs.length :=
  ( takeWhile_prefix p).length_le

theorem optional_le (p : Char → Bool) (cs : Text) : optional p cs ≤ cs.length := by
  simpa using add_optional_le (p := p) (Nat.zero_le cs.length)

theorem orElse_le {a b : Option Nat} {m : Nat} (ha : ∀ n, a = some n → n ≤ m)
    (hb : ∀ n, b = some n → n ≤ m) : ∀ n, (a <|> b) = some n → n ≤ m := by
  intro n h
  cases a with
  | none => exact hb n h
  | some k => exact ha n h

theorem stringLetters_le (cs : Text) : stringLetters cs ≤ cs.length :=
  add_optional_le (optional_le _ _)

/-! ## Closing quotes -/

theorem Closing.quotes_ne_nil (closing : Closing) : closing.quotes ≠ [] := by
  cases closing <;> nofun

theorem closeBy?_le {quotes : Text} (h : closeBy? quotes cs = some n) :
    quotes.length ≤ n ∧ n ≤ cs.length := by
  fun_induction closeBy? quotes cs generalizing n with
  | case1 | case3 | case4 => cases h
  | case2 _ _ found =>
    cases h
    exact ⟨Nat.le_refl _, found.length_le⟩
  | case5 _ _ _ _ ih | case6 _ _ _ _ ih =>
    obtain ⟨k, hk, rfl⟩ := Option.map_eq_some_iff.1 h
    have := ih hk
    simp only [length_cons]
    omega

theorem Closing.find?_le {closing : Closing} (h : closing.find? cs = some n) : n ≤ cs.length :=
  (closeBy?_le h).2

theorem Closing.find?_pos {closing : Closing} (h : closing.find? cs = some n) : 0 < n :=
  Nat.lt_of_lt_of_le (length_pos_iff.2 closing.quotes_ne_nil) (closeBy?_le h).1

theorem Closing.take_ne_nil {closing : Closing} (h : closing.find? cs = some n) : cs.take n ≠ [] := by
  rw [← length_pos_iff, length_take_of_le (find?_le h)]
  exact find?_pos h

/-! ## Finding the next lexeme -/

/-- A property of characters holds in a text if it is checked along the text.  Deciding the quantifier
itself could mean to go through all characters there are. -/
theorem forall_mem_of_all {P : Char → Prop} [DecidablePred P]
    (h : (cs.all fun c => decide (P c)) = true) : ∀ c ∈ cs, P c :=
  fun c hc => of_decide_eq_true (all_eq_true.1 h c hc)

def isPlainHead (c : Char) : Bool :=
  !(Text.isDecimal c || ('1' ≤ c && c ≤ '9') || isAssignable c || ".0#!~".toList.contains c)

theorem classes_of_plainHead {c : Char} (h : isPlainHead c = true) (cs : Text) :
    comment? (c :: cs) = none ∧ number? (c :: cs) = none ∧ operator? (c :: cs) = none := by
  simp only [isPlainHead, Bool.not_eq_true', Bool.or_eq_false_iff] at h
  obtain ⟨⟨⟨digit, nonzero⟩, assignable⟩, others⟩ := h
  have others : c ≠ '.' ∧ c ≠ '0' ∧ c ≠ '#' ∧ c ≠ '!' ∧ c ≠ '~' := by simpa using others
  have digits : span Text.isDecimal (c :: cs) = 0 := by simp [span, digit]
  refine ⟨by simp [comment?, headIs, others], ?_, ?_⟩
  · simp [number?, imaginary?, markedFloat?, float?, pointed?, afterDigits?, integer?, binary?, hexadecimal?,
      octal?, decimal?, digits, headIs, others, nonzero]
  · have signs : c ≠ '*' ∧ c ≠ '<' ∧ c ≠ '>' ∧ c ≠ '/' ∧ c ≠ '-' := by
      simp only [isAssignable, Bool.or_eq_false_iff, beq_eq_false_iff_ne] at assignable
      simp [assignable]
    cases cs <;> simp [operator?, doubled?, paired?, assignable?, single?, headIs, pairIs, isDoubled, isPaired,
      assignable, others, signs]

theorem quoteless (plain : headIs isQuote (cs.drop (stringLetters cs)) = false) :
    tripleOpening? cs = none ∧ string? cs = none := by
  have none (after : Char → Text → Option Nat) : quoted? after cs = none := by
    unfold quoted?
    cases opening : cs.drop (stringLetters cs) with
    | nil => rfl
    | cons q rest =>
      rw [opening] at plain
      exact if_neg (Bool.eq_false_iff.1 plain)
  exact ⟨none _, none _⟩

/-- Separators, brackets and other signs that begin no number, string, name or operator. -/
def signs : Text := [' ', '\x0c', '\t', '(', '[', '\x7b', ')', ']', '\x7d', '\\', '\r']

theorem size?_sign {c : Char} (h : c ∈ signs) (cs : Text) :
    size? (c :: cs) =
      (continuation? (c :: cs) <|> lineEnd? (c :: cs) <|> if isMark c then some 1 else none) := by
  have facts : ∀ c ∈ signs, isPlainHead c = true ∧ isQuote c = false := forall_mem_of_all (by decide)
  obtain ⟨plain, quote⟩ := facts c h
  obtain ⟨comment, number, operator⟩ := classes_of_plainHead plain cs
  have others : stringLetters (c :: cs) = 0 ∧ name? (c :: cs) = none := by
    simp only [signs, mem_cons, not_mem_nil, or_false] at h
    rcases h with rfl | rfl | rfl | rfl | rfl | rfl | rfl | rfl | rfl | rfl | rfl <;> exact ⟨rfl, rfl⟩
  obtain ⟨triple, string⟩ := @quoteless (c :: cs) (by rw [others.1]; exact quote)
  simp [size?, mark?, comment, number, operator, triple, string, others]
  rfl

theorem size?_separator {c : Char} (h : isSeparator c = true) (cs : Text) :
    size? (c :: cs) = none := by
  have separator : c = ' ' ∨ c = '\x0c' ∨ c = '\t' := by simpa [isSeparator, or_assoc] using h
  rcases separator with rfl | rfl | rfl <;> rw [size?_sign (by decide)] <;> rfl

/-- Characters that only keep lexemes apart. -/
abbrev IsGap (gap : Text) : Prop := ∀ c ∈ gap, isSeparator c = true

/-- A lexeme with the separators before it and the characters after it. -/
structure Lexes (gap lexeme rest : Text) : Prop where
  blank : ∀ c ∈ gap, isSeparator c = true
  nonempty : lexeme ≠ []
  size : size? (lexeme ++ rest) = some lexeme.length

theorem span_append_of_all {gap : Text} (h : ∀ c ∈ gap, p c = true) {rest : Text}
    (stop : headIs p rest = false) : span p (gap ++ rest) = gap.length := by
  unfold span
  rw [takeWhile_append_of_pos h, length_append]
  cases rest with
  | nil => rfl
  | cons c rest => rw [takeWhile_cons_of_neg (by simpa [headIs] using stop)]; rfl

theorem Lexes.next? {gap x rest : Text} (h : Lexes gap x rest) :
    next? (gap ++ (x ++ rest)) =
      some ⟨gap.length, x.length, length_pos_iff.2 h.nonempty⟩ := by
  have stop : headIs isSeparator (x ++ rest) = false := by
    cases hx : x with
    | nil => exact absurd hx h.nonempty
    | cons c cs =>
      by_contra sep
      have := size?_separator (Bool.not_eq_false _ ▸ sep) (cs ++ rest)
      rw [← cons_append, ← hx, h.size] at this
      cases this
  unfold Lexeme.next?
  simp [span_append_of_all h.blank stop, h.size, length_pos_iff.2 h.nonempty]

end Retouch.Lexeme
