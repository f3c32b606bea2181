import Mathlib.Data.List.Infix
import Mathlib.Data.List.TakeWhile
import Retouch.Proofs.Lexemes

/-!
# Lexemes are recognised from their own characters

Each recogniser is `Local`: a lexeme lies within the text, one that ends within the characters at the
front is found in them alone, and more characters after them never hide it.  They can make it longer, as the exponent of a
number shows, so a recogniser is local rather than deaf to what comes next.  Recognisers that come
one after the other are local together (`Local.orElse`), and so the choice among all lexemes is
(`size?_local`).  Strings need nothing after their closing quote (`Exact`).  So a line falls into
separators, a lexeme and a rest (`lexes_of_next?`).
-/

namespace Retouch.Lexeme

open List

/-! ## Characters within the text -/

section Within

variable {p : Char → Bool} {w a : Text} {k : Nat}

theorem headIs_append_of_lt (h : k < w.length) :
    headIs p ((w ++ a).drop k) = headIs p (w.drop k) := by
  rw [drop_append_of_le_length (le_of_lt h), drop_eq_getElem_cons h]
  rfl

theorem headIs_append (h : 0 < w.length) : headIs p (w ++ a) = headIs p w :=
  headIs_append_of_lt (k := 0) h

theorem span_append (p : Char → Bool) (w a : Text) :
    span p (w ++ a) = if span p w = w.length then w.length + span p a else span p w := by
  unfold span
  rw [takeWhile_append]
  split <;> simp

theorem span_append_of_lt (h : k + span p (w.drop k) < w.length) :
    span p ((w ++ a).drop k) = span p (w.drop k) := by
  rw [drop_append_of_le_length (by omega), span_append, if_neg]
  rw [length_drop]
  omega

theorem span_append_of_le (hk : k ≤ w.length) (h : k + span p ((w ++ a).drop k) ≤ w.length) :
    span p ((w ++ a).drop k) = span p (w.drop k) := by
  rw [drop_append_of_le_length hk, span_append] at h ⊢
  split at h <;> simp_all
  omega

theorem span_append_whole (h : span p w < w.length ∨ span p (w ++ a) ≤ w.length) :
    span p (w ++ a) = span p w := by
  rcases h with lt | le
  · exact span_append_of_lt (k := 0) (by simpa using lt)
  · exact span_append_of_le (k := 0) (Nat.zero_le _) (by simpa using le)

theorem span_le_append (hk : k ≤ w.length) : span p (w.drop k) ≤ span p ((w ++ a).drop k) := by
  rw [drop_append_of_le_length hk, span_append]
  split <;> omega

theorem optional_append_of_lt (h : k < w.length) :
    optional p ((w ++ a).drop k) = optional p (w.drop k) := by
  rw [optional, headIs_append_of_lt h, optional]

theorem optional_append_of_le (hk : k ≤ w.length)
    (h : k + optional p ((w ++ a).drop k) ≤ w.length) :
    optional p ((w ++ a).drop k) = optional p (w.drop k) := by
  rcases lt_or_eq_of_le hk with lt | rfl
  · exact optional_append_of_lt lt
  · rw [drop_length]
    have : optional p ((w ++ a).drop w.length) = 0 := by omega
    rw [this]
    rfl

end Within

/-! ## The characters of a lexeme -/

/-- The first `n` characters all satisfy `p`. -/
def Takes (p : Char → Bool) (cs : Text) (n : Nat) : Prop := ∀ c ∈ cs.take n, p c = true

section Takes

variable {p q : Char → Bool} {cs : Text} {i j : Nat}

theorem Takes.mono (h : Takes p cs i) (imp : ∀ c, p c = true → q c = true) : Takes q cs i :=
  fun c hc => imp c (h c hc)

theorem Takes.add (h : Takes p cs i) (h' : Takes p (cs.drop i) j) : Takes p cs (i + j) := by
  intro c hc
  rw [take_add, mem_append] at hc
  exact hc.elim (h c) (h' c)

theorem takes_head (h : headIs p cs = true) : Takes p cs 1 := by
  cases cs with
  | nil => cases h
  | cons d cs =>
    intro c hc
    rw [take_succ_cons, take_zero, mem_singleton] at hc
    exact hc ▸ h

theorem takes_optional (p : Char → Bool) (cs : Text) : Takes p cs (optional p cs) := by
  unfold optional
  split
  · exact takes_head ‹_›
  · intro c hc
    cases hc

theorem takes_span (p : Char → Bool) (cs : Text) : Takes p cs (span p cs) := by
  intro c hc
  rw [span, prefix_iff_eq_take.1 ( takeWhile_prefix p) |>.symm] at hc
  exact all_eq_true.1 all_takeWhile c hc

theorem Takes.le_of_head (h : Takes p cs i) (hj : headIs q (cs.drop j) = true)
    (disjoint : ∀ c, q c = true → p c = false) : i ≤ j := by
  by_contra more
  cases hd : cs.drop j with
  | nil => rw [hd] at hj; cases hj
  | cons c rest =>
    rw [hd] at hj
    have : c ∈ cs.take i := by
      have split := take_append_drop j cs
      rw [hd] at split
      rw [← split, take_append, mem_append]
      right
      have : j < cs.length := by
        have := congrArg length hd
        rw [length_drop, length_cons] at this
        omega
      rw [length_take, min_eq_left (by omega), show i - j = (i - j - 1) + 1 by omega]
      exact mem_cons_self
    exact absurd (h c this) (by rw [disjoint c hj]; nofun)

end Takes

variable {n k : Nat} {cs : Text} {p : Char → Char → Bool}

theorem orElse_eq_some {a b : Option Nat} (h : (a <|> b) = some n) :
    a = some n ∨ a = none ∧ b = some n := by
  cases a with
  | none => exact .inr ⟨rfl, h⟩
  | some m => exact .inl h

/-! ## Recognisers that look ahead no further than they have to -/

/-- A lexeme lies within the text.  One that ends within the characters at the front is found in them
alone, and where one is found in them, more characters do not hide it. -/
structure Local (r : Text → Option Nat) : Prop where
  fit : ∀ {cs n}, r cs = some n → n ≤ cs.length
  cut : ∀ {w a n}, r (w ++ a) = some n → n ≤ w.length → r w = some n
  grow : ∀ {w n} (a), r w = some n → ∃ m, r (w ++ a) = some m

namespace Local

variable {r s : Text → Option Nat}

theorem eq_none (h : Local r) {w a : Text} (nothing : r (w ++ a) = none) : r w = none := by
  cases found : r w with
  | none => rfl
  | some n =>
    obtain ⟨m, hm⟩ := h.grow a found
    rw [nothing] at hm
    cases hm

theorem orElse (hr : Local r) (hs : Local s) : Local fun cs => r cs <|> s cs where
  fit h := (orElse_eq_some h).elim hr.fit fun later => hs.fit later.2
  cut := by
    intro w a n h le
    cases found : r (w ++ a) with
    | none =>
      rw [found] at h
      rw [hr.eq_none found]
      exact hs.cut h le
    | some m =>
      rw [found] at h
      cases h
      rw [hr.cut found le]
      rfl
  grow := by
    intro w n a h
    cases found : r (w ++ a) with
    | none =>
      rw [hr.eq_none found] at h
      exact hs.grow a h
    | some m => exact ⟨m, rfl⟩

end Local

/-- The first `k` characters decide. -/
structure Heads (k : Nat) (heads : Text → Bool) : Prop where
  fit : ∀ {cs}, heads cs = true → k ≤ cs.length
  same : ∀ {w a}, k ≤ w.length → heads (w ++ a) = heads w

/-- A size of at least `k` that does not depend on what is behind so many characters. -/
structure Sized (k : Nat) (size : Text → Nat) : Prop where
  least : ∀ cs, k ≤ size cs
  most : ∀ {cs}, k ≤ cs.length → size cs ≤ cs.length
  cut : ∀ {w a}, k ≤ w.length → size (w ++ a) ≤ w.length → size (w ++ a) = size w

theorem local_of_heads {heads : Text → Bool} {size : Text → Nat} (decides : Heads k heads)
    (sized : Sized k size) : Local fun cs => if heads cs then some (size cs) else none where
  fit := by
    intro cs n h
    split at h <;> cases h
    rename_i applies
    exact sized.most (decides.fit applies)
  cut := by
    intro w a n h le
    split at h <;> cases h
    rename_i applies
    have hk := le_trans (sized.least _) le
    rw [decides.same hk] at applies
    rw [if_pos applies, sized.cut hk le]
  grow := by
    intro w n a h
    split at h <;> cases h
    rename_i applies
    exact ⟨_, if_pos ((decides.same (decides.fit applies)).trans applies)⟩

theorem headIs_heads {p : Char → Bool} : Heads 1 (headIs p) := ⟨lt_of_headIs_drop (n := 0), headIs_append⟩

theorem sized_self : Sized k fun _ => k := ⟨fun _ => le_refl k, id, fun _ _ => rfl⟩

theorem sized_span {p : Char → Bool} : Sized k fun cs => k + span p (cs.drop k) :=
  ⟨fun _ => Nat.le_add_right .., add_span_le, fun fit le => by rw [span_append_of_le fit le]⟩

theorem sized_optional {p : Char → Bool} : Sized k fun cs => k + optional p (cs.drop k) :=
  ⟨fun _ => Nat.le_add_right .., add_optional_le, fun fit le => by rw [optional_append_of_le fit le]⟩

theorem single?_local (p : Char → Bool) : Local (single? p) := local_of_heads headIs_heads sized_self

theorem single?_pos {p : Char → Bool} (h : single? p cs = some n) : 0 < n := by
  obtain ⟨-, ⟨⟩⟩ := Option.ite_none_right_eq_some.1 h
  exact Nat.one_pos

/-! ## Numbers -/

theorem exponent?_pos (h : exponent? cs = some n) : 0 < n := by
  obtain ⟨-, ⟨⟩⟩ := Option.ite_none_right_eq_some.1 h
  omega

theorem exponent?_le (h : exponent? cs = some n) : n ≤ cs.length := by
  obtain ⟨⟨mark, -⟩, ⟨⟩⟩ := Option.ite_none_right_eq_some.1 h
  exact add_span_le (add_optional_le (headIs_heads.fit mark))

theorem exponent?_local : Local exponent? where
  fit := exponent?_le
  cut := by
    intro w a n h le
    obtain ⟨⟨mark, digits⟩, ⟨⟩⟩ := Option.ite_none_right_eq_some.1 h
    have sign := @optional_append_of_lt isSign w a 1 (by omega)
    rw [sign] at digits le ⊢
    rw [headIs_append (by omega)] at mark
    have whole := @span_append_of_le Text.isDecimal w a
      (1 + optional isSign (w.drop 1)) (by omega) (by omega)
    rw [whole] at digits ⊢
    exact if_pos ⟨mark, digits⟩
  grow := by
    intro w n a h
    have fit := exponent?_le h
    obtain ⟨⟨mark, digits⟩, ⟨⟩⟩ := Option.ite_none_right_eq_some.1 h
    refine ⟨_, if_pos ⟨?_, ?_⟩⟩
    · rwa [headIs_append (by omega)]
    · rw [optional_append_of_lt (k := 1) (by omega)]
      exact lt_of_lt_of_le digits (span_le_append (by omega))

section AfterDigits

variable {r : Text → Option Nat}

theorem afterDigits?_eq_some : afterDigits? r cs = some n ↔ 0 < span Text.isDecimal cs ∧
    ∃ k, r (cs.drop (span Text.isDecimal cs)) = some k ∧ n = span Text.isDecimal cs + k := by
  simp only [afterDigits?, Option.ite_none_right_eq_some, Option.map_eq_some_iff, @eq_comm _ n]

theorem Local.afterDigits (hr : Local r) (pos : ∀ {cs n}, r cs = some n → 0 < n) :
    Local (afterDigits? r) where
  fit := by
    intro cs n h
    obtain ⟨-, k, found, rfl⟩ := afterDigits?_eq_some.1 h
    have fit := hr.fit found
    have whole := span_le Text.isDecimal cs
    rw [length_drop] at fit
    omega
  cut := by
    intro w a n h le
    obtain ⟨digits, k, found, rfl⟩ := afterDigits?_eq_some.1 h
    have := pos found
    have whole := @span_append_whole Text.isDecimal w a (.inr (by omega))
    rw [whole] at digits found le ⊢
    rw [drop_append_of_le_length (by omega)] at found
    exact afterDigits?_eq_some.2 ⟨digits, k, hr.cut found (by rw [length_drop]; omega), rfl⟩
  grow := by
    intro w n a h
    obtain ⟨digits, k, found, rfl⟩ := afterDigits?_eq_some.1 h
    have := pos found
    have fit := hr.fit found
    rw [length_drop] at fit
    have whole := @span_append_whole Text.isDecimal w a (.inl (by omega))
    obtain ⟨m, hm⟩ := hr.grow a found
    rw [← drop_append_of_le_length (by omega)] at hm
    exact ⟨_, afterDigits?_eq_some.2 ⟨whole ▸ digits, m, whole ▸ hm, rfl⟩⟩

end AfterDigits

theorem pointed?_local : Local pointed? where
  fit := by
    intro cs n h
    obtain ⟨⟨point, -⟩, ⟨⟩⟩ := Option.ite_none_right_eq_some.1 h
    have le := add_span_le (p := Text.isDecimal) (lt_of_headIs_drop point)
    cases found : exponent? (cs.drop (span Text.isDecimal cs + 1 +
        span Text.isDecimal (cs.drop (span Text.isDecimal cs + 1)))) with
    | none => exact le
    | some k =>
      have fit := exponent?_le found
      rw [length_drop] at fit
      exact Nat.add_le_of_le_sub' le fit
  cut := by
    intro w a n h le
    obtain ⟨⟨point, digits⟩, ⟨⟩⟩ := Option.ite_none_right_eq_some.1 h
    have whole := @span_append_whole Text.isDecimal w a (.inr (by omega))
    rw [whole] at point digits le ⊢
    have fraction : span Text.isDecimal ((w ++ a).drop (span Text.isDecimal w + 1)) =
        span Text.isDecimal (w.drop (span Text.isDecimal w + 1)) :=
      span_append_of_le (by omega) (by omega)
    rw [fraction] at digits le ⊢
    rw [headIs_append_of_lt (by omega)] at point
    rw [drop_append_of_le_length (by omega)] at le ⊢
    refine (if_pos ⟨point, digits⟩).trans ?_
    congr 2
    cases he : exponent? (w.drop (span Text.isDecimal w + 1 +
        span Text.isDecimal (w.drop (span Text.isDecimal w + 1))) ++ a) with
    | none => rw [exponent?_local.eq_none he]
    | some k =>
      rw [he, Option.getD_some] at le
      rw [exponent?_local.cut he (by rw [length_drop]; omega)]
  grow := by
    intro w n a h
    obtain ⟨⟨point, digits⟩, ⟨⟩⟩ := Option.ite_none_right_eq_some.1 h
    have inside := lt_of_headIs_drop point
    have whole := @span_append_whole Text.isDecimal w a (.inl inside)
    refine ⟨_, if_pos ⟨?_, ?_⟩⟩
    · rwa [whole, headIs_append_of_lt inside]
    · rw [whole]
      exact lt_of_lt_of_le digits (Nat.add_le_add_left (span_le_append (by omega)) _)

theorem float?_local : Local float? := pointed?_local.orElse (exponent?_local.afterDigits exponent?_pos)

def isFloatChar (c : Char) : Bool := Text.isDecimal c || c == '.' || isExponentMark c || isSign c

theorem exponent?_takes (h : exponent? cs = some n) : Takes isFloatChar cs n := by
  obtain ⟨⟨mark, -⟩, ⟨⟩⟩ := Option.ite_none_right_eq_some.1 h
  refine ((takes_head mark).mono ?_ |>.add ((takes_optional isSign _).mono ?_)).add
    ((takes_span Text.isDecimal _).mono ?_)
  all_goals
    intro c hc
    simp [isFloatChar, hc]

theorem float?_takes (h : float? cs = some n) : Takes isFloatChar cs n := by
  have digits : ∀ cs, Takes isFloatChar cs (span Text.isDecimal cs) := fun cs =>
    (takes_span Text.isDecimal cs).mono fun c hc => by simp [isFloatChar, hc]
  rcases orElse_eq_some h with h | ⟨-, h⟩
  · obtain ⟨⟨point, -⟩, ⟨⟩⟩ := Option.ite_none_right_eq_some.1 h
    refine (((digits cs).add ((takes_head point).mono ?_)).add (digits _)).add ?_
    · intro c hc
      simp [isFloatChar, hc]
    · cases he : exponent? (cs.drop (span Text.isDecimal cs + 1 +
          span Text.isDecimal (cs.drop (span Text.isDecimal cs + 1)))) with
      | none => intro c hc; cases hc
      | some k => exact exponent?_takes he
  · obtain ⟨-, k, exponent, rfl⟩ := afterDigits?_eq_some.1 h
    exact (digits cs).add (exponent?_takes exponent)

theorem markedFloat?_eq_some : markedFloat? cs = some n ↔
    ∃ k, float? cs = some k ∧ headIs isImaginaryMark (cs.drop k) = true ∧ n = k + 1 := by
  simp only [markedFloat?, Option.bind_eq_some_iff, Option.ite_none_right_eq_some, Option.some.injEq,
    @eq_comm _ n]

theorem markedFloat?_local : Local markedFloat? where
  fit := by
    intro cs n h
    obtain ⟨k, -, mark, rfl⟩ := markedFloat?_eq_some.1 h
    exact lt_of_headIs_drop mark
  cut := by
    intro w a n h le
    obtain ⟨k, float, mark, rfl⟩ := markedFloat?_eq_some.1 h
    rw [headIs_append_of_lt (by omega)] at mark
    exact markedFloat?_eq_some.2 ⟨k, float?_local.cut float (by omega), mark, rfl⟩
  grow := by
    intro w n a h
    obtain ⟨k, float, mark, rfl⟩ := markedFloat?_eq_some.1 h
    have inside := lt_of_headIs_drop mark
    obtain ⟨m, hm⟩ := float?_local.grow a float
    have mark' : headIs isImaginaryMark ((w ++ a).drop k) = true := by
      rwa [headIs_append_of_lt inside]
    have stops := (float?_takes hm).le_of_head mark' (forall_either (by decide) (by decide))
    have same := Option.some.inj ((float?_local.cut hm (by omega)).symm.trans float)
    subst same
    exact ⟨_, markedFloat?_eq_some.2 ⟨m, hm, mark', rfl⟩⟩

theorem imaginary?_local : Local imaginary? :=
  ((single?_local _).afterDigits single?_pos).orElse markedFloat?_local

/-- A number of some form, with the mark of a long one behind it. -/
theorem Sized.long {size : Text → Nat} (h : Sized k size) : Sized k fun cs => withLongMark cs (size cs) := by
  refine ⟨fun cs => le_trans (h.least cs) (Nat.le_add_right ..), fun hk => add_optional_le (h.most hk),
    fun hk le => ?_⟩
  have short := le_trans (Nat.le_add_right ..) le
  unfold withLongMark at le ⊢
  rw [optional_append_of_le short le, h.cut hk short]

theorem marked_heads {p q : Char → Bool} : Heads 2 fun cs => headIs p cs && headIs q (cs.drop 1) := by
  refine ⟨fun heads => lt_of_headIs_drop (Bool.and_eq_true_iff.1 heads).2, fun fit => ?_⟩
  rw [headIs_append (by omega), headIs_append_of_lt (by omega)]

theorem binary?_local : Local binary? := local_of_heads marked_heads sized_span

theorem hexadecimal?_local : Local hexadecimal? := local_of_heads marked_heads sized_span.long

theorem octal?_local : Local octal? := by
  refine local_of_heads headIs_heads (Sized.long ⟨fun cs => by omega,
    fun fit => add_span_le (add_optional_le fit), @fun w a fit le => ?_⟩)
  have letter := @optional_append_of_le (fun c => c == 'o' || c == 'O') w a 1 fit (by omega)
  rw [letter] at le ⊢
  rw [span_append_of_le (by omega) le]

theorem decimal?_local : Local decimal? := local_of_heads headIs_heads sized_span.long

theorem number?_local : Local number? := by
  have integer : Local integer? :=
    binary?_local.orElse (hexadecimal?_local.orElse (octal?_local.orElse decimal?_local))
  exact imaginary?_local.orElse (float?_local.orElse integer)

/-! ## Marks -/

/-- A recogniser that needs no character after its lexeme, and is not misled by any. -/
def Exact (r : Text → Option Nat) : Prop :=
  ∀ {cs n} (a), r cs = some n → r (cs.take n ++ a) = some n

variable {r : Text → Option Nat}

theorem Exact.append (h : Exact r) {w : Text} (a : Text)
    (found : r w = some n) : r (w ++ a) = some n := by
  have whole := h (w.drop n ++ a) found
  rwa [← append_assoc, take_append_drop] at whole

theorem Exact.local (h : Exact r) (fit : ∀ {cs n}, r cs = some n → n ≤ cs.length) : Local r where
  fit := fit
  cut := by
    intro w a n found le
    have whole := h (w.drop n) found
    rwa [take_append_of_le_length le, take_append_drop] at whole
  grow := fun a found => ⟨_, h.append a found⟩

theorem pairIs_heads {p : Char → Char → Bool} : Heads 2 (pairIs p) where
  fit := by
    intro cs h
    match cs, h with
    | _ :: _ :: _, _ => simp
  same := by
    intro w a h
    match w, h with
    | _ :: _ :: _, _ => rfl

theorem doubled?_local : Local doubled? := local_of_heads pairIs_heads sized_optional

theorem paired?_local : Local paired? := local_of_heads pairIs_heads sized_self

theorem assignable?_local : Local assignable? := local_of_heads headIs_heads sized_optional

theorem operator?_local : Local operator? :=
  doubled?_local.orElse (paired?_local.orElse (assignable?_local.orElse (single?_local _)))

theorem lineEnd?_local : Local lineEnd? := by
  refine Exact.local (fun a h => ?_) fun h => ?_
  all_goals
    unfold lineEnd? at h
    split at h <;> cases h
  · rfl
  · rfl
  · simp
  · simp

theorem mark?_local : Local mark? :=
  operator?_local.orElse (lineEnd?_local.orElse (single?_local isMark))

theorem name?_local : Local name? := local_of_heads headIs_heads sized_span

theorem comment?_local : Local comment? := local_of_heads headIs_heads sized_span

/-! ## Strings -/

theorem stringRest?_le {escaped : Bool} (h : stringRest? quote escaped cs = some n) :
    n ≤ cs.length := by
  fun_induction stringRest? quote escaped cs generalizing n with
  | case1 => cases h
  | case2 | case3 => cases h; simp
  | case4 | case5 => cases h
  | case6 => cases h; simp
  | case7 escaped hc hn d ds hd ih | case8 escaped c cs _ _ _ ih =>
    obtain ⟨k, hk, rfl⟩ := Option.map_eq_some_iff.1 h
    have := ih hk
    simp only [length_cons]
    omega

theorem stringRest?_exact (quote : Char) (escaped : Bool) : Exact (stringRest? quote escaped) := by
  intro cs n a h
  fun_induction stringRest? quote escaped cs generalizing n with
  | case1 => cases h
  | case2 =>
    cases h
    unfold stringRest?
    simp
  | case3 =>
    cases h
    unfold stringRest?
    simp_all
  | case4 | case5 => cases h
  | case6 =>
    cases h
    unfold stringRest?
    simp_all
  | case7 escaped d ds newline closed _ ih =>
    obtain ⟨k, hk, rfl⟩ := Option.map_eq_some_iff.1 h
    unfold stringRest?
    simp [newline, closed, ih hk]
  | case8 escaped c cs closed newline backslash ih =>
    obtain ⟨k, hk, rfl⟩ := Option.map_eq_some_iff.1 h
    unfold stringRest?
    simp [closed, newline, backslash, ih hk]

theorem stringLetters_append {w a : Text}
    (h : stringLetters w < w.length ∨ stringLetters (w ++ a) < w.length) :
    stringLetters (w ++ a) = stringLetters w := by
  unfold stringLetters at h ⊢
  simp only at h ⊢
  have type := @optional_append_of_lt (fun c => c == 'u' || c == 'U' || c == 'b' || c == 'B') w a 0
    (by omega)
  simp only [drop_zero] at type
  rw [type] at h ⊢
  rw [optional_append_of_lt (by omega)]

theorem stringLetters_take (a : Text) (h : stringLetters cs < n)
    (hn : n ≤ cs.length) : stringLetters (cs.take n ++ a) = stringLetters cs := by
  have short : (cs.take n).length = n := by
    rw [length_take]
    omega
  have back := @stringLetters_append (cs.take n) (cs.drop n) (.inr (by
    rw [take_append_drop, short]
    exact h))
  rw [take_append_drop] at back
  rw [stringLetters_append (.inl (by rw [← back, short]; exact h)), ← back]

section Quoted

variable {after : Char → Text → Option Nat}

theorem quoted?_eq_some : quoted? after cs = some n ↔
    ∃ q rest k, cs.drop (stringLetters cs) = q :: rest ∧ isQuote q = true ∧ after q rest = some k ∧
      n = stringLetters cs + 1 + k := by
  unfold quoted?
  cases cs.drop (stringLetters cs) with
  | nil => exact ⟨nofun, nofun⟩
  | cons q rest =>
    simp only [Option.ite_none_right_eq_some, Option.map_eq_some_iff]
    constructor
    · rintro ⟨quote, k, hk, rfl⟩
      exact ⟨q, rest, k, rfl, quote, hk, rfl⟩
    · rintro ⟨q, rest, k, eq, quote, hk, rfl⟩
      cases eq
      exact ⟨quote, k, hk, rfl⟩

variable (inside : ∀ {q cs n}, after q cs = some n → n ≤ cs.length)

include inside

theorem quoted?_le (h : quoted? after cs = some n) : n ≤ cs.length := by
  obtain ⟨q, rest, k, opening, -, closing, rfl⟩ := quoted?_eq_some.1 h
  have short := inside closing
  have size := congrArg length opening
  simp only [length_drop, length_cons] at size
  omega

theorem quoted?_exact (exact : ∀ q, Exact (after q)) : Exact (quoted? after) := by
  intro cs n a h
  have fit := quoted?_le inside h
  obtain ⟨q, rest, k, opening, quote, closing, rfl⟩ := quoted?_eq_some.1 h
  have letters := @stringLetters_take (stringLetters cs + 1 + k) cs a (by omega) fit
  refine quoted?_eq_some.2 ⟨q, rest.take k ++ a, k, ?_, quote, exact q a closing, ?_⟩
  · rw [letters, drop_append_of_le_length (by rw [length_take]; omega), drop_take,
      opening, show stringLetters cs + 1 + k - stringLetters cs = k + 1 by omega, take_succ_cons,
      cons_append]
  · rw [letters]

end Quoted

theorem string?_le : string? cs = some n → n ≤ cs.length := quoted?_le stringRest?_le

theorem string?_exact : Exact string? := quoted?_exact stringRest?_le fun q => stringRest?_exact q false

theorem tripleOpening?_eq_some : tripleOpening? cs = some n ↔
    ∃ q rest, cs.drop (stringLetters cs) = q :: q :: q :: rest ∧ isQuote q = true ∧
      n = stringLetters cs + 3 := by
  refine quoted?_eq_some.trans ⟨?_, ?_⟩
  · rintro ⟨q, _, _, opening, quote, found, rfl⟩
    obtain ⟨⟨rest, rfl⟩, ⟨⟩⟩ := Option.ite_none_right_eq_some.1 found
    exact ⟨q, rest, opening, quote, rfl⟩
  · rintro ⟨q, rest, opening, quote, rfl⟩
    exact ⟨q, _, 2, opening, quote, if_pos ⟨rest, rfl⟩, rfl⟩

theorem tripleOpening?_local : Local tripleOpening? := by
  have inside {q : Char} {cs : Text} {n : Nat} (h : (if [q, q] <+: cs then some 2 else none) = some n) :
      n ≤ cs.length := by
    obtain ⟨found, ⟨⟩⟩ := Option.ite_none_right_eq_some.1 h
    exact found.length_le
  refine Exact.local (quoted?_exact inside fun q cs n a h => ?_) (quoted?_le inside)
  obtain ⟨⟨rest, rfl⟩, ⟨⟩⟩ := Option.ite_none_right_eq_some.1 h
  exact if_pos ⟨a, rfl⟩

theorem continuation?_eq_some : continuation? cs = some n ↔
    ∃ rest k, cs = '\\' :: rest ∧ lineEnd? rest = some k ∧ n = k + 1 := by
  unfold continuation?
  split
  · rename_i rest
    rw [Option.map_eq_some_iff]
    constructor
    · rintro ⟨k, hk, rfl⟩
      exact ⟨rest, k, rfl, hk, rfl⟩
    · rintro ⟨rest, k, eq, hk, rfl⟩
      cases eq
      exact ⟨k, hk, rfl⟩
  · rename_i other
    refine ⟨nofun, ?_⟩
    rintro ⟨rest, k, rfl, _⟩
    exact absurd rfl (other rest)

theorem continuation?_local : Local continuation? where
  fit := by
    intro cs n h
    obtain ⟨rest, k, rfl, found, rfl⟩ := continuation?_eq_some.1 h
    exact Nat.succ_le_succ (lineEnd?_local.fit found)
  cut := by
    intro w a n h le
    obtain ⟨rest, k, eq, found, rfl⟩ := continuation?_eq_some.1 h
    cases w with
    | nil => simp at le
    | cons c w =>
      obtain ⟨rfl, rfl⟩ := cons.inj eq
      exact continuation?_eq_some.2 ⟨w, k, rfl, lineEnd?_local.cut found (Nat.le_of_succ_le_succ le), rfl⟩
  grow := by
    intro w n a h
    obtain ⟨rest, k, rfl, found, rfl⟩ := continuation?_eq_some.1 h
    obtain ⟨m, hm⟩ := lineEnd?_local.grow a found
    exact ⟨m + 1, continuation?_eq_some.2 ⟨rest ++ a, m, rfl, hm, rfl⟩⟩

/-- Recognising a lexeme is local. -/
theorem size?_local : Local size? :=
  continuation?_local.orElse (comment?_local.orElse (tripleOpening?_local.orElse
    (number?_local.orElse (mark?_local.orElse ((string?_exact.local string?_le).orElse name?_local)))))

theorem lexes_of_next? {next : Next} (h : next? cs = some next) :
    ∃ gap x rest, cs = gap ++ (x ++ rest) ∧ Lexes gap x rest := by
  unfold next? at h
  simp only at h
  split at h
  · rename_i size hs
    split at h
    · rename_i pos
      cases h
      have bound := size?_local.fit hs
      have blanks : cs.takeWhile isSeparator = cs.take (span isSeparator cs) :=
        prefix_iff_eq_take.1 ( takeWhile_prefix _)
      have size_eq := length_take_of_le bound
      refine ⟨cs.take (span isSeparator cs), (cs.drop (span isSeparator cs)).take size,
        (cs.drop (span isSeparator cs)).drop size, ?_, ?_, ?_, ?_⟩
      · rw [take_append_drop, take_append_drop]
      · intro c hc
        rw [← blanks] at hc
        exact all_eq_true.1 all_takeWhile c hc
      · intro none
        rw [none] at size_eq
        exact absurd size_eq.symm (Nat.ne_of_gt pos)
      · rwa [take_append_drop, size_eq]
    · cases h
  · cases h

/-- Induction along a line, lexeme by lexeme. -/
theorem lexeme_induction {P : Text → Prop} (nil : P [])
    (stray : ∀ c cs, next? (c :: cs) = none → P cs → P (c :: cs))
    (lexeme : ∀ gap x rest, Lexes gap x rest → (∀ us, us <:+ rest → P us) → P (gap ++ (x ++ rest)))
    (cs : Text) : P cs := by
  induction hn : cs.length using Nat.strongRecOn generalizing cs with
  | _ n ih =>
  subst hn
  cases cs with
  | nil => exact nil
  | cons c cs =>
    cases found : next? (c :: cs) with
    | none => exact stray c cs found (ih _ (Nat.lt_succ_self _) cs rfl)
    | some next =>
      obtain ⟨gap, x, rest, eq, lexes⟩ := lexes_of_next? found
      rw [eq]
      refine lexeme gap x rest lexes fun us suffix => ih _ ?_ us rfl
      have pos := length_pos_iff.2 lexes.nonempty
      have le := suffix.length_le
      rw [eq, length_append, length_append]
      omega

/-! ## Closing quotes -/

theorem Closing.find?_exact (closing : Closing) : Exact closing.find? := by
  intro cs n a h
  unfold find? at h ⊢
  have ne := closing.quotes_ne_nil
  generalize closing.quotes = quotes at h ne ⊢
  -- quotes that are not there do not come up behind the end
  have same : ∀ {k : Nat} {w : Text}, quotes.length ≤ k → k ≤ w.length →
      (quotes <+: w.take k ++ a ↔ quotes <+: w) := by
    intro k w least fit
    have bound : quotes.length ≤ (w.take k).length := by rwa [length_take_of_le fit]
    rw [isPrefix_append_of_length bound, prefix_take_iff, and_iff_left least]
  fun_induction closeBy? quotes cs generalizing n with
  | case1 | case3 | case4 => cases h
  | case2 c cs found =>
    cases h
    obtain ⟨_, eq⟩ := found
    rw [← eq]
    obtain ⟨q, qs, rfl⟩ := exists_cons_of_ne_nil ne
    unfold closeBy?
    simp
  | case5 d ds newline absent ih =>
    obtain ⟨k, hk, rfl⟩ := Option.map_eq_some_iff.1 h
    have bounds := closeBy?_le hk
    rw [← same (k := k + 2) (by omega) (by simp; omega)] at absent
    unfold closeBy?
    simp_all
  | case6 c cs absent backslash ih =>
    obtain ⟨k, hk, rfl⟩ := Option.map_eq_some_iff.1 h
    have bounds := closeBy?_le hk
    rw [← same (k := k + 1) (by omega) (by simp; omega)] at absent
    unfold closeBy?
    simp_all

theorem Closing.find?_last {closing : Closing} (h : closing.find? cs = some n) :
    ∃ q ∈ closing.quotes, (cs.take n).getLast? = some q := by
  unfold find? at h
  have ne := closing.quotes_ne_nil
  fun_induction closeBy? closing.quotes cs generalizing n with
  | case1 | case3 | case4 => cases h
  | case2 c cs found =>
    cases h
    obtain ⟨_, eq⟩ := found
    rw [← eq, take_left]
    exact ⟨_, getLast_mem ne, getLast?_eq_some_getLast ne⟩
  | case5 _ _ _ _ ih | case6 _ _ _ _ ih =>
    obtain ⟨k, hk, rfl⟩ := Option.map_eq_some_iff.1 h
    obtain ⟨q, mem, last⟩ := ih hk
    exact ⟨q, mem, by simp [getLast?_cons, last]⟩

end Retouch.Lexeme
