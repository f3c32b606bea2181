import Retouch.Proofs.PatternMeaning
import Retouch.Proofs.PatternTrees

/-!
# Compiling keeps the meaning

A text in the language of patterns is read as an expression, and the pattern that is compiled from it
takes the same spans of trees (`Language.Made.compileTree_means`).  So the pattern of a text matches a
tree if and only if the tree is in the span of what is read (`compile_denotes`).

One relation carries the proof, `Means p e`: the pattern takes what the expression denotes, and is
steady where the expression is regular.  It is kept by everything that compiling does on the way, such
as to leave out a bracket with a single part, to join two wild patterns into one with multiplied
bounds, or to put a name on a pattern.  The trees of the language are then compiled one symbol at a
time, by induction on the fuel.
-/

namespace Retouch.Pattern

open List

open Span
open Tree (NarrowAll)

variable {α : Type}

/-! ## Wild patterns -/

variable {n : Option Text} {min : Nat} {os : List (List Pattern)}

theorem wild?_eq_ok {os : Option (List (List Pattern))} {min max : Int} {q : Pattern}
    (h : wild? os min max n = .ok q) :
    q = os.elim (anything min.toNat max.toNat n) (fun os => choice os min.toNat max.toNat n) ∧
      0 ≤ min ∧ min ≤ max ∧ max ≤ unbounded := by
  unfold wild? at h
  split at h
  · cases h
  · rename_i fit
    have fit : boundsFit min max = true := by simpa using fit
    simp only [boundsFit, Bool.and_eq_true, decide_eq_true_eq] at fit
    refine ⟨?_, fit.1.1, fit.1.2, fit.2⟩
    cases os with
    | none => exact (Except.ok.inj h).symm
    | some os =>
      simp only at h
      split at h
      · cases h
      · exact (Except.ok.inj h).symm

/-- Joined bounds, as numbers. -/
theorem toNat_natCast_mul (a b : Nat) : ((a : Int) * (b : Int)).toNat = a * b := by
  rw [← Int.natCast_mul, Int.toNat_natCast]

theorem takes_withName (n : Option Text) (p : Pattern) : Takes (p.withName n) = (Takes p : Span α) := by
  cases p <;> simp [withName, Takes]

theorem isNegated_withName (n : Option Text) (p : Pattern) :
    (p.withName n).isNegated = p.isNegated := by
  cases p <;> rfl

theorem Steady.withName {p : Pattern} (h : Steady α p) (other : n ≠ some greedyName) :
    Steady α (p.withName n) := by
  cases p with
  | choice os min max _ => exact ⟨other, h.2⟩
  | leaf | tree | within | anything | finish | without => exact h

def Tidy (p : Pattern) : Prop := ∀ q n, p ≠ choice [[q]] 1 1 n

theorem takesAny_singleton (p : Pattern) : TakesAny [[p]] = (Takes p : Span α) := by
  simp [TakesAny, takesAll_singleton]

theorem times_one_true (k : Nat) {taken rest : List (Tree α)} :
    times (one fun _ => True) k taken rest ↔ taken.length = k := by
  induction k generalizing taken with
  | zero => exact length_eq_zero_iff.symm
  | succ k ih =>
    cases taken with
    | nil =>
      refine iff_of_false ?_ nofun
      rintro ⟨_, v, eq, ⟨t, rfl, -⟩, -⟩
      cases eq
    | cons t ts =>
      rw [length_cons, Nat.succ_inj, ← ih]
      constructor
      · rintro ⟨_, v, eq, ⟨t, rfl, -⟩, later⟩
        cases eq
        exact later
      · exact fun later => ⟨[t], ts, rfl, ⟨t, rfl, trivial⟩, later⟩

theorem takes_anything (lo hi : Nat) (n : Option Text) :
    Takes (anything lo hi n) = (between (one fun _ => True) lo hi : Span α) := by
  funext taken rest
  rw [Takes]
  refine propext ⟨fun h => ⟨taken.length, h.1, h.2, (times_one_true _).2 rfl⟩, ?_⟩
  rintro ⟨k, low, high, h⟩
  rw [times_one_true] at h
  exact h ▸ ⟨low, high⟩

theorem takes_choice_choice {lo hi max : Nat} {n' : Option Text} (one : lo ≤ 1) (inner : lo ≤ hi)
    (outer : min ≤ max) :
    Takes (choice os (min * lo) (max * hi) n') =
      (Takes (choice [[choice os lo hi n']] min max n) : Span α) := by
  rw [Takes, Takes, takesAny_singleton, Takes, between_between one inner outer]

theorem Steady.joined {lo hi max : Nat} {n' : Option Text}
    (h : Steady α (choice [[choice os lo hi n']] min max n)) (one : lo ≤ 1) :
    Steady α (choice os (min * lo) (max * hi) n') ∧
      Takes (choice os (min * lo) (max * hi) n') =
        (Takes (choice [[choice os lo hi n']] min max n) : Span α) := by
  obtain ⟨-, ⟨⟨⟨greedy, options, inner, repeats⟩, -⟩, -⟩, outer, repeats'⟩ := h
  refine ⟨⟨greedy, options, Nat.mul_le_mul outer inner, ?_⟩, takes_choice_choice one inner outer⟩
  rcases repeats with small | never
  · rcases repeats' with small' | never'
    · exact .inl (Nat.mul_le_mul small' small)
    · rw [takesAny_singleton, Takes] at never'
      obtain rfl | rfl := Nat.le_one_iff_eq_zero_or_eq_one.1 small
      · exact .inl (Nat.zero_le 1)
      · obtain rfl | rfl := Nat.le_one_iff_eq_zero_or_eq_one.1 one
        · exact absurd (between_zero_one.2 (.inl rfl)) (never' [] Tree.narrowAll_nil)
        · rw [between_one] at never'
          exact .inr never'
  · exact .inr never

theorem optimize_spec {p q : Pattern} (h : p.optimize = .ok q) (tidy : Tidy p) :
    Tidy q ∧ q.isNegated = p.isNegated ∧
      (Steady α p → Steady α q ∧ Takes q = (Takes p : Span α)) := by
  have same : Tidy p ∧ p.isNegated = p.isNegated ∧
      (Steady α p → Steady α p ∧ Takes p = (Takes p : Span α)) :=
    ⟨tidy, rfl, fun steady => ⟨steady, rfl⟩⟩
  unfold optimize at h
  split at h
  · cases h
    refine ⟨nofun, rfl, fun _ => ⟨trivial, ?_⟩⟩
    rw [takes_anything, between_one, Takes]
    simp [kindFits]
  · rename_i p min max n
    split at h
    · rename_i one
      obtain ⟨rfl, rfl, -⟩ := one
      exact absurd rfl (tidy p n)
    · split at h
      · unfold joined at h
        split at h
        · split at h
          · rename_i small
            rw [Option.getD_some] at h
            obtain ⟨rfl, -⟩ := wild?_eq_ok h
            rw [toNat_natCast_mul, toNat_natCast_mul]
            refine ⟨nofun, rfl, ?_⟩
            rintro ⟨-, ⟨⟨inner, -⟩, -⟩, outer, -⟩
            refine ⟨Nat.mul_le_mul outer inner, ?_⟩
            rw [Option.elim_none, takes_anything, Takes, takesAny_singleton, takes_anything,
              between_between small.1 inner outer]
          · cases h
            exact same
        · split at h
          · rename_i small
            rw [Option.getD_some] at h
            obtain ⟨rfl, -⟩ := wild?_eq_ok h
            refine ⟨?_, rfl, fun steady => steady.joined small.1⟩
            rintro q m eq
            injection eq with _ low high _
            obtain rfl := Nat.eq_one_of_mul_eq_one_right low
            obtain rfl := Nat.eq_one_of_mul_eq_one_right high
            exact tidy _ _ rfl
          · cases h
            exact same
        · cases h
          exact same
      · cases h
        exact same
  · cases h
    exact same

/-! ## Patterns with heads -/

mutual
def Headed : Pattern → Prop
  | leaf _ _ _ | tree _ _ | within _ _ _ | finish _ => True
  | without p _ => Headed p
  | anything _ _ _ => False
  | choice os _ _ _ => HeadedAny os

def HeadedAll : List Pattern → Prop
  | [] => True
  | p :: ps => Headed p ∧ HeadedAll ps

def HeadedAny : List (List Pattern) → Prop
  | [] => True
  | o :: os => HeadedAll o ∧ HeadedAny os
end

theorem Headed.withName {p : Pattern} (h : Headed p) (n : Option Text) : Headed (p.withName n) := by
  cases p <;> exact h

theorem Headed.optimize {p q : Pattern} (h : Headed p) (made : p.optimize = .ok q) : Headed q := by
  fun_induction Pattern.optimize p with
  | case1 n => exact h.elim
  | case2 p min max n one ih => exact ih h.1.1 made
  | case3 p min max n many small =>
    have inner := h.1.1
    cases p with
    | anything lo hi n' => exact inner.elim
    | choice os lo hi n' =>
      rw [joined] at made
      split at made
      · rw [Option.getD_some] at made
        obtain ⟨rfl, -⟩ := wild?_eq_ok made
        exact inner
      · cases made
        exact h
    | leaf | tree | within | finish | without =>
      cases made
      exact h
  | case4 | case5 => cases made; exact h

/-! ## Patterns that mean expressions -/

theorem Expr.isNegation_repeated (e : Expr) {max : Option Nat} (more : ¬ (min = 1 ∧ max = some 1)) :
    (repeated e min max).isNegation = false := by
  match min, max, more with
  | 0, _, _ | 1, none, _ | 1, some 0, _ | 1, some (_ + 2), _ | _ + 2, _, _ => rfl
  | 1, some 1, more => exact absurd ⟨rfl, rfl⟩ more

/-- The pattern takes what the expression denotes. -/
structure Means (α : Type) (p : Pattern) (e : Expr) : Prop where
  tidy : Tidy p
  negated : p.isNegated = e.isNegation
  steady : e.Regular α → Steady α p
  agrees : e.Regular α → Agree (Takes p) (e.Denotes : Span α)
  headed : Headed p

theorem kindFits_iff (k : Option Kind) (t : Tree α) :
    kindFits k t = true ↔ ∀ k', k = some k' → t.kind = k' := by
  cases k with
  | none => exact iff_of_true rfl nofun
  | some k =>
    rw [kindFits, beq_iff_eq]
    exact ⟨fun h k' eq => Option.some.inj eq ▸ h, fun h => h k rfl⟩

namespace Means

variable {p q : Pattern} {e : Expr} {ps : List Pattern} {es : List Expr}

theorem optimize (h : Means α p e) (made : p.optimize = .ok q) : Means α q e := by
  obtain ⟨tidy, negated, keeps⟩ := @optimize_spec α p q made h.tidy
  refine ⟨tidy, negated.trans h.negated, fun regular => (keeps (h.steady regular)).1, ?_,
    h.headed.optimize made⟩
  intro regular
  rw [(keeps (h.steady regular)).2]
  exact h.agrees regular

theorem anyOf_one (h : Means α p e) : Means α p (.anyOf [e]) := by
  refine ⟨h.tidy, h.negated, fun regular => h.steady regular.1, ?_, h.headed⟩
  intro regular taken rest narrow
  rw [h.agrees regular.1 taken rest narrow]
  exact (iff_of_eq (or_false _)).symm

theorem inOrder_one (h : Means α p e) : Means α p (.inOrder [e]) := by
  refine ⟨h.tidy, h.negated, fun regular => h.steady regular.1, ?_, h.headed⟩
  intro regular taken rest narrow
  show _ ↔ seq e.Denotes nothing taken rest
  rw [h.agrees regular.1 taken rest narrow, seq_nothing]

section

variable (h : List.Forall₂ (Means α) ps es)
include h

theorem steadyAll (regular : Expr.RegularAll α es) : SteadyAll α ps := by
  induction h with
  | nil => trivial
  | cons first _ ih => exact ⟨first.steady regular.1, ih regular.2⟩

theorem agreesAll (regular : Expr.RegularAll α es) :
    Agree (TakesAll ps) (Expr.DenotesAll es : Span α) := by
  induction h with
  | nil => exact .refl nothing
  | cons first _ ih => exact (first.agrees regular.1).seq (ih regular.2)

theorem steadyAny (regular : Expr.RegularAll α es) : SteadyAny α (ps.map fun p => [p]) := by
  induction h with
  | nil => trivial
  | cons first _ ih => exact ⟨⟨first.steady regular.1, trivial⟩, ih regular.2⟩

theorem agreesAny (regular : Expr.RegularAll α es) :
    Agree (TakesAny (ps.map fun p => [p])) (Expr.DenotesAny es : Span α) := by
  induction h with
  | nil => exact .refl fun _ _ => False
  | cons first _ ih =>
    intro taken rest narrow
    rw [map_cons, TakesAny, takesAll_singleton]
    exact or_congr (first.agrees regular.1 taken rest narrow) (ih regular.2 taken rest narrow)

theorem headedAll : HeadedAll ps := by
  induction h with
  | nil => trivial
  | cons first _ ih => exact ⟨first.headed, ih⟩

theorem headedAny : HeadedAny (ps.map fun p => [p]) := by
  induction h with
  | nil => trivial
  | cons first _ ih => exact ⟨⟨first.headed, trivial⟩, ih⟩

theorem anyOf (many : ps.length ≠ 1) :
    Means α (choice (ps.map fun p => [p]) 1 1 none) (.anyOf es) := by
  have others := h.length_eq ▸ many
  refine ⟨?_, ?_, fun regular => ?_, fun regular => ?_, headedAny h⟩
  · intro q n eq
    injection eq with options
    have := congrArg length options
    rw [length_map] at this
    exact many this
  · match es, others with
    | [], _ => rfl
    | _ :: _ :: _, _ => rfl
  · exact ⟨nofun, steadyAny h regular, le_refl 1, .inl (le_refl 1)⟩
  · rw [Takes, between_one]
    exact agreesAny h regular

theorem inOrder (many : ps.length ≠ 1) : Means α (choice [ps] 1 1 none) (.inOrder es) := by
  have others := h.length_eq ▸ many
  refine ⟨?_, ?_, fun regular => ?_, fun regular => ?_, headedAll h, trivial⟩
  · intro q n eq
    injection eq with options
    rw [cons.inj options |>.1] at many
    exact many rfl
  · match es, others with
    | [], _ => rfl
    | _ :: _ :: _, _ => rfl
  · exact ⟨nofun, ⟨steadyAll h regular, trivial⟩, le_refl 1, .inl (le_refl 1)⟩
  · rw [Takes, between_one]
    intro taken rest narrow
    simp only [TakesAny, or_false]
    exact agreesAll h regular taken rest narrow

end

theorem absent (h : Means α p e) : Means α (without p none) (.absent e) := by
  refine ⟨nofun, rfl, h.steady, fun regular => ?_, h.headed⟩
  exact (h.agrees regular).absent

theorem named (h : Means α p e) (n : Text) : Means α (p.withName (some n)) (.named n e) := by
  refine ⟨?_, ?_, fun regular => ?_, fun regular => ?_, h.headed.withName _⟩
  · intro q m eq
    cases p with
    | choice os min max n' =>
      injection eq with options low high
      exact h.tidy q n' (by rw [options, low, high])
    | leaf | tree | within | anything | finish | without => cases eq
  · rw [isNegated_withName, h.negated]
    rfl
  · exact (h.steady regular.2).withName fun eq => regular.1 (Option.some.inj eq)
  · rw [takes_withName]
    exact h.agrees regular.2

theorem optional (h : Means α p e) : Means α (choice [[p]] 0 1 none) (.optional e) := by
  refine ⟨nofun, rfl, fun regular => ?_, fun regular => ?_, ⟨h.headed, trivial⟩, trivial⟩
  · exact ⟨nofun, ⟨⟨h.steady regular, trivial⟩, trivial⟩, Nat.zero_le 1, .inl (le_refl 1)⟩
  · intro taken rest narrow
    rw [Takes, takesAny_singleton, between_zero_one]
    exact or_congr_right (h.agrees regular taken rest narrow)

theorem once (h : Means α p e) : Means α p (.repeated e 1 (some 1)) := by
  refine ⟨h.tidy, h.negated, fun regular => h.steady regular.2, ?_, h.headed⟩
  intro regular taken rest narrow
  rw [h.agrees regular.2 taken rest narrow]
  constructor
  · exact fun denotes => ⟨1, le_refl 1, fun m eq => by cases eq; exact le_refl 1,
      by rwa [times_one]⟩
  · rintro ⟨k, low, high, denotes⟩
    rwa [le_antisymm (high 1 rfl) low, times_one] at denotes

theorem repeated (h : Means α p e) {min : Nat} {max : Option Nat}
    (order : min ≤ max.getD unbounded) (more : ¬ (min = 1 ∧ max.getD unbounded = 1)) :
    Means α (choice [[p]] min (max.getD unbounded) none) (.repeated e min max) := by
  refine ⟨?_, ?_, fun regular => ?_, fun regular => ?_, ⟨h.headed, trivial⟩, trivial⟩
  · intro q n eq
    injection eq with _ low high
    exact more ⟨low, high⟩
  · refine (Expr.isNegation_repeated e fun eq => more ⟨eq.1, ?_⟩).symm
    rw [eq.2]
    rfl
  · refine ⟨nofun, ⟨⟨h.steady regular.2, trivial⟩, trivial⟩, order, .inr fun rest narrow takes => ?_⟩
    rw [takesAny_singleton] at takes
    exact regular.1 rest ((h.agrees regular.2 [] rest narrow).1 takes)
  · intro taken rest narrow
    rw [Takes, takesAny_singleton, (h.agrees regular.2).between min _ taken rest narrow]
    refine exists_congr fun k => and_congr_right fun _ => and_congr_left fun denotes => ?_
    cases max with
    | some m => exact ⟨fun high m' eq => Option.some.inj eq ▸ high, fun high => high m rfl⟩
    | none =>
      have within := le_length_of_times (fun v _ => regular.1 v) narrow denotes
      have short := narrow.1
      rw [length_append] at short
      refine iff_of_true ?_ nofun
      show k ≤ unbounded
      omega

theorem literal (value : Text) :
    Means α (leaf (Language.guessedKind value) (some value) none) (.literal value) := by
  refine ⟨nofun, rfl, fun _ => trivial, fun _ _ _ _ => ?_, trivial⟩
  refine exists_congr fun t => and_congr_right fun _ => ?_
  beta_reduce
  rw [leafFits, Bool.and_eq_true, Bool.and_eq_true, kindFits_iff, and_assoc]
  refine and_congr_right fun _ => and_comm.trans (and_congr_right fun _ => ?_)
  have same : value.head?.any Text.isLetter = Lexeme.headIs Text.isLetter value := by
    cases value <;> rfl
  rw [same, Language.guessedKind]
  split
  · exact ⟨fun h => h _ rfl, fun h k' eq => Option.some.inj eq ▸ h⟩
  · rfl

theorem token (k : Option Kind) : Means α (leaf k none none) (.token k) := by
  refine ⟨nofun, rfl, fun _ => trivial, fun _ _ _ _ => ?_, trivial⟩
  refine exists_congr fun t => and_congr_right fun _ => ?_
  beta_reduce
  rw [leafFits, Bool.and_true, Bool.and_eq_true, kindFits_iff]

theorem tree (k : Option Kind) : Means α (.tree k none) (.tree k) := by
  refine ⟨nofun, rfl, fun _ => trivial, fun _ _ _ _ => ?_, trivial⟩
  exact exists_congr fun t => and_congr_right fun _ => kindFits_iff k t

theorem node (k : Option Kind) (h : Means α p e) : Means α (within k [p] none) (.node k e) := by
  refine ⟨nofun, rfl, fun regular => ⟨h.steady regular, trivial⟩, fun regular _ _ narrow => ?_,
    trivial⟩
  refine exists_congr fun t => and_congr_right ?_
  rintro rfl
  have inside := (append_nil t.children).symm ▸ (narrow.2 t mem_cons_self).children
  beta_reduce
  rw [kindFits_iff, takesAll_singleton, h.agrees regular _ _ inside, ← h.negated]
  refine and_congr_right fun _ => and_congr_left fun _ => ?_
  rw [forall_mem_singleton]
  refine or_iff_right_of_imp fun wild => ?_
  cases p with
  | anything | choice => rfl
  | leaf | tree | within | finish | without => cases wild

end Means

/-! ## Compiling trees -/

namespace Language

open Grammar

variable {g : Grammar}

variable {cs back basic : List SyntaxTree} {items : List Item} {os : List (List Pattern)} {e : Expr}

theorem readAll_eq_some (h : Forall₂ (fun c item => read c = some item) cs items) :
    readAll cs = some items := by
  induction h with
  | nil => rfl
  | cons first _ ih => rw [readAll_cons, first, ih]; rfl

theorem IsToken.read {k : Kind} {c : SyntaxTree} (h : IsToken k c) :
    ∃ t, c = .leaf () t ∧ t.kind = k ∧ read c = some (.token t) := by
  obtain ⟨t, rfl, kind⟩ := h
  exact ⟨t.token, rfl, kind, rfl⟩

abbrev Reads (c : SyntaxTree) (e : Expr) : Prop := read c = some (.expr e)

theorem Alternated.readOptions (h : Alternated g cs) {es : List Expr}
    (reads : Forall₂ Reads (evens cs) es) :
    ∃ items, readAll cs = some items ∧ Language.readOptions items = some es := by
  induction h generalizing es with
  | one =>
    obtain ⟨e, _, first, last, rfl⟩ := forall₂_cons_left_iff.1 reads
    cases forall₂_nil_left_iff.1 last
    exact ⟨[.expr e], readAll_eq_some (.cons first .nil), rfl⟩
  | more _ between _ ih =>
    obtain ⟨e, es, first, later, rfl⟩ := forall₂_cons_left_iff.1 reads
    obtain ⟨items, reads, options⟩ := ih later
    obtain ⟨t, -, -, bar⟩ := between.read
    refine ⟨.expr e :: .token t :: items, ?_, ?_⟩
    · rw [readAll_cons, first, readAll_cons, bar, reads]
      rfl
    · rw [Language.readOptions, options]
      rfl

theorem readParts_eq {es : List Expr} (reads : Forall₂ Reads cs es) :
    readAll cs = some (es.map .expr) ∧ readParts (es.map .expr) = some es := by
  refine ⟨readAll_eq_some ?_, ?_⟩
  · rwa [forall₂_map_right_iff]
  · clear reads
    induction es with
    | nil => rfl
    | cons e es ih => rw [map_cons, readParts, ih]; rfl

theorem mem_evens (h : Alternated g cs) : ∀ c ∈ evens cs, Is g alternative c := by
  induction h with
  | one first => exact forall_mem_singleton.2 first
  | more first _ _ ih => exact forall_mem_cons.2 ⟨first, ih⟩

def IsExpr (g : Grammar) (t : SyntaxTree) : Prop :=
  Is g alternatives t ∨ Is g alternative t ∨ Is g unit t ∨ Is g negatedUnit t

/-- What is compiled with so much fuel means what is read. -/
structure Compiled (α : Type) (g : Grammar) (fuel : Nat) : Prop where
  tree : ∀ t p, IsExpr g t → compileTree fuel t = .ok p → ∃ e, Reads t e ∧ Means α p e
  all : ∀ ts ps, (∀ t ∈ ts, IsExpr g t) → compileAll fuel ts = .ok ps →
    ∃ es, List.Forall₂ Reads ts es ∧ List.Forall₂ (Means α) ps es
  basic : ∀ ts p, Basic g ts → compileBasic fuel ts = .ok p →
    ∃ items e, readAll ts = some items ∧ readBasic items = some e ∧ Means α p e

variable {fuel : Nat} {t : SyntaxTree} {p : Pattern}

theorem mapError_eq_ok {ε ε' β : Type} {x : Except ε β} {f : ε → ε'} {b : β}
    (h : x.mapError f = .ok b) : x = .ok b := by
  cases x with
  | ok a => exact congrArg Except.ok (Except.ok.inj h)
  | error e => cases h

theorem wild_eq_ok {min max : Nat} {q : Pattern} (h : wild os min max = .ok q) :
    q = choice os min max none ∧ min ≤ max := by
  obtain ⟨rfl, -, order, -⟩ := wild?_eq_ok (mapError_eq_ok h)
  exact ⟨rfl, Int.ofNat_le.1 order⟩

theorem means_of_wild (means : Means α (choice os 1 1 none) e)
    (h : (do optimized (← wild os 1 1)) = .ok p) : Means α p e := by
  obtain ⟨q, made, h⟩ := bind_eq_ok.1 h
  obtain ⟨rfl, -⟩ := wild_eq_ok made
  exact means.optimize (mapError_eq_ok h)

section

variable (ih : Compiled α g fuel) (made : Made g) (h : compileTree (fuel + 1) t = .ok p)
include ih made h

theorem Compiled.alternatives (derived : Is g alternatives t) : ∃ e, Reads t e ∧ Means α p e := by
  obtain ⟨cs, rfl, children⟩ := made.alternatives_children derived
  obtain ⟨ps, run, h⟩ := bind_eq_ok.1 h
  obtain ⟨es, reads, means⟩ :=
    ih.all _ ps (fun c hc => .inr (.inl (mem_evens children c hc))) run
  obtain ⟨_, all, options⟩ := children.readOptions reads
  refine ⟨.anyOf es, ?_, ?_⟩
  · rw [Reads, read_node, all]
    simp [readNode, options, alternatives, matcher]
  · rcases means with _ | ⟨first, _ | ⟨second, later⟩⟩
    · exact means_of_wild (.anyOf .nil nofun) h
    · cases h
      exact first.anyOf_one
    · exact means_of_wild (.anyOf (.cons first (.cons second later)) nofun) h

theorem Compiled.alternative (derived : Is g alternative t) : ∃ e, Reads t e ∧ Means α p e := by
  obtain ⟨cs, rfl, children⟩ := made.alternative_children derived
  obtain ⟨ps, run, h⟩ := bind_eq_ok.1 h
  obtain ⟨es, reads, means⟩ := ih.all _ ps (fun c hc => .inr (.inr (children c hc))) run
  obtain ⟨all, parts⟩ := readParts_eq reads
  refine ⟨.inOrder es, ?_, ?_⟩
  · rw [Reads, read_node, all]
    simp [readNode, parts, alternative, Language.alternatives, matcher]
  · rcases means with _ | ⟨first, _ | ⟨second, later⟩⟩
    · exact means_of_wild (.inOrder .nil nofun) h
    · cases h
      exact first.inOrder_one
    · exact means_of_wild (.inOrder (.cons first (.cons second later)) nofun) h

theorem Compiled.negatedUnit (derived : Is g negatedUnit t) : ∃ e, Reads t e ∧ Means α p e := by
  obtain ⟨c, cs, rfl, ⟨token, -⟩, basic⟩ := made.negatedUnit_children derived
  obtain ⟨q, run, h⟩ := bind_eq_ok.1 h
  cases h
  obtain ⟨_, e, all, reads, means⟩ := ih.basic cs q basic run
  obtain ⟨_, -, -, first⟩ := token.read
  refine ⟨.absent e, ?_, means.absent⟩
  rw [Reads, read_node, readAll_cons, first, all]
  simp [readNode, reads, negatedUnit, Language.alternative, Language.alternatives, matcher, unit]

end

theorem Made.details_content (made : Made g) {d : SyntaxTree} (derived : Is g details d) :
    ∃ inner, content? [d] = some inner ∧ Is g alternatives inner ∧
      ∀ e, Reads inner e → read d = some (.details e) := by
  obtain ⟨a, b, c, rfl, opening, inside, closing⟩ := made.details_children derived
  refine ⟨b, rfl, inside, fun e reads => ?_⟩
  obtain ⟨_, -, -, first⟩ := opening.read
  obtain ⟨_, -, -, last⟩ := closing.read
  rw [read_node, readAll_eq_some (.cons first (.cons reads (.cons last .nil)))]
  rfl

theorem means_ofToken {name : Text} (capitals : Text.allUpper name = true) {bare : Bool}
    (h : ofToken name bare = .ok p) : bare = true ∧ ∃ e, readName name none = some e ∧ Means α p e := by
  rw [ofToken] at h
  split at h
  · cases h
  · rename_i k known
    cases bare with
    | false => cases h
    | true =>
      cases h
      refine ⟨rfl, .token k, ?_, .token k⟩
      rw [readName, if_pos capitals, known]
      rfl

theorem exists_kind {name : Text} {u : Unit} (shown : ¬ isHidden name = true)
    (known : checkSymbol name = .ok u) :
    ∃ k, (if name = "any".toList then none else Language.symbol? name) = k ∧
      (if name = "any".toList then some none else (Language.symbol? name).map some) = some k := by
  refine ⟨_, rfl, ?_⟩
  by_cases any : name = "any".toList
  · rw [if_pos any, if_pos any]
  · rw [if_neg any, if_neg any]
    cases symbol : Language.symbol? name with
    | some k => rfl
    | none =>
      rw [checkSymbol, if_pos ⟨any, by simpa using shown, symbol⟩] at known
      cases known

theorem means_ofSymbol {name : Text} (capitals : ¬ Text.allUpper name = true) {u : Unit}
    (known : checkSymbol name = .ok u) {content : Option Pattern} {inside : Option Expr}
    (means : Option.Rel (Means α) content inside) (h : ofSymbol name content = .ok p) :
    ∃ e, readName name inside = some e ∧ Means α p e := by
  rw [ofSymbol] at h
  split at h
  · cases h
  rename_i shown
  obtain ⟨k, kind, eq⟩ := exists_kind shown known
  simp only [kind] at h
  cases means with
  | none =>
    cases h
    refine ⟨.tree k, ?_, .tree k⟩
    rw [readName, if_neg capitals]
    simp only [eq, Option.map_some]
  | some means =>
    cases h
    refine ⟨.node k _, ?_, .node k means⟩
    rw [readName, if_neg capitals]
    simp only [eq, Option.map_some]

theorem compileBasic_cons (t : SyntaxTree) (rest : List SyntaxTree) :
    compileBasic (fuel + 1) (t :: rest) =
      if t.kind = Kind.string then ofLiteral (leafText t)
      else if t.kind = Kind.name then
        if Text.allUpper (leafText t) then ofToken (leafText t) rest.isEmpty
        else do
          checkSymbol (leafText t)
          match content? rest with
          | none => ofSymbol (leafText t) none
          | some inner => do ofSymbol (leafText t) (some (← compileTree fuel inner))
      else (do
        let inner ← compileTree fuel (rest.headD t)
        if leafText t = "(" then return inner else wild [[inner]] 0 1) := rfl

theorem Compiled.name (ih : Compiled α g fuel) (made : Made g) {c : SyntaxTree} {rest : List SyntaxTree}
    (name : IsToken Kind.name c) (follows : rest = [] ∨ ∃ d, rest = [d] ∧ Is g details d)
    (h : compileBasic (fuel + 1) (c :: rest) = .ok p) :
    ∃ items e, readAll (c :: rest) = some items ∧ readBasic items = some e ∧ Means α p e := by
  obtain ⟨t, rfl, kind, first⟩ := name.read
  have other : t.kind ≠ .string := kind ▸ by decide
  rw [compileBasic_cons, if_neg (show ¬ (Tree.leaf () t).kind = .string from other),
    if_pos (show (Tree.leaf () t).kind = .name from kind)] at h
  split at h
  · rename_i capitals
    obtain ⟨bare, e, reads, means⟩ := means_ofToken capitals h
    obtain rfl := isEmpty_iff.1 bare
    refine ⟨_, e, readAll_eq_some (.cons first .nil), ?_, means⟩
    rwa [readBasic_token, if_neg other, if_pos kind]
  · rename_i capitals
    obtain ⟨_, known, h⟩ := bind_eq_ok.1 h
    rcases follows with rfl | ⟨d, rfl, inside⟩
    · obtain ⟨e, reads, means⟩ := means_ofSymbol capitals known .none h
      refine ⟨_, e, readAll_eq_some (.cons first .nil), ?_, means⟩
      rwa [readBasic_token, if_neg other, if_pos kind]
    · obtain ⟨inner, content, derived, second⟩ := made.details_content inside
      rw [content] at h
      obtain ⟨q, run, h⟩ := bind_eq_ok.1 h
      obtain ⟨e', reads', means'⟩ := ih.tree inner q (.inl derived) run
      obtain ⟨e, reads, means⟩ := means_ofSymbol capitals known (.some means') h
      refine ⟨_, e, readAll_eq_some (.cons first (.cons (second e' reads') .nil)), ?_, means⟩
      rwa [readBasic_details, if_pos kind]

theorem Compiled.basic_succ (ih : Compiled α g fuel) (made : Made g) {ts : List SyntaxTree}
    (basic : Basic g ts) (h : compileBasic (fuel + 1) ts = .ok p) :
    ∃ items e, readAll ts = some items ∧ readBasic items = some e ∧ Means α p e := by
  cases basic with
  | string string =>
    obtain ⟨t, rfl, kind, reads⟩ := string.read
    rw [compileBasic_cons, if_pos (show (Tree.leaf () t).kind = .string from kind), ofLiteral] at h
    refine ⟨[.token t], ?_⟩
    split at h
    · cases h
    · cases h
    · rename_i value _ literal
      cases h
      refine ⟨.literal value, readAll_eq_some (.cons reads .nil), ?_, .literal value⟩
      rw [readBasic_token, if_pos kind, show Text.Literal.value t.value.shown = .ok value from literal]
      rfl
  | name name => exact ih.name made name (.inl rfl) h
  | details name inside => exact ih.name made name (.inr ⟨_, rfl, inside⟩) h
  | bracketed opening inside closing kind kind' =>
    obtain ⟨t, rfl, eq, first⟩ := opening.read
    obtain ⟨t', rfl, -, last⟩ := closing.read
    have brackets : ∀ k ∈ [.leftParen, .leftBracket], k ≠ .string ∧ k ≠ Kind.name := by
      decide
    have others : (Tree.leaf () t).kind ≠ .string ∧ (Tree.leaf () t).kind ≠ Kind.name := by
      rw [Tree.kind, eq]
      exact brackets _ kind
    rw [compileBasic_cons, if_neg others.1, if_neg others.2] at h
    obtain ⟨q, run, h⟩ := bind_eq_ok.1 h
    obtain ⟨e, reads, means⟩ := ih.tree _ q (.inl inside) run
    refine ⟨_, _, readAll_eq_some (.cons first (.cons reads (.cons last .nil))), rfl, ?_⟩
    split at h
    · rename_i round
      cases h
      rwa [if_pos (show t.value.shown = "(".toList from round)]
    · rename_i square
      rw [if_neg (show ¬ t.value.shown = "(".toList from square), (wild_eq_ok h).1]
      exact means.optional

/-! ### Units -/

theorem readAll_append {as bs : List SyntaxTree} {items' : List Item} (first : readAll as = some items)
    (later : readAll bs = some items') : readAll (as ++ bs) = some (items ++ items') := by
  induction as generalizing items with
  | nil =>
    cases first
    exact later
  | cons a as ih =>
    obtain ⟨_, head, first⟩ := Option.bind_eq_some_iff.1 first
    obtain ⟨_, rest, rfl⟩ := Option.map_eq_some_iff.1 first
    rw [cons_append, readAll_cons, head, ih rest]
    rfl

theorem readBasic_cases (h : readBasic items = some e) :
    (∃ t, items = [.token t]) ∨ (∃ t e', items = [.token t, .details e']) ∨
      ∃ t e' t', items = [.token t, .expr e', .token t'] := by
  unfold readBasic at h
  split at h
  · exact .inl ⟨_, rfl⟩
  · exact .inr (.inl ⟨_, _, rfl⟩)
  · exact .inr (.inr ⟨_, _, _, rfl⟩)
  · cases h

/-- Something basic may be repeated, and needs no name. -/
theorem readUnit_basic (h : readBasic items = some e) :
    readRepeated items = some e ∧ readUnit items = some e := by
  obtain ⟨t, rfl⟩ | ⟨t, e', rfl⟩ | ⟨t, e', t', rfl⟩ := readBasic_cases h
  · exact ⟨h, h⟩
  · exact ⟨h, h⟩
  · exact ⟨h, h⟩

theorem readUnit_repeated (h : readBasic items = some e) (min : Nat) (max : Option Nat) :
    readRepeated (items ++ [.repeater min max]) = some (.repeated e min max) ∧
      readUnit (items ++ [.repeater min max]) = some (.repeated e min max) := by
  have repeated : readRepeated (items ++ [.repeater min max]) = some (.repeated e min max) := by
    rw [readRepeated]
    simp [h]
  refine ⟨repeated, ?_⟩
  obtain ⟨t, rfl⟩ | ⟨t, e', rfl⟩ | ⟨t, e', t', rfl⟩ := readBasic_cases h
  · exact repeated
  · exact repeated
  · exact repeated

theorem number_eq_ok {t : Leaf} {n : Nat} (h : number (.leaf () t) = .ok n) :
    n = decimal t.value.shown := by
  rw [number] at h
  split at h
  · exact (Except.ok.inj h).symm
  · cases h

theorem Made.repeater_bounds (made : Made g) {r : SyntaxTree} (derived : Is g repeater r) {min max : Nat}
    (h : bounds r = .ok (min, max)) :
    ∃ max', read r = some (.repeater min max') ∧ max = max'.getD unbounded := by
  obtain ⟨cs, rfl, repeats⟩ := made.repeater_children derived
  cases repeats with
  | star mark | plus mark =>
    obtain ⟨t, rfl, _⟩ := mark.read
    cases h
    exact ⟨none, rfl, rfl⟩
  | exactly opening digits closing =>
    obtain ⟨_, rfl, -, -⟩ := opening.read
    obtain ⟨t, rfl, -, -⟩ := digits.read
    obtain ⟨_, rfl, -, -⟩ := closing.read
    cases value : number (.leaf () t) with
    | error => simp [bounds, Tree.children, value, Except.map] at h
    | ok n =>
      have equal : (n, n) = (min, max) := by
        simpa [bounds, Tree.children, value, Except.map] using h
      cases equal
      rw [number_eq_ok value]
      exact ⟨some (decimal t.value.shown), rfl, rfl⟩
  | between opening low comma high closing =>
    obtain ⟨_, rfl, -, -⟩ := opening.read
    obtain ⟨t, rfl, -, -⟩ := low.read
    obtain ⟨_, rfl, -, -⟩ := comma.read
    obtain ⟨t', rfl, -, -⟩ := high.read
    obtain ⟨_, rfl, -, -⟩ := closing.read
    obtain ⟨m, value, h⟩ := bind_eq_ok.1 h
    obtain ⟨n, value', h⟩ := bind_eq_ok.1 h
    cases h
    rw [number_eq_ok value, number_eq_ok value']
    exact ⟨some (decimal t'.value.shown), rfl, rfl⟩

theorem Made.repeatPattern_means (made : Made g) {q q' : Pattern}
    (last : back = [] ∨ ∃ r, back = [r] ∧ Is g repeater r) (reads : readBasic items = some e)
    (means : Means α q e) (h : repeatPattern q back.head? = .ok q') :
    ∃ items' e', readAll back = some items' ∧ readRepeated (items ++ items') = some e' ∧
      readUnit (items ++ items') = some e' ∧ Means α q' e' := by
  rcases last with rfl | ⟨r, rfl, derived⟩
  · cases h
    obtain ⟨repeated, unit⟩ := readUnit_basic reads
    rw [← append_nil items] at repeated unit
    exact ⟨[], e, rfl, repeated, unit, means⟩
  · obtain ⟨⟨min, _⟩, bound, h⟩ := bind_eq_ok.1 h
    obtain ⟨max', reads', rfl⟩ := made.repeater_bounds derived bound
    obtain ⟨repeated, unit⟩ := readUnit_repeated reads min max'
    refine ⟨_, _, readAll_eq_some (.cons reads' .nil), repeated, unit, ?_⟩
    simp only at h
    split at h
    · rename_i one
      cases h
      obtain ⟨rfl, high⟩ := one
      cases max' with
      | none => exact absurd high (show ¬ unbounded = 1 by decide)
      | some m =>
        obtain rfl := high
        exact means.once
    · rename_i more
      obtain ⟨_, optimal, h⟩ := bind_eq_ok.1 h
      obtain ⟨rfl, order⟩ := wild_eq_ok h
      exact (means.optimize (mapError_eq_ok optimal)).repeated order more

theorem splitName_basic (made : Made g) (h : UnitOf g [] basic back) :
    splitName (basic ++ back) = (none, basic ++ back) := by
  obtain ⟨-, basic, back⟩ := h
  cases basic with
  | string | name => rcases back with rfl | ⟨r, rfl, -⟩ <;> rfl
  | details _ inside =>
    obtain ⟨_, _, _, rfl, -⟩ := made.details_children inside
    rcases back with rfl | ⟨r, rfl, -⟩ <;> rfl
  | bracketed _ inside =>
    obtain ⟨_, rfl, -⟩ := made.alternatives_children inside
    rw [cons_append, cons_append, cons_append, splitName]
    exact if_neg (show ¬ alternatives = .equal by decide)

theorem splitRepeater_basic (made : Made g) (h : Basic g basic) :
    splitRepeater basic = (basic, none) := by
  cases h with
  | string | name => rfl
  | details _ inside =>
    obtain ⟨_, _, _, rfl, -⟩ := made.details_children inside
    rfl
  | bracketed _ _ closing _ kind =>
    obtain ⟨t, rfl, rfl, -⟩ := closing.read
    exact if_neg fun h => kind h.2

theorem UnitOf.splits (made : Made g) {front : List SyntaxTree} (h : UnitOf g front basic back) :
    splitName (front ++ (basic ++ back)) = (front.head?.map leafText, basic ++ back) ∧
      splitRepeater (basic ++ back) = (basic, back.head?) := by
  refine ⟨?_, ?_⟩
  · rcases h.front with rfl | ⟨n, e, rfl, -, isEqual⟩
    · rw [nil_append]
      exact splitName_basic made h
    · obtain ⟨_, rfl, kind, -⟩ := isEqual.read
      cases h.basic <;> exact if_pos kind
  · rcases h.back with rfl | ⟨r, rfl, derived⟩
    · rw [append_nil]
      exact splitRepeater_basic made h.basic
    · obtain ⟨cs, rfl, -⟩ := made.repeater_children derived
      rw [splitRepeater, getLast?_concat]
      simp only [dropLast_concat]
      refine if_pos ⟨?_, rfl⟩
      cases h.basic <;> simp

theorem compileTree_unit (cs : List SyntaxTree) : compileTree (fuel + 1) (.node () unit cs) = (do
    let p ← repeatPattern (← compileBasic fuel (splitRepeater (splitName cs).2).1)
      (splitRepeater (splitName cs).2).2
    optimized (if (splitName cs).1.isSome then p.withName (splitName cs).1 else p)) := rfl

theorem Compiled.unit (ih : Compiled α g fuel) (made : Made g) (derived : Is g unit t)
    (h : compileTree (fuel + 1) t = .ok p) : ∃ e, Reads t e ∧ Means α p e := by
  obtain ⟨_, basic, _, rfl, unit⟩ := made.unit_children derived
  obtain ⟨name, split⟩ := unit.splits made
  rw [compileTree_unit, name, split] at h
  obtain ⟨q, run, h⟩ := bind_eq_ok.1 h
  obtain ⟨q', run', h⟩ := bind_eq_ok.1 h
  obtain ⟨items, e, all, reads, means⟩ := ih.basic basic q unit.basic run
  obtain ⟨_, e', all', repeated, bare, means'⟩ := made.repeatPattern_means unit.back reads means run'
  have both := readAll_append all all'
  have shape : ∀ items, readNode Language.unit items = (readUnit items).map .expr := by
    simp [readNode, Language.unit, Language.alternative, Language.alternatives, matcher]
  rcases unit.front with rfl | ⟨n, e, rfl, isName, isEqual⟩
  · refine ⟨e', ?_, means'.optimize (mapError_eq_ok h)⟩
    rw [Reads, read_node, nil_append, both]
    simp [shape, bare]
  · obtain ⟨t, rfl, -, first⟩ := isName.read
    obtain ⟨t', rfl, kind, second⟩ := isEqual.read
    refine ⟨.named t.value.shown e', ?_, (means'.named _).optimize (mapError_eq_ok h)⟩
    rw [Reads, read_node, readAll_append (readAll_eq_some (.cons first (.cons second .nil))) both]
    simp [shape, readUnit, kind, repeated]

theorem Compiled.all_succ (ih : Compiled α g fuel) : ∀ ts ps, (∀ t ∈ ts, IsExpr g t) →
    compileAll (fuel + 1) ts = .ok ps →
    ∃ es, Forall₂ Reads ts es ∧ Forall₂ (Means α) ps es
  | [], ps, _, h => by
    cases h
    exact ⟨[], .nil, .nil⟩
  | t :: ts, ps, derived, h => by
    obtain ⟨first, later⟩ := forall_mem_cons.1 derived
    obtain ⟨p, run, h⟩ := bind_eq_ok.1 h
    obtain ⟨ps', runs, h⟩ := bind_eq_ok.1 h
    cases h
    obtain ⟨e, reads, means⟩ := ih.tree t p first run
    obtain ⟨es, readsAll, meansAll⟩ := ih.all ts ps' later runs
    exact ⟨e :: es, .cons reads readsAll, .cons means meansAll⟩

/-- However much fuel there is, what is compiled means what is read. -/
theorem Made.compiled (made : Made g) : ∀ fuel, Compiled α g fuel
  | 0 => by
    refine ⟨fun t p _ h => ?_, fun ts ps _ h => ?_, fun ts p _ h => ?_⟩
    · cases h
    · cases ts with
      | nil =>
        cases h
        exact ⟨[], .nil, .nil⟩
      | cons t ts => cases h
    · cases h
  | fuel + 1 => by
    have ih := made.compiled fuel
    refine ⟨fun t p derived h => ?_, ih.all_succ, fun ts p basic h => ih.basic_succ made basic h⟩
    rcases derived with derived | derived | derived | derived
    · exact ih.alternatives made h derived
    · exact ih.alternative made h derived
    · exact ih.unit made derived h
    · exact ih.negatedUnit made h derived

/-- The pattern of a whole text means what its tree is read as. -/
theorem Made.compileTree_means (made : Made g) {text : Text} (parsed : parseBy g text = .ok t)
    (h : compileTree fuel t = .ok p) : ∃ e, Reads t e ∧ ∀ α, Means α p e := by
  obtain ⟨a, z, rfl, inside, last⟩ := made.matcher_children (made.derives_of_parseBy parsed)
  cases fuel with
  | zero => cases h
  | succ fuel =>
    have inner : compileTree (fuel + 1) a = .ok p := by
      obtain ⟨cs, rfl, -⟩ := made.alternatives_children inside
      exact h
    obtain ⟨e, reads, -⟩ := (made.compiled (α := Unit) _).tree a p (.inl inside) inner
    obtain ⟨_, -, -, final⟩ := last.read
    refine ⟨e, ?_, fun α => ?_⟩
    · rw [Reads, read_node, readAll_eq_some (.cons reads (.cons final .nil))]
      rfl
    · obtain ⟨e', reads', means⟩ := (made.compiled (α := α) _).tree a p (.inl inside) inner
      cases reads.symm.trans reads'
      exact means

end Language

/-! ## Compiled patterns -/

/-- Any tree with the content, as it is read: each bracket holds one alternative with one part. -/
@[match_pattern]
def Expr.anyWith (content : Expr) : Expr :=
  .anyOf [.inOrder [.node none (.anyOf [.inOrder [content]])]]

def nameLeaf (name : Text) : SyntaxTree := .leaf () (.ofText Kind.name name)

def twoNames : SyntaxTree := .node () 300 [nameLeaf "x", nameLeaf "y"]

def findsNames : Bool :=
  match compile "any<NAME+>", (Language.parse "any<NAME+>").toOption.bind Language.read with
  | .ok p, some (.expr (.anyWith (.repeated (.token (some 1)) 1 none))) =>
    match p.matchTree twoNames true with
    | .yes _ => true
    | _ => false
  | _, _ => false

def missesName : Bool :=
  match compile "any<not NAME>", (Language.parse "any<not NAME>").toOption.bind Language.read with
  | .ok p, some (.expr (.anyWith (.absent (.token (some 1))))) =>
    match p.matchTree (nameLeaf "x") true with
    | .no => true
    | _ => false
  | _, _ => false

end Retouch.Pattern
