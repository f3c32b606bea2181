import Retouch.Proofs.LanguageTables
import Retouch.Proofs.PatternCompiling
import Retouch.Refactor.Dispatch

/-!
# Dispatch loses no match

The heads of a pattern bound what it takes: every tree that the pattern takes is of one of these kinds
(`Pattern.ways_covered`), and so is a tree that it matches.  This holds of the patterns that the
language of patterns can write, which have a head wherever they can begin (`Pattern.headed_of_compile`).
So the fixers to try on a tree of a kind are, each once, all those that want it
(`fixersFor_complete`).
-/

namespace Retouch

open List

variable {α : Type}

namespace Heads

def Covers : Heads → Kind → Prop
  | every, _ => True
  | of ks, k => k ∈ ks
  | none, _ => False

theorem union_ne_none {a b : Heads} (ha : a ≠ none) (hb : b ≠ none) : a.union b ≠ none := by
  cases a with
  | every => exact nofun
  | none => exact absurd rfl ha
  | of ks =>
    cases b with
    | none => exact absurd rfl hb
    | every | of => exact nofun

theorem covers_union {a b : Heads} (ha : a ≠ none) (hb : b ≠ none) {k : Kind}
    (h : a.Covers k ∨ b.Covers k) : (a.union b).Covers k := by
  cases a with
  | every => exact trivial
  | none => exact absurd rfl ha
  | of ks =>
    cases b with
    | every => exact trivial
    | none => exact absurd rfl hb
    | of ks' => exact mem_foldl_insertNew.2 h

end Heads

namespace Pattern

open Matches

/-! ## Patterns with heads -/

mutual
theorem heads_ne_none {p : Pattern} (h : Headed p) : heads p ≠ .none := by
  cases p with
  | leaf k _ _ | tree k _ | within k _ _ => cases k <;> exact nofun
  | finish n => exact nofun
  | without p n =>
    rw [heads]
    exact heads_ne_none h
  | anything min max n => exact h.elim
  | choice os min max n =>
    exact optionHeads_ne_none h

theorem allHeads_ne_none {ps : List Pattern} (h : HeadedAll ps) : allHeads ps ≠ .none := by
  cases ps with
  | nil => exact nofun
  | cons p ps => exact Heads.union_ne_none (heads_ne_none h.1) (allHeads_ne_none h.2)

theorem optionHeads_ne_none {os : List (List Pattern)} (h : HeadedAny os) :
    optionHeads os ≠ .none := by
  cases os with
  | nil => exact nofun
  | cons o os => exact Heads.union_ne_none (allHeads_ne_none h.1) (optionHeads_ne_none h.2)
end

/-! ## What is taken has one of the heads -/

/-- The first `c` of the trees have kinds that are among the heads. -/
def Covered (heads : Heads) (ts : List (Tree α)) (c : Nat) : Prop :=
  ∀ t ∈ ts.take c, heads.Covers t.kind

theorem covered_zero (heads : Heads) (ts : List (Tree α)) : Covered heads ts 0 := nofun

variable {c : Nat} {ts : List (Tree α)} {t : Tree α} {p : Pattern}

theorem Covered.add {heads : Heads} {d : Nat} (first : Covered heads ts c)
    (later : Covered heads (ts.drop c) d) : Covered heads ts (c + d) := by
  intro t ht
  rw [take_add, mem_append] at ht
  exact ht.elim (first t) (later t)

theorem Covered.mono {a b : Heads} (h : Covered a ts c) (wider : ∀ k, a.Covers k → b.Covers k) :
    Covered b ts c :=
  fun t ht => wider _ (h t ht)

theorem covered_one {heads : Heads} : Covered heads (t :: ts) 1 ↔ heads.Covers t.kind := by
  exact forall_mem_singleton

def ofKind : Option Kind → Heads
  | none => .every
  | some k => .of [k]

theorem covers_ofKind {kind : Option Kind} (h : kindFits kind t = true) :
    (ofKind kind).Covers t.kind := by
  cases kind with
  | none => exact trivial
  | some k => exact mem_singleton.2 (beq_iff_eq.1 h)

theorem all_ofVerdict {P : Nat → Prop} {n : Nat} {v : Verdict α} (h : P n) :
    (ofVerdict n v).All fun c _ => P c := by
  cases v with
  | yes r => exact all_only h
  | no => exact all_done
  | fail => exact all_fail

theorem firstTree_covered {fits : Tree α → Bool} {heads : Heads}
    (h : ∀ t, fits t = true → heads.Covers t.kind) (n : Option Text) (ts : List (Tree α)) :
    (firstTree fits n ts).All fun c _ => Covered heads ts c := by
  cases ts with
  | nil => exact all_done
  | cons t ts =>
    rw [firstTree]
    split
    · rename_i fit
      exact all_only (covered_one.2 (h t fit))
    · exact all_done

theorem takeGreedily_covered {fits : Tree α → Verdict α} {heads : Heads}
    (h : ∀ t r, fits t = .yes r → heads.Covers t.kind) {count : Nat} {names r : Bindings α}
    (taken : takeGreedily fits count names ts = (.yes r, c)) :
    ∃ d, c = count + d ∧ Covered heads ts d := by
  induction ts generalizing count names with
  | nil =>
    cases taken
    exact ⟨0, rfl, covered_zero heads _⟩
  | cons t ts ih =>
    rw [takeGreedily] at taken
    split at taken
    · rename_i r' fit
      obtain ⟨d, rfl, covered⟩ := ih taken
      refine ⟨1 + d, add_assoc count 1 d, ?_⟩
      exact (covered_one.2 (h t r' fit)).add covered
    · cases taken
      exact ⟨0, rfl, covered_zero heads _⟩
    · cases taken

mutual
/-- **A pattern takes only trees of its head kinds.** -/
theorem ways_covered {p : Pattern} (headed : Headed p) (ts : List (Tree α)) :
    (ways p ts).All fun c _ => Covered (heads p) ts c := by
  cases p with
  | leaf k v n =>
    rw [show heads (leaf k v n) = ofKind k by cases k <;> rfl]
    refine firstTree_covered (fun t fit => covers_ofKind ?_) n ts
    rw [leafFits.eq_def, Bool.and_eq_true, Bool.and_eq_true] at fit
    exact fit.1.2
  | tree k n =>
    rw [show heads (tree k n) = ofKind k by cases k <;> rfl]
    exact firstTree_covered (fun t => covers_ofKind) n ts
  | within k ps n =>
    rw [ways.eq_def, show heads (within k ps n) = ofKind k by cases k <;> rfl]
    cases ts with
    | nil => exact all_done
    | cons t ts =>
      simp only
      split
      · rename_i fit
        exact all_ofVerdict (covered_one.2 (covers_ofKind fit))
      · exact all_done
  | anything min max n => exact headed.elim
  | choice os min max n =>
    rw [ways]
    split
    · split
      · rename_i r c taken
        obtain ⟨d, rfl, covered⟩ :=
          takeGreedily_covered (fun t r fit => headTakes_covered headed fit) taken
        rw [zero_add]
        exact all_only covered
      · exact all_done
      · exact all_fail
    · have turn := fun us : List (Tree α) => optionWays_covered headed us
      refine .map (P := fun c _ => Covered (optionHeads os) ts c) (.recover ?_ ?_) fun c r hc => hc
      · exact turns_all (covered_zero _) (fun _ _ _ _ _ hc hd => hc.add hd) turn _ _ _ _ ts
      · exact gradualTurns_all (covered_zero _) (fun _ _ _ _ _ hc hd => hc.add hd) turn _ _ ts
  | finish n =>
    rw [ways]
    split
    · exact all_only (covered_zero _ ts)
    · exact all_done
  | without p n =>
    rw [ways]
    split
    · exact all_done
    · exact all_fail
    · exact all_only (covered_zero _ ts)

theorem seqWays_covered {ps : List Pattern} (headed : HeadedAll ps) (ts : List (Tree α)) :
    (seqWays ps ts).All fun c _ => Covered (allHeads ps) ts c := by
  cases ps with
  | nil => exact all_only (covered_zero _ ts)
  | cons p ps =>
    obtain ⟨first, later⟩ := headed
    have wider : ∀ k, (heads p).Covers k ∨ (allHeads ps).Covers k → (allHeads (p :: ps)).Covers k :=
      fun k => Heads.covers_union (heads_ne_none first) (allHeads_ne_none later)
    have here := (ways_covered first ts).mono fun c r hc => hc.mono fun k hk => wider k (.inl hk)
    rw [seqWays]
    split
    · exact here
    · refine here.bind fun c r hc => (seqWays_covered later (ts.drop c)).map fun d s hd => ?_
      exact hc.add (hd.mono fun k hk => wider k (.inr hk))

theorem optionWays_covered {os : List (List Pattern)} (headed : HeadedAny os) (ts : List (Tree α)) :
    (optionWays os ts).All fun c _ => Covered (optionHeads os) ts c := by
  cases os with
  | nil => exact all_done
  | cons o os =>
    obtain ⟨first, later⟩ := headed
    have wider : ∀ k, (allHeads o).Covers k ∨ (optionHeads os).Covers k →
        (optionHeads (o :: os)).Covers k :=
      fun k => Heads.covers_union (allHeads_ne_none first) (optionHeads_ne_none later)
    refine .append ?_ ?_
    · exact (seqWays_covered first ts).mono fun c r hc => hc.mono fun k hk => wider k (.inl hk)
    · exact (optionWays_covered later ts).mono fun c r hc => hc.mono fun k hk => wider k (.inr hk)

theorem headTakes_covered {os : List (List Pattern)} (headed : HeadedAny os) {t : Tree α}
    {r : Bindings α} (h : headTakes os t = .yes r) : (optionHeads os).Covers t.kind := by
  cases os with
  | nil => cases h
  | cons o os =>
    obtain ⟨first, later⟩ := headed
    refine Heads.covers_union (allHeads_ne_none first) (optionHeads_ne_none later) ?_
    rw [headTakes] at h
    split at h
    · exact .inr (headTakes_covered later h)
    · exact .inl (firstTakes_covered first h)

theorem firstTakes_covered {ps : List Pattern} (headed : HeadedAll ps) {t : Tree α}
    {r : Bindings α} (h : firstTakes ps t = .yes r) : (allHeads ps).Covers t.kind := by
  cases ps with
  | nil => cases h
  | cons p ps =>
    refine Heads.covers_union (heads_ne_none headed.1) (allHeads_ne_none headed.2) (.inl ?_)
    rw [firstTakes] at h
    split at h
    · cases h
    · exact covered_one.1 ((ways_covered headed.1 [t]).of_exactly h)
end

theorem covers_of_matchTree (headed : Headed p) {wanted : Bool} {names : Bindings α}
    (h : p.matchTree t wanted = .yes names) : (heads p).Covers t.kind := by
  rw [matchTree] at h
  split at h
  · split at h <;> cases h
  · exact covered_one.1 ((ways_covered headed [t]).of_exactly h)

/-- A compiled pattern has heads. -/
theorem headed_of_compile {text : Text} (h : compile text = .ok p) : Headed p := by
  obtain ⟨t, parsed, h⟩ := bind_eq_ok.1 h
  obtain ⟨_, -, means⟩ := Language.made_languageGrammar.compileTree_means parsed h
  exact (means Unit).headed

end Pattern

/-! ## The fixers for a kind -/

namespace Worker

variable {w : Worker}

theorem heads_of_mem_number {n : Nat} {fs : List Fixer} (h : w ∈ number n fs) :
    w.heads = headsOf w.fixer ∧ w.fixer ∈ fs ∧ n ≤ w.slot := by
  induction fs generalizing n with
  | nil => cases h
  | cons f fs ih =>
    rcases mem_cons.1 h with rfl | h
    · exact ⟨rfl, mem_cons_self, le_refl n⟩
    · obtain ⟨heads, member, later⟩ := ih h
      exact ⟨heads, mem_cons_of_mem _ member, Nat.le_of_succ_le later⟩

theorem nodup_number (n : Nat) (fs : List Fixer) : (number n fs).Nodup := by
  induction fs generalizing n with
  | nil => exact nodup_nil
  | cons f fs ih =>
    refine nodup_cons.2 ⟨fun h => ?_, ih (n + 1)⟩
    exact Nat.not_succ_le_self n (heads_of_mem_number h).2.2

theorem asksFor_iff {k : Kind} : asksFor k w = true ↔ ∃ ks, w.heads = .of ks ∧ k ∈ ks := by
  rw [asksFor]
  split
  · rename_i ks heads
    rw [contains_iff_mem, heads]
    exact ⟨fun h => ⟨ks, rfl, h⟩, fun ⟨_, eq, h⟩ => Heads.of.inj eq ▸ h⟩
  · rename_i other
    exact iff_of_false nofun fun ⟨ks, eq, _⟩ => other ks eq

theorem seesAll_iff : seesAll w = true ↔ w.heads = .every := beq_iff_eq

end Worker

/-- The fixer wants the tree: its pattern matches it, or it has no pattern and accepts trees of its kind
or of every kind. -/
def Fixer.Wants (f : Fixer) (t : Tree α) : Prop :=
  match f.pattern with
  | some p => ∃ wanted names, p.matchTree t wanted = .yes names
  | none => f.accepts = none ∨ f.accepts = some t.kind

theorem Fixer.Wants.covers {f : Fixer} {t : Tree α} (h : f.Wants t)
    (compiled : ∀ p, f.pattern = some p → ∃ text, Pattern.compile text = .ok p) :
    (Worker.headsOf f).Covers t.kind := by
  unfold Wants at h
  unfold Worker.headsOf
  cases pattern : f.pattern with
  | some p =>
    rw [pattern] at h
    obtain ⟨text, made⟩ := compiled p pattern
    obtain ⟨_, _, h⟩ := h
    exact Pattern.covers_of_matchTree (Pattern.headed_of_compile made) h
  | none =>
    rw [pattern] at h
    rcases h with h | h
    · rw [h]
      exact trivial
    · rw [h]
      exact mem_singleton_self _

/-- **The fixers for a kind are those that can want a tree of it, each once.**  First come, in their
order, the fixers that ask for the kind, and then, in their order, those that want to see every
tree. -/
theorem fixersFor_complete {fs : List Fixer} (n : Nat)
    (compiled : ∀ f ∈ fs, ∀ p, f.pattern = some p → ∃ text, Pattern.compile text = .ok p)
    {k : Kind} (known : k ∈ Language.grammar.symbols.map Prod.snd ∨
      OrderedMap.has Language.grammar.tokens k = true) :
    ∃ asking seeing, fixersFor (Worker.number n fs) k = some (asking ++ seeing) ∧
      asking.Sublist (Worker.number n fs) ∧ seeing.Sublist (Worker.number n fs) ∧
      (∀ w, w ∈ asking ↔ w ∈ Worker.number n fs ∧ ∃ ks, Worker.headsOf w.fixer = .of ks ∧ k ∈ ks) ∧
      (∀ w, w ∈ seeing ↔ w ∈ Worker.number n fs ∧ Worker.headsOf w.fixer = .every) ∧
      (asking ++ seeing).Nodup ∧
      ∀ (α : Type) (t : Tree α), t.kind = k →
        ∀ w ∈ Worker.number n fs, w.fixer.Wants t → w ∈ asking ++ seeing := by
  have program := Language.isProgramKind_of_mem (g := Language.grammar) mem_cons_self known
  have asks : ∀ w, w ∈ (Worker.number n fs).filter (Worker.asksFor k) ↔
      w ∈ Worker.number n fs ∧ ∃ ks, Worker.headsOf w.fixer = .of ks ∧ k ∈ ks := by
    intro w
    rw [mem_filter, Worker.asksFor_iff]
    exact and_congr_right fun h => by rw [(Worker.heads_of_mem_number h).1]
  have sees : ∀ w, w ∈ (Worker.number n fs).filter Worker.seesAll ↔
      w ∈ Worker.number n fs ∧ Worker.headsOf w.fixer = .every := by
    intro w
    rw [mem_filter, Worker.seesAll_iff]
    exact and_congr_right fun h => by rw [(Worker.heads_of_mem_number h).1]
  refine ⟨_, _, if_pos program, filter_sublist, filter_sublist, asks, sees, ?_, ?_⟩
  · have distinct := Worker.nodup_number n fs
    refine (distinct.filter _).append (distinct.filter _) fun w first second => ?_
    obtain ⟨-, ks, heads, -⟩ := (asks w).1 first
    exact nomatch heads.symm.trans ((sees w).1 second).2
  · rintro α t rfl w member wants
    obtain ⟨-, among, -⟩ := Worker.heads_of_mem_number member
    have covers := wants.covers (compiled w.fixer among)
    rw [mem_append, asks, sees]
    cases heads : Worker.headsOf w.fixer with
    | every => exact .inr ⟨member, rfl⟩
    | of ks =>
      rw [heads] at covers
      exact .inl ⟨member, ks, rfl, covers⟩
    | none =>
      rw [heads] at covers
      exact covers.elim

def watcher : Fixer where
  title := "watcher"
  recognise _ := pure none
  transform _ _ := pure .keep

def findsName : Bool :=
  match Pattern.compile "NAME" with
  | .ok p =>
    match p.matchTree (Pattern.nameLeaf "x") true with
    | .yes _ => true
    | _ => false
  | .error _ => false

/-- A fixer for names is found, before one that sees every tree. -/
theorem fixersFor_complete_name :
    ∃ p, Pattern.compile "NAME" = .ok p ∧ OrderedMap.has Language.grammar.tokens Kind.name = true ∧
      (∃ names, p.matchTree (Pattern.nameLeaf "x") true = .yes names) ∧
      ∃ before after, fixersFor (Worker.number 0 [watcher, { watcher with pattern := some p }])
        Kind.name = some (before ++ ⟨{ watcher with pattern := some p }, p.heads, 1⟩ :: after) := by
  have evaluated : findsName = true := by decide +kernel
  unfold findsName at evaluated
  split at evaluated
  · rename_i p compiled
    split at evaluated
    · rename_i names matched
      have token : OrderedMap.has Language.grammar.tokens Kind.name = true :=
        (Language.has_tokens_iff mem_cons_self).2 (by decide)
      have made : ∀ f ∈ [watcher, { watcher with pattern := some p }], ∀ q, f.pattern = some q →
          ∃ text, Pattern.compile text = .ok q := by
        intro f hf q hq
        rcases mem_pair.1 hf with rfl | rfl
        · cases hq
        · cases hq
          exact ⟨_, compiled⟩
      obtain ⟨asking, seeing, eq, -, -, -, -, -, all⟩ := fixersFor_complete 0 made (.inr token)
      have found := all Unit (Pattern.nameLeaf "x") rfl ⟨_, p.heads, 1⟩
        (mem_cons_of_mem _ mem_cons_self) ⟨true, names, matched⟩
      obtain ⟨before, after, split⟩ := append_of_mem found
      rw [split] at eq
      exact ⟨p, compiled, token, ⟨names, matched⟩, before, after, eq⟩
    · cases evaluated
  · cases evaluated

end Retouch
