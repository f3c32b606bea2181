import Retouch.Proofs.SpacingMeanings

/-!
# Tidy trees

The fixers for spacing make a tidy tree from below: the children of a node become tidy, and then the
fixers that recognise the node do their acts before the children (`Fixes.Spacer.tidy`).  The tree stays
the same apart from blanks (`Fixes.Spacer.bare_tidy`, `Fixes.Spacer.leaves_tidy`).

A tidy tree stays as it is (`Fixes.Spacer.tidy_tidy`).  The blanks before the first leaf of a child can be
changed below the child and then again before it, but only the last act counts, whichever came before:
acts that do not keep what they find absorb others (`Fixes.Act.on_on`).
-/

namespace Retouch

open List

open Tree

/-! ## Blanks before a tree -/

namespace Tree

theorem withLead_withLead {α : Type} (x y : Text) (t : Tree α) :
    (t.withLead x).withLead y = t.withLead y := by
  induction t using induct with
  | leaf i l => rfl
  | node i k cs ih =>
    cases cs with
    | nil => rfl
    | cons c cs => rw [withLead_cons, withLead_cons, withLead_cons, ih c mem_cons_self]

theorem acted_withLead (a : Fixes.Act) (x : Text) (t : SyntaxTree) :
    (t.withLead x).acted a = t.withLead (a.on x) := by
  induction t using induct with
  | leaf i l => rfl
  | node i k cs ih =>
    cases cs with
    | nil => rfl
    | cons c cs =>
      have first := ih c mem_cons_self
      rw [withLead_cons, withLead_cons, ← first]
      rfl

@[simp] theorem bare_acted (a : Fixes.Act) (t : SyntaxTree) : (t.acted a).bare = t.bare :=
  bare_withLead _ t

end Tree

namespace Fixes

namespace Act

def after (a b : Act) : Act := if a = keep then b else a

theorem isOpen_on (a : Act) (x : Text) : isOpen (a.on x) = isOpen x := by
  cases a with
  | keep => rfl
  | strip | space =>
    rw [on]
    split
    · rename_i opened
      rw [opened]
      rfl
    · rfl

/-- **An act that does not keep what it finds absorbs those before it.** -/
theorem on_on {a : Act} (h : a ≠ keep) (b : Act) (x : Text) : a.on (b.on x) = a.on x := by
  by_cases opened : isOpen x = true
  · have opened' := (isOpen_on b x).trans opened
    cases a with
    | keep => exact absurd rfl h
    | strip | space => rw [on, on, if_pos opened', if_pos opened]
  · have same : b.on x = x := by
      cases b with
      | keep => rfl
      | strip | space => rw [on, if_neg opened]
    rw [same]

theorem after_on (a b : Act) (x : Text) : (a.after b).on x = a.on (b.on x) := by
  rw [after]
  split
  · rename_i kept
    rw [kept]
    rfl
  · rename_i other
    exact (on_on other b x).symm

theorem isPlainBlank_strip (x : Text) : isPlainBlank (strip.on x) = false := by
  rw [on]
  split
  · rfl
  · rename_i closed
    exact Bool.eq_false_iff.2 fun blank => closed (isOpen_iff.2 (.inr blank))

theorem isPlainBlank_space {x : Text} (h : isPlainBlank x = true) : isPlainBlank (space.on x) = true := by
  rw [on, if_pos (isOpen_iff.2 (.inr h))]
  rfl

end Act

end Fixes

def Leaf.Touched (l l' : Leaf) : Prop := ∃ a : Fixes.Act, l' = { l with lead := a.on l.lead }

namespace Leaf

theorem Touched.refl (l : Leaf) : l.Touched l := ⟨.keep, rfl⟩

theorem Touched.trans {l l' l'' : Leaf} (h : l.Touched l') (h' : l'.Touched l'') : l.Touched l'' := by
  obtain ⟨a, rfl⟩ := h
  obtain ⟨b, rfl⟩ := h'
  exact ⟨b.after a, by rw [Fixes.Act.after_on]⟩

theorem touchedAll_refl (ls : List Leaf) : Forall₂ Touched ls ls :=
  forall₂_same.2 fun l _ => .refl l

theorem TouchedAll.trans {ls ls' ls'' : List Leaf} (h : Forall₂ Touched ls ls')
    (h' : Forall₂ Touched ls' ls'') : Forall₂ Touched ls ls'' := by
  induction h generalizing ls'' with
  | nil => exact h'
  | cons first _ ih =>
    cases h' with
    | cons next later => exact .cons (first.trans next) (ih later)

end Leaf

theorem Tree.leaves_acted (a : Fixes.Act) (t : SyntaxTree) :
    Forall₂ Leaf.Touched t.leaves (t.acted a).leaves := by
  rcases leaves_withLead (a.on t.lead) t with same | ⟨l, ls, first, before, changed⟩
  · rw [acted, same]
    exact Leaf.touchedAll_refl _
  · rw [acted, first, changed, ← before]
    exact .cons ⟨a, rfl⟩ (Leaf.touchedAll_refl ls)

namespace Fixes.Spacer

variable (r : Spacer) (inCall : Bool)

/-! ## One fixer -/

theorem map_fst_sides (cs : List SyntaxTree) :
    (cs.zip (sides false (cs.map (isOneOf r.tokens)))).map Prod.fst = cs :=
  map_fst_zip (by simp)

theorem map_bare_spacedAll (cs : List SyntaxTree) :
    (r.spacedAll inCall cs).map bare = cs.map bare := by
  conv_rhs => rw [← map_fst_sides r cs]
  rw [spacedAll, map_map, map_map]
  exact map_congr_left fun c _ => bare_acted _ c.1

@[simp] theorem bare_spaced (t : SyntaxTree) : (r.spaced inCall t).bare = t.bare := by
  cases t with
  | leaf i l => rfl
  | node i k cs => rw [spaced, bare_node, bare_node, map_bare_spacedAll]

theorem forall₂_leavesAll {ts us : List SyntaxTree}
    (h : Forall₂ (fun t u => Forall₂ Leaf.Touched t.leaves u.leaves) ts us) :
    Forall₂ Leaf.Touched (leavesAll ts) (leavesAll us) := by
  induction h with
  | nil => exact .nil
  | cons first _ ih => exact rel_append first ih

theorem leaves_spaced (t : SyntaxTree) :
    Forall₂ Leaf.Touched t.leaves (r.spaced inCall t).leaves := by
  cases t with
  | leaf i l => exact Leaf.touchedAll_refl _
  | node i k cs =>
    refine forall₂_leavesAll ?_
    conv => arg 2; rw [← map_fst_sides r cs]
    rw [spacedAll, forall₂_map_left_iff, forall₂_map_right_iff, forall₂_same]
    exact fun c _ => leaves_acted _ c.1

theorem isOneOf_withLead (tokens : List (Kind × Text)) (x : Text) (t : SyntaxTree) :
    isOneOf tokens (t.withLead x) = isOneOf tokens t := by
  rw [← isOneOf_bare, bare_withLead, isOneOf_bare]

variable {r inCall} {t : SyntaxTree} {cs : List SyntaxTree}

theorem recognises_of_bare (r : Spacer) {u : SyntaxTree} (same : t.bare = u.bare) :
    r.pattern.recognises t = r.pattern.recognises u := by
  rw [← Pattern.recognises_bare r.decided, same, Pattern.recognises_bare r.decided]

theorem acts_withLead {c : SyntaxTree} {i : Unit} {k : Kind}
    (h : r.pattern.recognises (.node i k (c :: cs)) = true) (x : Text) :
    r.acts inCall (c.withLead x :: cs) = r.acts inCall (c :: cs) := by
  refine acts_congr ?_
  cases r with
  | comma | operator => rfl
  | equal =>
    -- the first child is no equal sign
    obtain ⟨xs, e, y, eq, some, before, -⟩ := exists_of_recognises_equal h
    have first : isOneOf equals c = false := by
      cases xs with
      | nil => exact absurd rfl some
      | cons x' xs =>
        cases eq
        exact before c mem_cons_self
    have blank : blankBefore (c.withLead x :: cs) = blankBefore (c :: cs) := by
      simp [blankBefore, isOneOf_withLead, first]
    simp [aroundSign, blank]

theorem spaced_withLead {t : SyntaxTree} (h : r.pattern.recognises t = true) :
    ∃ a : Act, ∀ x, r.spaced inCall (t.withLead x) = (r.spaced inCall t).withLead (a.on x) := by
  cases t with
  | leaf i l => exact ⟨.keep, fun _ => rfl⟩
  | node i k cs =>
    cases cs with
    | nil => exact ⟨.keep, fun _ => rfl⟩
    | cons c cs =>
      obtain ⟨s, ss, eq⟩ : ∃ s ss, sides false ((c :: cs).map (isOneOf r.tokens)) = s :: ss := by
        rw [map_cons]
        cases isOneOf r.tokens c <;> exact ⟨_, _, rfl⟩
      have all : ∀ x, r.spacedAll inCall (c.withLead x :: cs) =
          c.withLead ((r.acts inCall (c :: cs) s).on x) ::
            (cs.zip ss).map fun d => d.1.acted (r.acts inCall (c :: cs) d.2) := by
        intro x
        rw [spacedAll, acts_withLead h, map_cons, isOneOf_withLead, ← map_cons, eq,
          zip_cons_cons, map_cons, acted_withLead]
      refine ⟨r.acts inCall (c :: cs) s, fun x => ?_⟩
      have plain := all c.lead
      rw [withLead_lead] at plain
      rw [withLead_cons, spaced, spaced, all, plain, withLead_cons, withLead_withLead]

/-! ## The fixers at a node -/

def spaceWith (rs : List Spacer) (inCall : Bool) (t : SyntaxTree) : SyntaxTree :=
  rs.foldl (fun t r => if r.pattern.recognises t then r.spaced inCall t else t) t

variable {rs : List Spacer}

theorem spaceWith_cons (r : Spacer) (rs : List Spacer) (inCall : Bool) (t : SyntaxTree) :
    spaceWith (r :: rs) inCall t =
      spaceWith rs inCall (if r.pattern.recognises t then r.spaced inCall t else t) := rfl

@[simp] theorem bare_spaceWith (rs : List Spacer) (inCall : Bool) (t : SyntaxTree) :
    (spaceWith rs inCall t).bare = t.bare := by
  induction rs generalizing t with
  | nil => rfl
  | cons r rs ih =>
    rw [spaceWith_cons, ih]
    split
    · exact bare_spaced r inCall t
    · rfl

theorem leaves_spaceWith (rs : List Spacer) (inCall : Bool) (t : SyntaxTree) :
    Forall₂ Leaf.Touched t.leaves (spaceWith rs inCall t).leaves := by
  induction rs generalizing t with
  | nil => exact Leaf.touchedAll_refl _
  | cons r rs ih =>
    rw [spaceWith_cons]
    refine Leaf.TouchedAll.trans ?_ (ih _)
    split
    · exact leaves_spaced r inCall t
    · exact Leaf.touchedAll_refl _

theorem spaceWith_withLead (rs : List Spacer) (inCall : Bool) (t : SyntaxTree) :
    ∃ a : Act, ∀ x, spaceWith rs inCall (t.withLead x) = (spaceWith rs inCall t).withLead (a.on x) := by
  induction rs generalizing t with
  | nil => exact ⟨.keep, fun _ => rfl⟩
  | cons r rs ih =>
    have same := fun x =>
      r.recognises_of_bare (bare_withLead x t)
    simp only [spaceWith_cons, same]
    split
    · rename_i recognised
      obtain ⟨a, first⟩ := @spaced_withLead r inCall t recognised
      obtain ⟨b, later⟩ := ih (r.spaced inCall t)
      exact ⟨b.after a, fun x => by rw [first, later, Act.after_on]⟩
    · exact ih t

theorem spaceWith_eq_self (h : ∀ r ∈ rs, r.pattern.recognises t = false) :
    spaceWith rs inCall t = t := by
  induction rs with
  | nil => rfl
  | cons r rs ih =>
    obtain ⟨first, later⟩ := forall_mem_cons.1 h
    rw [spaceWith_cons, first]
    exact ih later

/-! ## Once more -/

theorem acted_again {F : SyntaxTree → SyntaxTree} {d : SyntaxTree} (fixed : F d = d)
    (moves : ∃ a : Act, ∀ x, F (d.withLead x) = (F d).withLead (a.on x)) (b : Act) :
    (F (d.acted b)).acted b = d.acted b := by
  obtain ⟨a, moves⟩ := moves
  simp only [fixed] at moves
  show (F (d.withLead (b.on d.lead))).acted b = d.withLead (b.on d.lead)
  rw [moves, acted_withLead]
  by_cases kept : b = .keep
  · have same := moves d.lead
    rw [withLead_lead, fixed] at same
    rw [kept]
    show d.withLead (a.on d.lead) = d.withLead d.lead
    rw [← same, withLead_lead]
  · rw [Act.on_on kept, Act.on_on kept]

theorem eq_separator_of_mem {p : SyntaxTree → Bool} {after : Bool} {c : SyntaxTree × Side}
    (h : c ∈ cs.zip (sides after (cs.map p))) (sign : p c.1 = true) : c.2 = .separator := by
  induction cs generalizing after with
  | nil => cases h
  | cons d cs ih =>
    rw [map_cons] at h
    cases token : p d with
    | true =>
      rw [token] at h
      rcases mem_cons.1 h with rfl | h
      · rfl
      · exact ih h
    | false =>
      cases after <;> rw [token] at h <;>
        rcases mem_cons.1 h with rfl | h
      · exact absurd (token.symm.trans sign) nofun
      · exact ih h
      · exact absurd (token.symm.trans sign) nofun
      · exact ih h

section Again

variable {F : SyntaxTree → SyntaxTree} {ds : List SyntaxTree}
  (leaf : ∀ l, F (.leaf () l) = .leaf () l) (bare : ∀ t, (F t).bare = t.bare)

include leaf bare

theorem blankBefore_again (r : Spacer) (tokens : r.tokens = equals) :
    blankBefore ((r.spacedAll inCall ds).map F) = ds.any fun d =>
      isOneOf equals d && isPlainBlank ((r.acts inCall ds .separator).on d.lead) := by
  have same : ∀ c ∈ ds.zip (sides false (ds.map (isOneOf r.tokens))),
      (isOneOf equals (F (c.1.acted (r.acts inCall ds c.2))) &&
        isPlainBlank (F (c.1.acted (r.acts inCall ds c.2))).lead) =
      (isOneOf equals c.1 && isPlainBlank ((r.acts inCall ds .separator).on c.1.lead)) := by
    intro c hc
    rw [← isOneOf_bare, bare, bare_acted, isOneOf_bare]
    cases sign : isOneOf equals c.1 with
    | false => rfl
    | true =>
      have separator := eq_separator_of_mem hc (tokens ▸ sign)
      obtain ⟨l, eq, -⟩ := exists_leaf_of_isOneOf sign
      rw [separator, eq]
      exact congrArg (fun t : SyntaxTree => isPlainBlank t.lead) (leaf _)
  generalize r.acts inCall ds .separator = a at same ⊢
  conv_rhs => rw [← map_fst_sides r ds]
  rw [blankBefore, spacedAll, any_map, any_map, any_map, Bool.eq_iff_iff, any_eq_true, any_eq_true]
  exact exists_congr fun c => and_congr_right fun hc => iff_of_eq (congrArg (· = true) (same c hc))

theorem acts_again (r : Spacer) :
    r.acts inCall ((r.spacedAll inCall ds).map F) = r.acts inCall ds := by
  refine acts_congr ?_
  cases r with
  | comma | operator => rfl
  | equal =>
    have again := @blankBefore_again inCall F ds leaf bare equal rfl
    have first : equal.acts inCall ds .separator = (equal.aroundSign inCall ds).1 := rfl
    rw [first] at again
    by_cases spaced : (blankBefore ds && !inCall) = true
    · have around : equal.aroundSign inCall ds = (.space, .space) := if_pos spaced
      rw [Bool.and_eq_true] at spaced
      have blank : blankBefore ((equal.spacedAll inCall ds).map F) = true := by
        rw [again, around]
        refine any_eq_true.2 ?_
        obtain ⟨d, mem, found⟩ := any_eq_true.1 spaced.1
        rw [Bool.and_eq_true] at found
        refine ⟨d, mem, ?_⟩
        rw [found.1]
        exact Act.isPlainBlank_space found.2
      rw [around, aroundSign, blank, spaced.2]
      rfl
    · have around : equal.aroundSign inCall ds = (.strip, .strip) := if_neg spaced
      have blank : blankBefore ((equal.spacedAll inCall ds).map F) = false := by
        rw [again, around]
        refine any_eq_false.2 fun d _ => ?_
        rw [Act.isPlainBlank_strip, Bool.and_false]
        exact Bool.false_ne_true
      rw [around, aroundSign, blank]
      rfl

/-- **The acts of a fixer are done once more.**  What `F` does between is undone, as long as it leaves the
trees as they are apart from acts before them. -/
theorem spacedAll_again (r : Spacer) (fixed : ∀ d ∈ ds, F d = d)
    (moves : ∀ d ∈ ds, ∃ a : Act, ∀ x, F (d.withLead x) = (F d).withLead (a.on x)) :
    r.spacedAll inCall ((r.spacedAll inCall ds).map F) = r.spacedAll inCall ds := by
  have tokens : ((r.spacedAll inCall ds).map F).map (isOneOf r.tokens) = ds.map (isOneOf r.tokens) := by
    conv_rhs => rw [← map_fst_sides r ds]
    rw [spacedAll, map_map, map_map, map_map]
    refine map_congr_left fun c _ => ?_
    show isOneOf r.tokens (F (c.1.acted _)) = isOneOf r.tokens c.1
    rw [← isOneOf_bare, bare, bare_acted, isOneOf_bare]
  have standing : (ds.zip (sides false (ds.map (isOneOf r.tokens)))).map Prod.snd =
      sides false (ds.map (isOneOf r.tokens)) := map_snd_zip (by simp)
  rw [spacedAll, tokens, acts_again leaf bare, spacedAll]
  conv => lhs; arg 2; arg 2; rw [← standing]
  rw [map_map, zip_map', map_map]
  refine map_congr_left fun c hc => ?_
  have mem := (of_mem_zip hc).1
  exact acted_again (fixed c.1 mem) (moves c.1 mem) _

end Again

theorem spaced_spaced (r : Spacer) (inCall : Bool) (t : SyntaxTree) :
    r.spaced inCall (r.spaced inCall t) = r.spaced inCall t := by
  cases t with
  | leaf i l => rfl
  | node i k cs =>
    have again := @spacedAll_again inCall id cs (fun _ => rfl) (fun _ => rfl) r (fun _ _ => rfl)
      fun d _ => ⟨.keep, fun _ => rfl⟩
    rw [map_id] at again
    rw [spaced, spaced, again]

theorem spaceWith_spaced (once : ∀ r', r'.pattern.recognises t = true → r' = r) :
    spaceWith rs inCall (r.spaced inCall t) = r.spaced inCall t := by
  induction rs with
  | nil => rfl
  | cons r' rs ih =>
    rw [spaceWith_cons, r'.recognises_of_bare (bare_spaced r inCall t)]
    split
    · rename_i recognised
      rw [once r' recognised, spaced_spaced, ih]
    · exact ih

theorem spaceWith_eq_spaced (h : r.pattern.recognises t = true) (mem : r ∈ rs)
    (once : ∀ r', r'.pattern.recognises t = true → r' = r) :
    spaceWith rs inCall t = r.spaced inCall t := by
  induction rs with
  | nil => cases mem
  | cons r' rs ih =>
    rw [spaceWith_cons]
    split
    · rename_i recognised
      rw [once r' recognised]
      exact spaceWith_spaced once
    · rename_i unrecognised
      refine ih ((mem_cons.1 mem).resolve_left ?_)
      rintro rfl
      exact unrecognised h

/-! ## From below -/

mutual
/-- The tree as the fixers make it tidy: first its children, and then the node itself. -/
def tidy (rs : List Spacer) (inCall : Bool) : SyntaxTree → SyntaxTree
  | .leaf _ l => .leaf () l
  | .node _ k cs => spaceWith rs inCall (.node () k (tidyAll rs (ofCall k) cs))

def tidyAll (rs : List Spacer) (inCall : Bool) : List SyntaxTree → List SyntaxTree
  | [] => []
  | t :: ts => tidy rs inCall t :: tidyAll rs inCall ts
end

variable (rs)

theorem tidyAll_eq_map (inCall : Bool) (ts : List SyntaxTree) :
    tidyAll rs inCall ts = ts.map (tidy rs inCall) := by
  induction ts with
  | nil => rfl
  | cons t ts ih => exact congrArg (tidy rs inCall t :: ·) ih

theorem tidy_node (inCall : Bool) (i : Unit) (k : Kind) (cs : List SyntaxTree) :
    tidy rs inCall (.node i k cs) =
      spaceWith rs inCall (.node () k (cs.map (tidy rs (ofCall k)))) :=
  congrArg (fun ds => spaceWith rs inCall (.node () k ds)) (tidyAll_eq_map rs (ofCall k) cs)

/-- **Only blanks are changed.** -/
@[simp] theorem bare_tidy (inCall : Bool) (t : SyntaxTree) : (tidy rs inCall t).bare = t.bare := by
  induction t using induct generalizing inCall with
  | leaf i l => rfl
  | node i k cs ih =>
    rw [tidy_node, bare_spaceWith, bare_node, bare_node, map_map]
    exact congrArg _ (map_congr_left fun c hc => ih c hc (ofCall k))

/-- **Every leaf is touched by one act at most.** -/
theorem leaves_tidy (inCall : Bool) (t : SyntaxTree) :
    Forall₂ Leaf.Touched t.leaves (tidy rs inCall t).leaves := by
  induction t using induct generalizing inCall with
  | leaf i l => exact Leaf.touchedAll_refl _
  | node i k cs ih =>
    rw [tidy_node]
    have below : Forall₂ Leaf.Touched (leavesAll cs) (leavesAll (cs.map (tidy rs (ofCall k)))) := by
      refine forall₂_leavesAll ?_
      rw [forall₂_map_right_iff, forall₂_same]
      exact fun c hc => ih c hc (ofCall k)
    exact Leaf.TouchedAll.trans below (leaves_spaceWith rs inCall (.node () k _))

theorem tidy_withLead (inCall : Bool) (t : SyntaxTree) :
    ∃ a : Act, ∀ x, tidy rs inCall (t.withLead x) = (tidy rs inCall t).withLead (a.on x) := by
  induction t using induct generalizing inCall with
  | leaf i l => exact ⟨.keep, fun _ => rfl⟩
  | node i k cs ih =>
    cases cs with
    | nil =>
      obtain ⟨a, moves⟩ := spaceWith_withLead rs inCall (.node () k [])
      exact ⟨a, moves⟩
    | cons c cs =>
      obtain ⟨a, first⟩ := ih c mem_cons_self (ofCall k)
      obtain ⟨b, later⟩ := spaceWith_withLead rs inCall
        (.node () k ((c :: cs).map (tidy rs (ofCall k))))
      refine ⟨b.after a, fun x => ?_⟩
      rw [withLead_cons, tidy_node, tidy_node, map_cons, first, Act.after_on, ← later]
      rfl

theorem Unmixed.child {i : Unit} {k : Kind} (h : Unmixed (.node i k cs)) {c : SyntaxTree} (hc : c ∈ cs) :
    Unmixed c :=
  fun n hn => h n (mem_cons_of_mem _ (mem_nodesAll.2 ⟨c, hc, hn⟩))

/-- **A tidy tree stays as it is.** -/
theorem tidy_tidy (inCall : Bool) (h : Unmixed t) :
    tidy rs inCall (tidy rs inCall t) = tidy rs inCall t := by
  induction t using induct generalizing inCall with
  | leaf i l => rfl
  | node i k cs ih =>
    rw [tidy_node]
    set ds := cs.map (tidy rs (ofCall k)) with hds
    have same : (node () k ds).bare = (node i k cs).bare := by
      rw [bare_node, bare_node, map_map]
      exact congrArg _ (map_congr_left fun c _ => bare_tidy rs (ofCall k) c)
    have fixed : ∀ d ∈ ds, tidy rs (ofCall k) d = d := by
      intro d hd
      obtain ⟨c, hc, rfl⟩ := mem_map.1 hd
      exact ih c hc (ofCall k) (h.child hc)
    by_cases found : ∃ r ∈ rs, r.pattern.recognises (.node () k ds) = true
    · obtain ⟨r, mem, recognised⟩ := found
      have once : ∀ {u : SyntaxTree}, u.bare = (node () k ds).bare →
          spaceWith rs inCall u = r.spaced inCall u := by
        intro u bare
        refine spaceWith_eq_spaced ((r.recognises_of_bare bare).trans recognised) mem fun r' hr' => ?_
        rw [r'.recognises_of_bare (bare.trans same)] at hr'
        rw [r.recognises_of_bare same] at recognised
        exact h _ (self_mem_nodes _) r' r hr' recognised
      rw [once rfl, spaced, tidy_node, once]
      · refine congrArg _ (spacedAll_again (fun _ => rfl) (bare_tidy rs _) r fixed fun d hd => ?_)
        exact tidy_withLead rs (ofCall k) d
      · rw [bare_node, bare_node, map_map, ← map_bare_spacedAll r inCall ds]
        exact congrArg _ (map_congr_left fun c _ => bare_tidy rs (ofCall k) c)
    · have none : ∀ r ∈ rs, r.pattern.recognises (.node () k ds) = false := by
        intro r hr
        exact Bool.eq_false_iff.2 fun recognised => found ⟨r, hr, recognised⟩
      rw [spaceWith_eq_self none, tidy_node, map_congr_left fixed, map_id', spaceWith_eq_self none]

end Fixes.Spacer

end Retouch
